import Selene.Base.Binary
import Selene.Graph.Types
import Selene.Query.ValueKeys

/-!
# Comparing values

`numeric_value.rs`, `value_comparison.rs` and `value_compare.rs`: numbers of all representations are
compared through their exact keys, other values within their variant. Before a comparison the two
values pass through one comparison domain, which refuses pairs without a common shape.
-/

namespace Selene.Graph

open Binary

/-! ## Numbers -/

namespace NumericKey

/-- `Wide::mul_fives`, on a number of 256 bits. -/
def mulFives : ℕ → ℕ → ℕ
  | 0, a => a
  | count + 1, a => mulFives count (a * 5 % 2 ^ 256)

/-- The magnitudes `am * 2 ^ ae / 5 ^ af` and `bm * 2 ^ be / 5 ^ bf`. -/
def magnitudeCmp (am : ℕ) (ae : ℤ) (af : ℕ) (bm : ℕ) (be : ℤ) (bf : ℕ) : Ordering :=
  if am = 0 ∨ bm = 0 then compare am bm
  else if af = bf then
    (compare (bitLength am + ae) (bitLength bm + be)).then
      (compare (leading 128 am % 2 ^ 128) (leading 128 bm % 2 ^ 128))
  else
    let a := if bf > af then mulFives (bf - af) am else am
    let b := if bf > af then bm else mulFives (af - bf) bm
    (compare (bitLength a + ae) (bitLength b + be)).then
      (compare (leading 256 a % 2 ^ 256) (leading 256 b % 2 ^ 256))

/-- `predicate_cmp`; nothing is known of a NaN. -/
def predicateCmp : NumericKey → NumericKey → Option Ordering
  | .nan, _ | _, .nan => none
  | .infinity a, .infinity b => some (compare b a)
  | .infinity negative, _ => some (if negative then .lt else .gt)
  | _, .infinity negative => some (if negative then .gt else .lt)
  | .finite a am ae af, .finite b bm be bf =>
    if a ≠ b then some (compare b a)
    else
      let order := magnitudeCmp am ae af bm be bf
      some (if a then order.swap else order)

end NumericKey

/-! ## Comparison domains -/

inductive ComparisonMode where
  | predicateEquality
  | distinctness
  | ordering
deriving DecidableEq

/-- `comparable_with`: JSON has no order, and paths no equality predicate. -/
def LeafType.comparableIn (mode : ComparisonMode) (a b : LeafType) : Bool :=
  a.comparableWith b && !(mode == .ordering && a == .json) &&
    !(mode == .predicateEquality && a == .path)

/-- `Domain`: the shape of the values seen, with the records' fields by name. -/
inductive Domain where
  | unknown
  | leaf (type : LeafType)
  | list (domains : List Domain)
  | record (fields : List (DbString × Domain))

namespace Domain

/-- A value that is no container and not null. -/
def observeLeaf (mode : ComparisonMode) (v : Value) (d : Domain) :
    Except ValueComparisonError Domain :=
  match LeafType.of v with
  | none => .error .notComparable
  | some type =>
    if type.comparableIn mode type then
      match d with
      | unknown => .ok (leaf type)
      | leaf prior =>
        if prior.comparableIn mode type then
          .ok (leaf (if prior = .duration .zero then type else prior))
        else .error .notComparable
      | _ => .error .notComparable
    else .error .notComparable

/-- The domains of a list's positions, or nothing when the domain is not a list's. -/
def positions : Domain → Option (List Domain)
  | unknown => some []
  | list domains => some domains
  | _ => none

/-- The domains of a record's fields; an unknown domain takes the names of the record. -/
def members (names : List DbString) : Domain → Option (List (DbString × Domain))
  | unknown => some (names.dedup.map fun name => (name, unknown))
  | record fields => some fields
  | _ => none

mutual

def observe (mode : ComparisonMode) (depth : ℕ) :
    Value → Domain → Except ValueComparisonError Domain
  | .null, d => if maxStructuralTypeDepth < depth then .error .tooDeep else .ok d
  | .list values, d =>
    if maxStructuralTypeDepth < depth then .error .tooDeep
    else match d.positions with
      | none => .error .notComparable
      | some domains => do .ok (list (← observeList mode (depth + 1) values domains))
  | .record fields, d =>
    if maxStructuralTypeDepth < depth then .error .tooDeep
    else match d.members (fields.map Prod.fst) with
      | none => .error .notComparable
      | some domains =>
        if domains.length ≠ fields.length then .error .notComparable
        else do .ok (record (← observeFields mode (depth + 1) fields domains))
  | v, d => if maxStructuralTypeDepth < depth then .error .tooDeep else observeLeaf mode v d

def observeList (mode : ComparisonMode) (depth : ℕ) :
    List Value → List Domain → Except ValueComparisonError (List Domain)
  | [], domains => .ok domains
  | v :: values, [] => do
    let d ← observe mode depth v unknown
    .ok (d :: (← observeList mode depth values []))
  | v :: values, d :: domains => do
    let d ← observe mode depth v d
    .ok (d :: (← observeList mode depth values domains))

def observeFields (mode : ComparisonMode) (depth : ℕ) :
    List (DbString × Value) → List (DbString × Domain) →
      Except ValueComparisonError (List (DbString × Domain))
  | [], domains => .ok domains
  | (name, v) :: fields, domains =>
    match domains.lookup name with
    | none => .error .notComparable
    | some d => do
      let d ← observe mode depth v d
      observeFields mode depth fields
        (domains.map fun entry => if entry.1 = name then (name, d) else entry)

end

/-- `ensure_pair`, before its error is made a diagnostic. -/
def ensurePair (mode : ComparisonMode) (lhs rhs : Value) : Except ValueComparisonError Unit := do
  let d ← observe mode 1 lhs unknown
  discard (observe mode 1 rhs d)

end Domain

/-! ## Equality -/

namespace Value

/-- `path_compare`; the directions of the edges are not looked at. -/
def pathCompare (g : ℕ) (s : NodeId) (a : List (EdgeId × EdgeDirection × NodeId))
    (h : ℕ) (t : NodeId) (b : List (EdgeId × EdgeDirection × NodeId)) : Ordering :=
  (compare g h).then <| (compare s t).then <|
    (List.zipWith (fun x y => (compare x.1 y.1).then (compare x.2.2 y.2.2)) a b).foldr Ordering.then
      (compare a.length b.length)

/-- `value_key_equal`, with the answer for values that are not null. -/
def valueKeyEqual (nonNull : Bool) : Value → Value → Bool
  | .null, .null => true
  | .null, _ | _, .null => false
  | _, _ => nonNull

mutual

def equalNonNull (lhs rhs : Value) : Bool :=
  match NumericKey.of lhs, NumericKey.of rhs with
  | some a, some b => a == b
  | _, _ =>
    match lhs, rhs with
    | .duration a, .duration b => a.orderKey == b.orderKey
    | .record a, .record b => a.length == b.length && equalFields a b
    | .path g s a, .path h t b => pathCompare g s a h t b == .eq
    | .list a, .list b => a.length == b.length && equalList a b
    | a, b => eq a b

def equalList : List Value → List Value → Bool
  | a :: as, b :: bs => valueKeyEqual (equalNonNull a b) a b && equalList as bs
  | _, _ => true

def equalFields : List (DbString × Value) → List (DbString × Value) → Bool
  | [], _ => true
  | (name, a) :: as, bs =>
    (match bs.lookup name with
      | some b => valueKeyEqual (equalNonNull a b) a b
      | none => false) && equalFields as bs

end

/-- The loop of `combine_equal`. -/
def combineLoop (unknown : Bool) : List (Option Bool) → Option Bool
  | [] => if unknown then none else some true
  | some false :: _ => some false
  | none :: pairs => combineLoop true pairs
  | some true :: pairs => combineLoop unknown pairs

def combineEqual (pairs : List (Option Bool)) : Option Bool := combineLoop false pairs

/-- `gql_equal`, with the answer for values that are not null. -/
def gqlEqual (nonNull : Option Bool) : Value → Value → Option Bool
  | .null, _ | _, .null => none
  | _, _ => nonNull

mutual

def gqlEqualNonNull (lhs rhs : Value) : Option Bool :=
  match NumericKey.of lhs, NumericKey.of rhs with
  | some a, some b => (a.predicateCmp b).map (· == .eq)
  | _, _ =>
    match lhs, rhs with
    | .list a, .list b =>
      if a.length ≠ b.length then some false else combineEqual (gqlEqualList a b)
    | .record a, .record b =>
      if a.length ≠ b.length then some false else combineEqual (gqlEqualFields a b)
    | .recordTyped s a, .recordTyped t b =>
      if s ≠ t ∨ a.length ≠ b.length then some false else combineEqual (gqlEqualSlots a b)
    | a, b => some (equalNonNull a b)

def gqlEqualList : List Value → List Value → List (Option Bool)
  | a :: as, b :: bs => gqlEqual (gqlEqualNonNull a b) a b :: gqlEqualList as bs
  | _, _ => []

def gqlEqualFields : List (DbString × Value) → List (DbString × Value) → List (Option Bool)
  | [], _ => []
  | (name, a) :: as, bs =>
    (match bs.lookup name with
      | some b => gqlEqual (gqlEqualNonNull a b) a b
      | none => some false) :: gqlEqualFields as bs

def gqlEqualSlots : List (Option Value) → List (Option Value) → List (Option Bool)
  | some a :: as, some b :: bs => gqlEqual (gqlEqualNonNull a b) a b :: gqlEqualSlots as bs
  | _ :: as, _ :: bs => none :: gqlEqualSlots as bs
  | _, _ => []

end

/-! ## Order -/

/-- The place of a 32-bit float in `total_cmp`. -/
def totalKey (bits : UInt32) : ℤ :=
  if bits.toNat < 2 ^ 31 then bits.toNat else 2 ^ 31 - 1 - (bits.toNat : ℤ)

def vectorCompare : List UInt32 → List UInt32 → Ordering
  | a :: as, b :: bs =>
    if float32Eq a b then vectorCompare as bs else compare (totalKey a) (totalKey b)
  | as, bs => compare as.length bs.length

/-- One turn of the loops over the members of two containers. -/
def continueIfEqual (order : Option Ordering) (rest : Option Ordering) : Option Ordering :=
  match order with
  | some .eq => rest
  | order => order

/-- `compare_values`, with the answer for values that are not null. -/
def compareValues (nonNull : Option Ordering) : Value → Value → Option Ordering
  | .null, _ | _, .null => none
  | _, _ => nonNull

/-- The loop of `record_compare`, over the fields in the order of their names; of the left ones,
what they answer to a value of the right. -/
def recordCompare :
    List (DbString × (Value → Option Ordering)) → List (DbString × Value) → Option Ordering
  | (name, ask) :: as, (other, b) :: bs =>
    if compare name other ≠ .eq then some (compare name other)
    else continueIfEqual (ask b) (recordCompare as bs)
  | as, bs => some (compare as.length bs.length)

/-- `sort_by` of the fields' names. -/
def sortByName {α : Type} (fields : List (DbString × α)) : List (DbString × α) :=
  fields.mergeSort fun a b => a.1 ≤ b.1

mutual

def compareValuePair (lhs rhs : Value) : Option Ordering :=
  match NumericKey.of lhs, NumericKey.of rhs with
  | some a, some b => a.predicateCmp b
  | _, _ =>
    match lhs, rhs with
    | .bool a, .bool b => some (compare a b)
    | .string a, .string b => some (compare a b)
    | .date a, .date b => some (compare a b)
    | .localDateTime a, .localDateTime b => some (compare a b)
    | .zonedDateTime a, .zonedDateTime b => some (compare a.instant b.instant)
    | .localTime a, .localTime b => some (compare a b)
    | .zonedTime a, .zonedTime b => some (compare a.instant b.instant)
    | .duration a, .duration b =>
      some ((compare a.orderKey.1 b.orderKey.1).then (compare a.orderKey.2 b.orderKey.2))
    | .bytes a, .bytes b => some (compare a b)
    | .uuid a, .uuid b => some (compare a b)
    | .nodeRef a, .nodeRef b => some (compare a b)
    | .edgeRef a, .edgeRef b => some (compare a b)
    | .graphRef a, .graphRef b => some (compare a b)
    | .tableRef a, .tableRef b => some (compare a b)
    | .path g s a, .path h t b => some (pathCompare g s a h t b)
    | .list a, .list b => compareList a b
    | .record a, .record b => recordCompare (sortByName (compareFields a)) (sortByName b)
    | .recordTyped s a, .recordTyped t b =>
      if compare s t ≠ .eq then some (compare s t) else compareSlots a b
    | .vector a, .vector b => some (vectorCompare a b)
    | _, _ => none

/-- `list_compare`. -/
def compareList : List Value → List Value → Option Ordering
  | a :: as, b :: bs =>
    continueIfEqual (compareValues (compareValuePair a b) a b) (compareList as bs)
  | as, bs => some (compare as.length bs.length)

def compareFields : List (DbString × Value) → List (DbString × (Value → Option Ordering))
  | [] => []
  | (name, a) :: as =>
    (name, fun b => compareValues (compareValuePair a b) a b) :: compareFields as

/-- The loop of `typed_record_compare`. -/
def compareSlots : List (Option Value) → List (Option Value) → Option Ordering
  | some a :: as, some b :: bs =>
    continueIfEqual (compareValues (compareValuePair a b) a b) (compareSlots as bs)
  | _ :: _, _ :: _ => none
  | as, bs => some (compare as.length bs.length)

end

end Value

end Selene.Graph
