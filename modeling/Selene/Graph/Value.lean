import Mathlib.Algebra.Group.Nat.Defs
import Mathlib.Data.Rat.Defs
import Std.Data.ExtTreeMap.Lemmas
import Std.Data.ExtTreeSet.Lemmas

/-!
# Property values

`Value` with the payloads the engine reads. Payloads of foreign libraries stand for what the
engine uses of them: a decimal is its mantissa and scale, a civil date a day number, a civil time
or timestamp a number of nanoseconds, a zoned value its instant and its zone, a float its bits.

`StoredValue.validate` is the boundary a value passes before it is stored; `PropertyMap` and
`LabelSet` are the maps and sets the columns hold, iterated in key order.
-/

namespace Selene.Graph

abbrev DbString := String
abbrev NodeId := ℕ
abbrev EdgeId := ℕ

/-- The row number a store hands out (`NodeRow`, `EdgeRow`). -/
abbrev Row := ℕ

/-- `NodeId::TOMBSTONE` and `EdgeId::TOMBSTONE`. -/
def tombstone : ℕ := 0

structure Decimal where
  mantissa : ℤ
  scale : ℕ
  mantissa_lt : mantissa.natAbs < 2 ^ 96
  scale_le : scale ≤ 28

/-- `1.0` and `1.00` are the same decimal. -/
def Decimal.toRat (d : Decimal) : ℚ := d.mantissa / (10 : ℚ) ^ d.scale

structure Zoned where
  instant : ℤ
  zone : String

structure Span where
  years : ℤ
  months : ℤ
  weeks : ℤ
  days : ℤ
  hours : ℤ
  minutes : ℤ
  seconds : ℤ
  milliseconds : ℤ
  microseconds : ℤ
  nanoseconds : ℤ
deriving DecidableEq

/-- `duration_order_key`: months, and nanoseconds of everything shorter than a month. -/
def Span.orderKey (s : Span) : ℤ × ℤ :=
  (s.years * 12 + s.months,
    s.weeks * 604800000000000 + s.days * 86400000000000 + s.hours * 3600000000000 +
      s.minutes * 60000000000 + s.seconds * 1000000000 + s.milliseconds * 1000000 +
      s.microseconds * 1000 + s.nanoseconds)

inductive EdgeDirection where
  | outgoing
  | incoming
  | undirected
deriving DecidableEq

inductive Value where
  | bool (b : Bool)
  | int (i : ℤ)
  | uint (n : ℕ)
  | int128 (i : ℤ)
  | uint128 (n : ℕ)
  | float (bits : UInt64)
  | float32 (bits : UInt32)
  | decimal (d : Decimal)
  | string (s : DbString)
  | bytes (b : List UInt8)
  | list (values : List Value)
  | record (fields : List (DbString × Value))
  | recordTyped (type : ℕ) (values : List (Option Value))
  | path (graph : ℕ) (start : NodeId) (segments : List (EdgeId × EdgeDirection × NodeId))
  | nodeRef (id : NodeId)
  | edgeRef (id : EdgeId)
  | graphRef (id : ℕ)
  | tableRef (id : ℕ)
  | zonedDateTime (z : Zoned)
  | localDateTime (t : ℤ)
  | date (day : ℤ)
  | zonedTime (z : Zoned)
  | localTime (t : ℕ)
  | duration (s : Span)
  | extended (type : ℕ) (payload : List UInt8)
  | null
  | uuid (n : ℕ)
  | vector (components : List UInt32)
  | json (text : String)

/-! ## Floats by their bits -/

def Float64.isNaN (bits : UInt64) : Bool := 0x7FF0000000000000 < bits &&& 0x7FFFFFFFFFFFFFFF

def Float64.isZero (bits : UInt64) : Bool := bits &&& 0x7FFFFFFFFFFFFFFF == 0

def Float32.isNaN (bits : UInt32) : Bool := 0x7F800000 < bits &&& 0x7FFFFFFF

def Float32.isZero (bits : UInt32) : Bool := bits &&& 0x7FFFFFFF == 0

namespace Value

def isNull : Value → Bool
  | null => true
  | _ => false

def variantName : Value → String
  | bool _ => "Bool"
  | int _ => "Int"
  | uint _ => "Uint"
  | int128 _ => "Int128"
  | uint128 _ => "Uint128"
  | float _ => "Float"
  | float32 _ => "Float32"
  | decimal _ => "Decimal"
  | string _ => "String"
  | bytes _ => "Bytes"
  | list _ => "List"
  | record _ => "Record"
  | recordTyped _ _ => "RecordTyped"
  | path _ _ _ => "Path"
  | nodeRef _ => "NodeRef"
  | edgeRef _ => "EdgeRef"
  | graphRef _ => "GraphRef"
  | tableRef _ => "TableRef"
  | zonedDateTime _ => "ZonedDateTime"
  | localDateTime _ => "LocalDateTime"
  | date _ => "Date"
  | zonedTime _ => "ZonedTime"
  | localTime _ => "LocalTime"
  | duration _ => "Duration"
  | extended _ _ => "Extended"
  | null => "Null"
  | uuid _ => "Uuid"
  | vector _ => "Vector"
  | json _ => "Json"

/-- Equality of 32-bit floats. -/
def float32Eq (a b : UInt32) : Bool :=
  (a == b && !Float32.isNaN a) || (Float32.isZero a && Float32.isZero b)

/-- The text of a JSON document without the signs of its zeros; `quoted` inside a string. -/
def unsignZeros : Bool → List Char → List Char
  | _, [] => []
  | true, '\\' :: c :: rest => '\\' :: c :: unsignZeros true rest
  | quoted, '"' :: rest => '"' :: unsignZeros (!quoted) rest
  | false, '-' :: '0' :: '.' :: '0' :: rest =>
    (if rest.head?.any Char.isDigit then ['-', '0', '.', '0'] else ['0', '.', '0']) ++
      unsignZeros false rest
  | quoted, c :: rest => c :: unsignZeros quoted rest

/-- Equality of JSON documents, of their texts: numbers that are equal are printed alike, but for
`0.0` and `-0.0`. -/
def jsonEq (a b : String) : Bool := unsignZeros false a.toList == unsignZeros false b.toList

mutual

/-- `Value`'s own equality: of one variant only; floats as numbers, all NaNs equal. -/
def eq : Value → Value → Bool
  | bool a, bool b => a == b
  | int a, int b => a == b
  | uint a, uint b => a == b
  | int128 a, int128 b => a == b
  | uint128 a, uint128 b => a == b
  | float a, float b =>
    a == b || (Float64.isZero a && Float64.isZero b) || (Float64.isNaN a && Float64.isNaN b)
  | float32 a, float32 b => float32Eq a b || (Float32.isNaN a && Float32.isNaN b)
  | decimal a, decimal b => a.toRat == b.toRat
  | string a, string b => a == b
  | bytes a, bytes b => a == b
  | list a, list b => eqList a b
  | record a, record b => eqFields a b
  | recordTyped s a, recordTyped t b => s == t && eqSlots a b
  | path g s a, path h t b => g == h && s == t && a == b
  | nodeRef a, nodeRef b => a == b
  | edgeRef a, edgeRef b => a == b
  | graphRef a, graphRef b => a == b
  | tableRef a, tableRef b => a == b
  | zonedDateTime a, zonedDateTime b => a.instant == b.instant
  | localDateTime a, localDateTime b => a == b
  | date a, date b => a == b
  | zonedTime a, zonedTime b => a.instant == b.instant
  | localTime a, localTime b => a == b
  | duration a, duration b => a == b
  | extended s a, extended t b => s == t && a == b
  | null, null => true
  | uuid a, uuid b => a == b
  | vector a, vector b => a.length == b.length && (a.zip b).all fun p => float32Eq p.1 p.2
  | json a, json b => jsonEq a b
  | _, _ => false

def eqList : List Value → List Value → Bool
  | [], [] => true
  | a :: as, b :: bs => eq a b && eqList as bs
  | _, _ => false

def eqFields : List (DbString × Value) → List (DbString × Value) → Bool
  | [], [] => true
  | (n, a) :: as, (m, b) :: bs => n == m && eq a b && eqFields as bs
  | _, _ => false

def eqSlots : List (Option Value) → List (Option Value) → Bool
  | [], [] => true
  | some a :: as, some b :: bs => eq a b && eqSlots as bs
  | none :: as, none :: bs => eqSlots as bs
  | _, _ => false

end

end Value

/-! ## The stored-value boundary -/

def maxStoredValueDepth : ℕ := 256

inductive StoredValueError where
  | depthLimit
  | queryOnly (family : String)
  | missingRecordDescriptor
  | duplicateField (name : DbString)
deriving DecidableEq

inductive CoreError where
  | storedValue (e : StoredValueError)
  | constructedValueTooLarge
deriving DecidableEq

namespace StoredValue

/-- The first name that stands before itself in the list. -/
def firstDuplicate : List DbString → List DbString → Option DbString
  | _, [] => none
  | seen, n :: ns => if n ∈ seen then some n else firstDuplicate (n :: seen) ns

mutual

/-- `check` at a depth. The source keeps the values still to visit on a stack, so the members of
a container are visited from the last to the first, each with all it contains. -/
def check (depth : ℕ) : Value → Except StoredValueError Unit
  | .list values =>
    if maxStoredValueDepth < depth then .error .depthLimit else checkList (depth + 1) values
  | .record fields =>
    if maxStoredValueDepth < depth then .error .depthLimit
    else match firstDuplicate [] (fields.map Prod.fst) with
      | some name => .error (.duplicateField name)
      | none => checkFields (depth + 1) fields
  | .recordTyped _ _ =>
    if maxStoredValueDepth < depth then .error .depthLimit else .error .missingRecordDescriptor
  | .nodeRef _ => queryOnly "NodeRef"
  | .edgeRef _ => queryOnly "EdgeRef"
  | .graphRef _ => queryOnly "GraphRef"
  | .tableRef _ => queryOnly "TableRef"
  | .path _ _ _ => queryOnly "Path"
  | .extended _ _ => queryOnly "Extended"
  | _ => if maxStoredValueDepth < depth then .error .depthLimit else .ok ()
where
  queryOnly (family : String) : Except StoredValueError Unit :=
    if maxStoredValueDepth < depth then .error .depthLimit else .error (.queryOnly family)

def checkList (depth : ℕ) : List Value → Except StoredValueError Unit
  | [] => .ok ()
  | v :: vs => do checkList depth vs; check depth v

def checkFields (depth : ℕ) : List (DbString × Value) → Except StoredValueError Unit
  | [] => .ok ()
  | (_, v) :: fs => do checkFields depth fs; check depth v

end

def validate (v : Value) : Except CoreError Unit := (check 1 v).mapError .storedValue

end StoredValue

/-! ## Labels and properties -/

abbrev LabelSet := Std.ExtTreeSet DbString compare

abbrev PropertyMap := Std.ExtTreeMap DbString Value compare

def maxPropertyCount : ℕ := 2 ^ 32 - 1

namespace PropertyMap

def validateStoredValues (props : PropertyMap) : Except CoreError Unit :=
  props.toList.forM fun entry => StoredValue.validate entry.2

/-- `set`: a stored value, and no more keys than `MAX_PROPERTY_COUNT`. -/
def set (props : PropertyMap) (key : DbString) (value : Value) : Except CoreError PropertyMap := do
  StoredValue.validate value
  if key ∉ props ∧ maxPropertyCount < props.size + 1 then .error .constructedValueTooLarge
  else .ok (props.insert key value)

end PropertyMap

/-- `LabelDiff`, as its constructor builds it: no label is both added and removed. -/
structure LabelDiff where
  added : List DbString
  removed : List DbString
  disjoint : ∀ label ∈ added, label ∉ removed

/-- `PropertyDiff`, as its constructor builds it: one value for a key, and no key both set and
removed. -/
structure PropertyDiff where
  set : List (DbString × Value)
  removed : List DbString
  nodup : (set.map Prod.fst).Nodup
  disjoint : ∀ key ∈ set.map Prod.fst, key ∉ removed

namespace PropertyDiff

def validateStoredValues (diff : PropertyDiff) : Except CoreError Unit :=
  diff.set.forM fun entry => StoredValue.validate entry.2

end PropertyDiff

inductive EdgeDirectionality where
  | directed
  | undirected
deriving DecidableEq

/-- `canonical_endpoints`: the endpoints of an undirected edge in the order of their ids. -/
def EdgeDirectionality.canonicalEndpoints (d : EdgeDirectionality) (first second : NodeId) :
    NodeId × NodeId :=
  if d = .undirected ∧ second < first then (second, first) else (first, second)

end Selene.Graph
