import Selene.Query.NumericOrder

/-!
# Grouping keys

`value_key.rs`: `RuntimeEqKey` wraps the values of a row for DISTINCT, grouping, set operations and
hash joins. Its equality compares numbers of all representations and records by their field names.
Its hash writes one piece after the other into a hasher; the pieces are kept here (`HashToken`), so
that two keys that write the same pieces have the same hash under every hasher.
-/

namespace Selene.Graph

/-- What is written into a hasher. -/
inductive HashToken where
  | tag (name : String)
  | number (key : NumericKey)
  | nat (n : ℕ)
  | int (i : ℤ)
  | flag (b : Bool)
  | text (s : String)
  | bytes (b : List UInt8)
  | decimal (q : ℚ)
  | json (text : String)
deriving DecidableEq

namespace Value

/-- `hash_f64_canonical`. -/
def hashFloat (bits : UInt64) : HashToken :=
  if Float64.isZero bits then .nat 0
  else if Float64.isNaN bits then .nat (2 ^ 64 - 1)
  else .nat bits.toNat

/-- `hash_f32_canonical`. -/
def hashFloat32 (bits : UInt32) : HashToken :=
  if Float32.isZero bits then .nat 0
  else if Float32.isNaN bits then .nat (2 ^ 32 - 1)
  else .nat bits.toNat

mutual

/-- `hash_value_variant_strict` after the variant's discriminant. A decimal hashes its normalized
form, a point in time its instant. -/
def strictPayload : Value → List HashToken
  | bool b => [.flag b]
  | int i | int128 i => [.int i]
  | uint n | uint128 n => [.nat n]
  | float bits => [hashFloat bits]
  | float32 bits => [hashFloat32 bits]
  | decimal d => [.decimal d.toRat]
  | string s => [.text s]
  | bytes b => [.bytes b]
  | list values => .nat values.length :: strictList values
  | record fields => .tag "Open" :: .nat fields.length :: strictFields fields
  | recordTyped type values => .nat type :: .nat values.length :: strictSlots values
  | path graph start segments =>
    .nat graph :: .nat start :: .nat segments.length ::
      segments.flatMap fun segment => [.nat segment.1, .nat segment.2.2]
  | nodeRef id | edgeRef id | graphRef id | tableRef id => [.nat id]
  | zonedDateTime z | zonedTime z => [.int z.instant]
  | localDateTime t => [.int t]
  | date day => [.int day]
  | localTime t => [.nat t]
  | duration s => [.int s.orderKey.1, .int s.orderKey.2]
  | extended type payload => [.nat type, .bytes payload]
  | null => []
  | uuid n => [.nat n]
  | vector components => .nat components.length :: components.map hashFloat32
  | json text => [.json text]

def strictList : List Value → List HashToken
  | [] => []
  | v :: values => .tag v.variantName :: (strictPayload v ++ strictList values)

def strictFields : List (DbString × Value) → List HashToken
  | [] => []
  | (name, v) :: fields =>
    .text name :: .tag v.variantName :: (strictPayload v ++ strictFields fields)

def strictSlots : List (Option Value) → List HashToken
  | [] => []
  | none :: values => .flag false :: strictSlots values
  | some v :: values => .flag true :: .tag v.variantName :: (strictPayload v ++ strictSlots values)

end

/-- `hash_value_variant_strict`. -/
def strictTokens (v : Value) : List HashToken := .tag v.variantName :: strictPayload v

mutual

/-- `hash_value_runtime_eq`. -/
def runtimeTokens (v : Value) : List HashToken :=
  match NumericKey.of v with
  | some key => [.tag "runtime-number", .number key]
  | none =>
    match v with
    | string s => [.tag "runtime-string", .text s]
    | record fields =>
      .tag "Open" :: .nat fields.length ::
        (sortByName (runtimeFields fields)).flatMap fun field => .text field.1 :: field.2
    | list values => .tag "List" :: .nat values.length :: runtimeList values
    | v => strictTokens v

def runtimeList : List Value → List HashToken
  | [] => []
  | v :: values => runtimeTokens v ++ runtimeList values

def runtimeFields : List (DbString × Value) → List (DbString × List HashToken)
  | [] => []
  | (name, v) :: fields => (name, runtimeTokens v) :: runtimeFields fields

end

/-! ## Values at run time -/

mutual

/-- The values an execution works with: integers of their types, vectors of finite components, and
records whose field names are distinct, at every depth. -/
def proper : Value → Bool
  | list values => properList values
  | record fields => decide (fields.map Prod.fst).Nodup && properFields fields
  | recordTyped _ values => properSlots values
  | vector components => components.all Float32.isFinite
  | v => v.inRange

def properList : List Value → Bool
  | [] => true
  | v :: values => proper v && properList values

def properFields : List (DbString × Value) → Bool
  | [] => true
  | (_, v) :: fields => proper v && properFields fields

def properSlots : List (Option Value) → Bool
  | [] => true
  | none :: values => properSlots values
  | some v :: values => proper v && properSlots values

end

end Value

/-- A value of an execution. -/
abbrev RuntimeValue := { v : Value // v.proper = true }

/-! ## Keys of rows -/

namespace RuntimeEqKey

/-- `RuntimeEqKey`'s `==`. -/
def eq (lhs rhs : List Value) : Bool := lhs.length == rhs.length && Value.equalList lhs rhs

/-- What `RuntimeEqKey`'s `hash` writes. -/
def hash (row : List Value) : List HashToken := .nat row.length :: Value.runtimeList row

end RuntimeEqKey

end Selene.Graph
