import Selene.Base.Bytes
import Selene.Core.Json
import Selene.Graph.Value

/-!
# Values as they are held

`value.rs` with the payloads exact: machine integers, JSON documents as trees. Decimals belong to
`rust_decimal`, times and spans to `jiff` and JSON numbers to `serde_json`; a `Foreign` gives their
types, and how they are written and read. `Value.abstract` forgets what the graph does not read of a value, and the stored-value
boundary and Rust's equality are taken from there.
-/

namespace Selene.Core

open Octets

/-- A database string of at most `MAX_DB_STRING_BYTES` bytes. -/
abbrev DbString := { s : String // s.utf8ByteSize ≤ maxStringBytes }

def dbString (s : String) : Option DbString :=
  if h : s.utf8ByteSize ≤ maxStringBytes then some ⟨s, h⟩ else none

/-- `Display` and `FromStr` of a foreign type. -/
structure Text (α : Type) where
  print : α → String
  parse : String → Option α

/-- Printing and parsing are inverse on what is printed. -/
def Text.Lawful {α : Type} (t : Text α) : Prop := ∀ a, t.parse (t.print a) = some a

/-- The first word of a serialised decimal: a scale up to 28, and the sign. -/
def decimalFlags (bytes : Bytes) : Prop :=
  let flags := leNat (bytes.take 4)
  flags % 2 ^ 16 = 0 ∧ flags / 2 ^ 24 % 2 ^ 7 = 0 ∧ flags / 2 ^ 16 % 2 ^ 8 ≤ 28

instance (bytes : Bytes) : Decidable (decimalFlags bytes) := inferInstanceAs (Decidable (_ ∧ _))

/-- `Decimal::serialize` and `deserialize`, inverse on 16 bytes with such a word. -/
structure DecimalFormat (α : Type) where
  serialize : α → Bytes
  deserialize : Bytes → α
  length_serialize : ∀ d, (serialize d).length = 16
  flags_serialize : ∀ d, decimalFlags (serialize d)
  deserialize_serialize : ∀ d, deserialize (serialize d) = d
  serialize_deserialize : ∀ {b}, b.length = 16 → decimalFlags b → serialize (deserialize b) = b

/-- The amounts of a span, from years to nanoseconds: each in its range, and all of one sign. -/
structure SpanFormat (α : Type) where
  limits : List ℕ
  amounts : α → List Int64
  ofAmounts : List Int64 → Option α
  ranged : ∀ s, List.Forall₂ (fun a limit => a.toInt.natAbs ≤ limit) (amounts s) limits
  signed : ∀ s, (∀ a ∈ amounts s, 0 ≤ a.toInt) ∨ ∀ a ∈ amounts s, a.toInt ≤ 0
  ofAmounts_iff : ∀ {as s}, ofAmounts as = some s ↔ as = amounts s

/-- The foreign payloads, and what the graph reads of them. -/
structure Foreign where
  Decimal : Type
  Span : Type
  Date : Type
  Time : Type
  DateTime : Type
  Zoned : Type
  Number : Type
  decimal : DecimalFormat Decimal
  span : SpanFormat Span
  date : Text Date
  time : Text Time
  dateTime : Text DateTime
  zoned : Text Zoned
  json : Text (Json Number)
  parseNumber : String → Option Number
  decimalOf : Decimal → Graph.Decimal
  dayOf : Date → ℤ
  nanosecondOf : Time → ℕ
  instantOf : DateTime → ℤ
  zonedOf : Zoned → Graph.Zoned

structure Foreign.Lawful (F : Foreign) : Prop where
  date : F.date.Lawful
  time : F.time.Lawful
  dateTime : F.dateTime.Lawful
  zoned : F.zoned.Lawful
  json : F.json.Lawful

def SpanFormat.read {α : Type} (f : SpanFormat α) (s : α) : Graph.Span :=
  let at_ (i : ℕ) := ((f.amounts s).getD i 0).toInt
  ⟨at_ 0, at_ 1, at_ 2, at_ 3, at_ 4, at_ 5, at_ 6, at_ 7, at_ 8, at_ 9⟩

def maxVectorDimension : ℕ := 65535

/-- `f32::is_finite`. -/
def isFinite32 (bits : UInt32) : Bool := bits &&& 0x7F800000 != 0x7F800000

structure VectorValue where
  components : List UInt32
  nonempty : components ≠ []
  short : components.length ≤ maxVectorDimension
  finite : ∀ b ∈ components, isFinite32 b = true

def VectorValue.new (components : List UInt32) : Option VectorValue :=
  if h : components ≠ [] ∧ components.length ≤ maxVectorDimension ∧ components.all isFinite32 then
    some ⟨components, h.1, h.2.1, List.all_eq_true.1 h.2.2⟩
  else none

abbrev Uuid := { b : Bytes // b.length = 16 }

inductive Value (F : Foreign) where
  | bool (b : Bool)
  | int (i : Int64)
  | uint (n : UInt64)
  | int128 (i : BitVec 128)
  | uint128 (n : BitVec 128)
  | float (bits : UInt64)
  | float32 (bits : UInt32)
  | decimal (d : F.Decimal)
  | string (s : DbString)
  | bytes (b : Bytes)
  | list (values : List (Value F))
  | record (fields : List (DbString × Value F))
  | recordTyped (type : UInt64) (values : List (Option (Value F)))
  | path (graph start : UInt64) (segments : List (UInt64 × Graph.EdgeDirection × UInt64))
  | nodeRef (id : UInt64)
  | edgeRef (id : UInt64)
  | graphRef (id : UInt64)
  | tableRef (id : UInt64)
  | zonedDateTime (z : F.Zoned)
  | localDateTime (t : F.DateTime)
  | date (d : F.Date)
  | zonedTime (z : F.Zoned)
  | localTime (t : F.Time)
  | duration (s : F.Span)
  | extended (type : UInt64) (payload : Bytes)
  | null
  | uuid (u : Uuid)
  | vector (v : VectorValue)
  | json (j : JsonValue F.Number)

namespace Value

variable {F : Foreign}

mutual

/-- What the graph reads of a value. -/
def abstract : Value F → Graph.Value
  | bool b => .bool b
  | int i => .int i.toInt
  | uint n => .uint n.toNat
  | int128 i => .int128 i.toInt
  | uint128 n => .uint128 n.toNat
  | float bits => .float bits
  | float32 bits => .float32 bits
  | decimal d => .decimal (F.decimalOf d)
  | string s => .string s.val
  | bytes b => .bytes b
  | list values => .list (abstractList values)
  | record fields => .record (abstractFields fields)
  | recordTyped type values => .recordTyped type.toNat (abstractSlots values)
  | path graph start segments =>
    .path graph.toNat start.toNat (segments.map fun s => (s.1.toNat, s.2.1, s.2.2.toNat))
  | nodeRef id => .nodeRef id.toNat
  | edgeRef id => .edgeRef id.toNat
  | graphRef id => .graphRef id.toNat
  | tableRef id => .tableRef id.toNat
  | zonedDateTime z => .zonedDateTime (F.zonedOf z)
  | localDateTime t => .localDateTime (F.instantOf t)
  | date d => .date (F.dayOf d)
  | zonedTime z => .zonedTime (F.zonedOf z)
  | localTime t => .localTime (F.nanosecondOf t)
  | duration s => .duration (F.span.read s)
  | extended type payload => .extended type.toNat payload
  | null => .null
  | uuid u => .uuid (leNat u.val.reverse)
  | vector v => .vector v.components
  | json j => .json (F.json.print j.value)

def abstractList : List (Value F) → List Graph.Value
  | [] => []
  | v :: vs => abstract v :: abstractList vs

def abstractFields : List (DbString × Value F) → List (Graph.DbString × Graph.Value)
  | [] => []
  | (n, v) :: fs => (n.val, abstract v) :: abstractFields fs

def abstractSlots : List (Option (Value F)) → List (Option Graph.Value)
  | [] => []
  | some v :: vs => some (abstract v) :: abstractSlots vs
  | none :: vs => none :: abstractSlots vs

end

/-- A value without members of its own; those of a typed record are never stored. -/
def Leaf : Value F → Prop
  | list _ | record _ => False
  | _ => True

mutual

theorem nested_induction {P : Value F → Prop} (hlist : ∀ vs, (∀ v ∈ vs, P v) → P (.list vs))
    (hrecord : ∀ fs, (∀ f ∈ fs, P f.2) → P (.record fs)) (hleaf : ∀ v, v.Leaf → P v) : ∀ v, P v
  | list vs => hlist vs (nested_list hlist hrecord hleaf vs)
  | record fs => hrecord fs (nested_fields hlist hrecord hleaf fs)
  | bool _ | int _ | uint _ | int128 _ | uint128 _ | float _ | float32 _ | decimal _ | string _
  | bytes _ | recordTyped _ _ | path _ _ _ | nodeRef _ | edgeRef _ | graphRef _ | tableRef _
  | zonedDateTime _ | localDateTime _ | date _ | zonedTime _ | localTime _ | duration _
  | extended _ _ | null | uuid _ | vector _ | json _ => hleaf _ trivial

theorem nested_list {P : Value F → Prop} (hlist : ∀ vs, (∀ v ∈ vs, P v) → P (.list vs))
    (hrecord : ∀ fs, (∀ f ∈ fs, P f.2) → P (.record fs)) (hleaf : ∀ v, v.Leaf → P v) :
    ∀ vs : List (Value F), ∀ v ∈ vs, P v
  | v :: vs, x, h => by
    rcases List.mem_cons.1 h with hx | h
    · rw [hx]
      exact nested_induction hlist hrecord hleaf v
    · exact nested_list hlist hrecord hleaf vs x h

theorem nested_fields {P : Value F → Prop} (hlist : ∀ vs, (∀ v ∈ vs, P v) → P (.list vs))
    (hrecord : ∀ fs, (∀ f ∈ fs, P f.2) → P (.record fs)) (hleaf : ∀ v, v.Leaf → P v) :
    ∀ fs : List (DbString × Value F), ∀ f ∈ fs, P f.2
  | (_, v) :: fs, x, h => by
    rcases List.mem_cons.1 h with hx | h
    · rw [hx]
      exact nested_induction hlist hrecord hleaf v
    · exact nested_fields hlist hrecord hleaf fs x h

end

mutual

/-- No object of a JSON document inside the value starts with the number token. -/
def Readable : Value F → Prop
  | json j => j.value.Readable
  | list vs => ReadableList vs
  | record fs => ReadableFields fs
  | _ => True

def ReadableList : List (Value F) → Prop
  | [] => True
  | v :: vs => Readable v ∧ ReadableList vs

def ReadableFields : List (DbString × Value F) → Prop
  | [] => True
  | (_, v) :: fs => Readable v ∧ ReadableFields fs

end

theorem readableList_iff {vs : List (Value F)} : ReadableList vs ↔ ∀ v ∈ vs, v.Readable := by
  induction vs with
  | nil => simp [ReadableList]
  | cons v vs ih => simp [ReadableList, ih]

theorem readableFields_iff {fs : List (DbString × Value F)} :
    ReadableFields fs ↔ ∀ f ∈ fs, f.2.Readable := by
  induction fs with
  | nil => simp [ReadableFields]
  | cons f fs ih => simp [ReadableFields, ih]

def validate (v : Value F) : Except Graph.CoreError Unit := Graph.StoredValue.validate v.abstract

/-- Rust's equality of values. -/
def eq (a b : Value F) : Bool := Graph.Value.eq a.abstract b.abstract

end Value

/-- A value that passed `StoredValue::validate`. -/
abbrev StoredValue (F : Foreign) := { v : Value F // v.validate = .ok () }

end Selene.Core
