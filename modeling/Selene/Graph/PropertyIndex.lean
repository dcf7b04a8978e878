import Selene.Graph.Types
import Selene.Base.Index

/-!
# Property and composite indexes

A typed index holds keys of one kind (`typed_index.rs`); a value of another variant is a kind
mismatch and a NaN has no key. The commit path never refuses such a value: it leaves the row out
of the index, and counts a kind mismatch in `drifted_rows` so that the index declines to answer
while a row is missing.

A map from keys to row sets in which an emptied set is pruned is modelled as a function to row
sets, empty where there is no entry. The maintenance functions keep the loops of the source;
`PropertyIndex.applyNodeCreate_apply` and its companions say what a loop leaves at one index.
-/

namespace Selene.Graph

inductive TypedIndexKind where
  | bool | i64 | u64 | i128 | u128 | decimal | f32 | f64 | string | date | localDateTime
  | zonedDateTime | localTime | zonedTime | duration | uuid
deriving DecidableEq

/-- `TypedKey`, and `CompositeKeyComponent` with the same payloads. Zoned values are keyed by
their instant and decimals by their number, as their libraries compare them. -/
inductive TypedKey where
  | bool (b : Bool)
  | i64 (i : ℤ)
  | u64 (n : ℕ)
  | i128 (i : ℤ)
  | u128 (n : ℕ)
  | decimal (q : ℚ)
  | f32 (bits : UInt32)
  | f64 (bits : UInt64)
  | string (s : DbString)
  | date (day : ℤ)
  | localDateTime (t : ℤ)
  | zonedDateTime (instant : ℤ)
  | localTime (t : ℕ)
  | zonedTime (instant : ℤ)
  | duration (key : ℤ × ℤ)
  | uuid (n : ℕ)
deriving DecidableEq

namespace TypedKey

/-- The variant of `TypedIndex` that holds the key. -/
def kind : TypedKey → TypedIndexKind
  | bool _ => .bool
  | i64 _ => .i64
  | u64 _ => .u64
  | i128 _ => .i128
  | u128 _ => .u128
  | decimal _ => .decimal
  | f32 _ => .f32
  | f64 _ => .f64
  | string _ => .string
  | date _ => .date
  | localDateTime _ => .localDateTime
  | zonedDateTime _ => .zonedDateTime
  | localTime _ => .localTime
  | zonedTime _ => .zonedTime
  | duration _ => .duration
  | uuid _ => .uuid

def observed : TypedKey → String
  | bool _ => "Bool"
  | i64 _ => "Int"
  | u64 _ => "Uint"
  | i128 _ => "Int128"
  | u128 _ => "Uint128"
  | decimal _ => "Decimal"
  | f32 _ => "Float32"
  | f64 _ => "Float"
  | string _ => "String"
  | date _ => "Date"
  | localDateTime _ => "LocalDateTime"
  | zonedDateTime _ => "ZonedDateTime"
  | localTime _ => "LocalTime"
  | zonedTime _ => "ZonedTime"
  | duration _ => "Duration"
  | uuid _ => "Uuid"

end TypedKey

inductive TypedIndexValueError where
  | kindMismatch (expected : TypedIndexKind) (observed : String)
  | nan (expected : TypedIndexKind)

/-- `NotNanF64::new`: no NaN, and one zero. -/
def notNanF64 (bits : UInt64) : Option UInt64 :=
  if Float64.isNaN bits then none else if Float64.isZero bits then some 0 else some bits

def notNanF32 (bits : UInt32) : Option UInt32 :=
  if Float32.isNaN bits then none else if Float32.isZero bits then some 0 else some bits

/-- `typed_key`: the key of a value, whatever the kind of the index. -/
def typedKey (value : Value) (expected : TypedIndexKind) : Except TypedIndexValueError TypedKey :=
  match value with
  | .bool b => .ok (.bool b)
  | .int i => .ok (.i64 i)
  | .uint n => .ok (.u64 n)
  | .int128 i => .ok (.i128 i)
  | .uint128 n => .ok (.u128 n)
  | .decimal d => .ok (.decimal d.toRat)
  | .float32 bits =>
    match notNanF32 bits with
    | some bits => .ok (.f32 bits)
    | none => .error (.nan .f32)
  | .float bits =>
    match notNanF64 bits with
    | some bits => .ok (.f64 bits)
    | none => .error (.nan .f64)
  | .string s => .ok (.string s)
  | .date day => .ok (.date day)
  | .localDateTime t => .ok (.localDateTime t)
  | .zonedDateTime z => .ok (.zonedDateTime z.instant)
  | .localTime t => .ok (.localTime t)
  | .zonedTime z => .ok (.zonedTime z.instant)
  | .duration s => .ok (.duration s.orderKey)
  | .uuid n => .ok (.uuid n)
  | v => .error (.kindMismatch expected v.variantName)

/-! ## One typed index -/

structure TypedIndex where
  kind : TypedIndexKind
  rows : TypedKey → Finset Row

namespace TypedIndex

/-- The key of `value` in an index of this kind. -/
def key (kind : TypedIndexKind) (value : Value) : Except TypedIndexValueError TypedKey := do
  let k ← typedKey value kind
  if k.kind = kind then .ok k else .error (.kindMismatch kind k.observed)

def insert (index : TypedIndex) (value : Value) (row : Row) : Except TypedIndexValueError TypedIndex := do
  let k ← key index.kind value
  .ok { index with rows := Function.update index.rows k (Insert.insert row (index.rows k)) }

def remove (index : TypedIndex) (value : Value) (row : Row) : Except TypedIndexValueError TypedIndex := do
  let k ← key index.kind value
  .ok { index with rows := Function.update index.rows k ((index.rows k).erase row) }

/-- `raw_value_same`: floats by their bits, other values by `Value`'s equality. -/
def rawValueSame : Value → Value → Bool
  | .float a, .float b => a == b
  | .float32 a, .float32 b => a == b
  | a, b => a.eq b

/-- `values_share_key`: equal keys of the index's kind, or else the same raw value. -/
def valuesShareKey (kind : TypedIndexKind) (lhs rhs : Value) : Bool :=
  match key kind lhs, key kind rhs with
  | .ok k, .ok l => k == l
  | _, _ => rawValueSame lhs rhs

end TypedIndex

def countsAsDrift : TypedIndexValueError → Bool
  | .kindMismatch _ _ => true
  | .nan _ => false

structure PropertyIndexEntry where
  index : TypedIndex
  name : Option DbString
  driftedRows : ℕ

namespace PropertyIndexEntry

def insertCommit (entry : PropertyIndexEntry) (value : Value) (row : Row) : PropertyIndexEntry :=
  match entry.index.insert value row with
  | .ok index => { entry with index }
  | .error e => if countsAsDrift e then { entry with driftedRows := entry.driftedRows + 1 } else entry

def removeCommit (entry : PropertyIndexEntry) (value : Value) (row : Row) : PropertyIndexEntry :=
  match entry.index.remove value row with
  | .ok index => { entry with index }
  | .error e => if countsAsDrift e then { entry with driftedRows := entry.driftedRows - 1 } else entry

/-- One turn of `apply_node_update`: nothing when both values share a key, or else out and in. -/
def replaceCommit (entry : PropertyIndexEntry) (old new : Option Value) (row : Row) :
    PropertyIndexEntry :=
  match old, new with
  | none, none => entry
  | some v, some w =>
    if TypedIndex.valuesShareKey entry.index.kind v w then entry
    else (entry.removeCommit v row).insertCommit w row
  | some v, none => entry.removeCommit v row
  | none, some w => entry.insertCommit w row

end PropertyIndexEntry

/-- What `typed_key` makes of the value of a row. -/
def TypedIndex.keying (kind : TypedIndexKind) : Option Value → Keying TypedKey
  | none => .absent
  | some v =>
    match TypedIndex.key kind v with
    | .ok k => .keyed k
    | .error e => if countsAsDrift e then .drifted else .skipped

/-! ## The maps of property indexes -/

abbrev IndexKey := DbString × DbString

abbrev PropertyIndexMap := IndexKey → Option PropertyIndexEntry

/-- The non-null properties under every label, in the order of the loops over them. -/
def footprint (labels : List DbString) (props : PropertyMap) : List (IndexKey × Value) :=
  labels.flatMap fun label =>
    (props.toList.filter fun entry => !entry.2.isNull).map fun entry => ((label, entry.1), entry.2)

def indexableValue (labels : LabelSet) (props : PropertyMap) (key : IndexKey) : Option Value :=
  if key.1 ∈ labels then (props[key.2]?).filter fun v => !v.isNull else none

/-- `candidate_keys`: labels and properties of either side, where an index is registered. -/
def candidateKeys (registered : IndexKey → Bool) (oldLabels : LabelSet) (oldProps : PropertyMap)
    (newLabels : LabelSet) (newProps : PropertyMap) : List IndexKey :=
  ((oldLabels.insertMany newLabels.toList).toList.flatMap fun label =>
    (((∅ : LabelSet).insertMany (oldProps.keys ++ newProps.keys)).toList.map fun property =>
      (label, property))).filter registered

namespace PropertyIndex

def insertCommit (indexes : PropertyIndexMap) (key : IndexKey) (value : Value) (row : Row) :
    PropertyIndexMap :=
  Function.update indexes key ((indexes key).map fun entry => entry.insertCommit value row)

def removeCommit (indexes : PropertyIndexMap) (key : IndexKey) (value : Value) (row : Row) :
    PropertyIndexMap :=
  Function.update indexes key ((indexes key).map fun entry => entry.removeCommit value row)

def applyNodeCreate (labels : LabelSet) (props : PropertyMap) (row : Row)
    (indexes : PropertyIndexMap) : PropertyIndexMap :=
  (footprint labels.toList props).foldl (fun ix e => insertCommit ix e.1 e.2 row) indexes

def applyNodeDelete (labels : LabelSet) (props : PropertyMap) (row : Row)
    (indexes : PropertyIndexMap) : PropertyIndexMap :=
  (footprint labels.toList props).foldl (fun ix e => removeCommit ix e.1 e.2 row) indexes

def applyEdgeCreate (label : DbString) (props : PropertyMap) (row : Row)
    (indexes : PropertyIndexMap) : PropertyIndexMap :=
  (footprint [label] props).foldl (fun ix e => insertCommit ix e.1 e.2 row) indexes

def applyEdgeDelete (label : DbString) (props : PropertyMap) (row : Row)
    (indexes : PropertyIndexMap) : PropertyIndexMap :=
  (footprint [label] props).foldl (fun ix e => removeCommit ix e.1 e.2 row) indexes

/-- One turn of the update loops. -/
def replaceCommit (indexes : PropertyIndexMap) (key : IndexKey) (old new : Option Value) (row : Row) :
    PropertyIndexMap :=
  Function.update indexes key ((indexes key).map fun entry => entry.replaceCommit old new row)

def applyNodeUpdate (oldLabels : LabelSet) (oldProps : PropertyMap) (newLabels : LabelSet)
    (newProps : PropertyMap) (row : Row) (indexes : PropertyIndexMap) : PropertyIndexMap :=
  (candidateKeys (fun key => (indexes key).isSome) oldLabels oldProps newLabels newProps).foldl
    (fun ix key => replaceCommit ix key (indexableValue oldLabels oldProps key)
      (indexableValue newLabels newProps key) row) indexes

/-- An edge has one label, the same on both sides. -/
def applyEdgeUpdate (label : DbString) (oldProps newProps : PropertyMap) (row : Row)
    (indexes : PropertyIndexMap) : PropertyIndexMap :=
  applyNodeUpdate {label} oldProps {label} newProps row indexes

end PropertyIndex

/-! ## Composite indexes -/

inductive CompositeIndexValueError where
  | arityMismatch (expected observed : ℕ)
  | component (index : ℕ) (expected : TypedIndexKind) (observed : String)
  | componentNaN (index : ℕ) (expected : TypedIndexKind)

/-- `component_from_value`: unlike `typed_key`, a float of the other width is a kind mismatch even
when it is a NaN. -/
def componentFromValue (kind : TypedIndexKind) (value : Value) :
    Except TypedIndexValueError TypedKey :=
  match kind, value with
  | .bool, .bool b => .ok (.bool b)
  | .i64, .int i => .ok (.i64 i)
  | .u64, .uint n => .ok (.u64 n)
  | .i128, .int128 i => .ok (.i128 i)
  | .u128, .uint128 n => .ok (.u128 n)
  | .decimal, .decimal d => .ok (.decimal d.toRat)
  | .f32, .float32 bits =>
    match notNanF32 bits with
    | some bits => .ok (.f32 bits)
    | none => .error (.nan .f32)
  | .f64, .float bits =>
    match notNanF64 bits with
    | some bits => .ok (.f64 bits)
    | none => .error (.nan .f64)
  | .string, .string s => .ok (.string s)
  | .date, .date day => .ok (.date day)
  | .localDateTime, .localDateTime t => .ok (.localDateTime t)
  | .zonedDateTime, .zonedDateTime z => .ok (.zonedDateTime z.instant)
  | .localTime, .localTime t => .ok (.localTime t)
  | .zonedTime, .zonedTime z => .ok (.zonedTime z.instant)
  | .duration, .duration s => .ok (.duration s.orderKey)
  | .uuid, .uuid n => .ok (.uuid n)
  | kind, v => .error (.kindMismatch kind v.variantName)

/-- The components from position `index` on; the first that has no key is reported. -/
def componentsFrom (index : ℕ) :
    List (TypedIndexKind × Value) → Except CompositeIndexValueError (List TypedKey)
  | [] => .ok []
  | (kind, value) :: rest =>
    match componentFromValue kind value with
    | .error (.nan expected) => .error (.componentNaN index expected)
    | .error (.kindMismatch expected observed) => .error (.component index expected observed)
    | .ok k => do .ok (k :: (← componentsFrom (index + 1) rest))

def compositeKeyFromValues (kinds : List TypedIndexKind) (values : List Value) :
    Except CompositeIndexValueError (List TypedKey) :=
  if kinds.length ≠ values.length then .error (.arityMismatch kinds.length values.length)
  else componentsFrom 0 (kinds.zip values)

/-- `counts_as_drift` of the composite path. -/
def compositeCountsAsDrift : CompositeIndexValueError → Bool
  | .component _ _ _ | .arityMismatch _ _ => true
  | .componentNaN _ _ => false

structure CompositePropertyIndexEntry where
  kinds : List TypedIndexKind
  rows : List TypedKey → Finset Row
  declaredProperties : List DbString
  name : Option DbString
  driftedRows : ℕ

namespace CompositePropertyIndexEntry

variable (entry : CompositePropertyIndexEntry)

def insertCommit (values : List Value) (row : Row) : CompositePropertyIndexEntry :=
  match compositeKeyFromValues entry.kinds values with
  | .ok k => { entry with rows := Function.update entry.rows k (Insert.insert row (entry.rows k)) }
  | .error e =>
    if compositeCountsAsDrift e then { entry with driftedRows := entry.driftedRows + 1 } else entry

def removeCommit (values : List Value) (row : Row) : CompositePropertyIndexEntry :=
  match compositeKeyFromValues entry.kinds values with
  | .ok k => { entry with rows := Function.update entry.rows k ((entry.rows k).erase row) }
  | .error e =>
    if compositeCountsAsDrift e then { entry with driftedRows := entry.driftedRows - 1 } else entry

/-- `values_share_key` of two tuples: equal keys, or two rejections that count alike. -/
def valuesShareKey (old new : List Value) : Bool :=
  match compositeKeyFromValues entry.kinds old, compositeKeyFromValues entry.kinds new with
  | .ok k, .ok l => k == l
  | .error e, .error e' => compositeCountsAsDrift e == compositeCountsAsDrift e'
  | _, _ => false

/-- One turn of `apply_node_update`. -/
def replaceCommit (old new : Option (List Value)) (row : Row) : CompositePropertyIndexEntry :=
  match old, new with
  | none, none => entry
  | some v, some w =>
    if entry.valuesShareKey v w then entry else (entry.removeCommit v row).insertCommit w row
  | some v, none => entry.removeCommit v row
  | none, some w => entry.insertCommit w row

/-- What `composite_key_from_values` makes of the values of a row. -/
def keying (kinds : List TypedIndexKind) : Option (List Value) → Keying (List TypedKey)
  | none => .absent
  | some values =>
    match compositeKeyFromValues kinds values with
    | .ok k => .keyed k
    | .error e => if compositeCountsAsDrift e then .drifted else .skipped

end CompositePropertyIndexEntry

/-- `indexable_values`: all of the properties, none of them null. -/
def indexableValues (labels : LabelSet) (props : PropertyMap) (label : DbString)
    (properties : List DbString) : Option (List Value) :=
  if label ∈ labels then properties.mapM fun p => (props[p]?).filter fun v => !v.isNull else none

abbrev CompositeIndexMap := DbString × List DbString → Option CompositePropertyIndexEntry

namespace CompositeIndex

/-- Every registered index is visited once, in no particular order. -/
def applyNodeUpdate (oldLabels : LabelSet) (oldProps : PropertyMap) (newLabels : LabelSet)
    (newProps : PropertyMap) (row : Row) (indexes : CompositeIndexMap) : CompositeIndexMap :=
  fun key => (indexes key).map fun entry =>
    entry.replaceCommit (indexableValues oldLabels oldProps key.1 entry.declaredProperties)
      (indexableValues newLabels newProps key.1 entry.declaredProperties) row

def applyNodeCreate (labels : LabelSet) (props : PropertyMap) (row : Row)
    (indexes : CompositeIndexMap) : CompositeIndexMap :=
  fun key => (indexes key).map fun entry =>
    match indexableValues labels props key.1 entry.declaredProperties with
    | some values => entry.insertCommit values row
    | none => entry

def applyNodeDelete (labels : LabelSet) (props : PropertyMap) (row : Row)
    (indexes : CompositeIndexMap) : CompositeIndexMap :=
  fun key => (indexes key).map fun entry =>
    match indexableValues labels props key.1 entry.declaredProperties with
    | some values => entry.removeCommit values row
    | none => entry

end CompositeIndex

end Selene.Graph
