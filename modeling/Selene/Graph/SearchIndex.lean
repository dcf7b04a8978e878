import Selene.Graph.PropertyIndex
import Selene.Base.Attempt

/-!
# Vector, text and expression indexes

A vector index admits vectors of its dimension that its metric can score, and refuses anything
else: its maintenance is the one step of a data operation's index work that can fail. Beside its row
set an index keeps the vectors of the rows in a search structure (`Accelerator`). The links of an
HNSW graph and the lists of an IVF index, which follow from the stored vectors, are left out, and the
code of a vector under a TurboQuant rotation and calibration is a parameter.

A text index holds the token list of every string with at least one token. The analyser of its
contract is part of the index. An expression index files what its expression makes of a node's
properties and counts the nodes it cannot file.
-/

namespace Selene.Graph

open Attempt

/-! ## Vector indexes -/

inductive VectorMetric where
  | squaredEuclidean
  | cosine
  | negativeInnerProduct
deriving DecidableEq

inductive VectorIndexKind where
  | flat
  | hnswSquaredEuclidean
  | hnswCosine
  | hnswNegativeInnerProduct
  | ivfSquaredEuclidean
  | ivfCosine
  | ivfNegativeInnerProduct
  | turboQuantCosine

def VectorIndexKind.annMetric : VectorIndexKind → Option VectorMetric
  | .flat => none
  | .hnswSquaredEuclidean | .ivfSquaredEuclidean => some .squaredEuclidean
  | .hnswCosine | .ivfCosine => some .cosine
  | .hnswNegativeInnerProduct | .ivfNegativeInnerProduct => some .negativeInnerProduct
  | .turboQuantCosine => some .cosine

inductive VectorIndexValueError where
  | kindMismatch (observed : String)
  | dimensionMismatch (expected observed : ℕ)
  | metricRejected (observed : String)
deriving DecidableEq

def VectorIndexValueError.observed : VectorIndexValueError → String
  | .kindMismatch observed => observed
  | .dimensionMismatch _ observed => "VECTOR<" ++ toString observed ++ ">"
  | .metricRejected observed => observed

structure HnswNode where
  row : Row
  vector : List UInt32
  deleted : Bool

structure IvfEntry where
  row : Row
  vector : List UInt32
  deleted : Bool
  pendingRetrain : Bool

/-- `hnsw`, `ivf` or `turbo_quant` of an index; a flat index has none of them. `row_to_entry` finds the
node or entry of a row that is not deleted. -/
inductive Accelerator where
  | none
  | hnsw (nodes : List HnswNode)
  | ivf (trained : Bool) (entries : List IvfEntry)
  | turboQuant (encode : List UInt32 → List UInt8) (slots : List (Row × List UInt8))

/-- The entry that `p` finds is replaced, or a new one is pushed. -/
def upsert {α : Type} (p : α → Bool) (f : α → α) (new : α) (l : List α) : List α :=
  if l.any p then l.map fun a => if p a then f a else a else l ++ [new]

def swapRemove {α : Type} (i : ℕ) (l : List α) : List α :=
  match l.getLast? with
  | none => l
  | some last => (l.set i last).dropLast

namespace Accelerator

/-- The node of a row is marked as deleted. -/
def retire (row : Row) (nodes : List HnswNode) : List HnswNode :=
  nodes.map fun node => if node.row = row then { node with deleted := true } else node

def insert (row : Row) (vector : List UInt32) : Accelerator → Accelerator
  | none => none
  | hnsw nodes => hnsw (retire row nodes ++ [⟨row, vector, false⟩])
  | ivf trained entries =>
    ivf trained (upsert (fun e => e.row = row ∧ e.deleted = false)
      (fun e => { e with vector, pendingRetrain := e.pendingRetrain || trained })
      ⟨row, vector, false, trained⟩ entries)
  | turboQuant encode slots =>
    turboQuant encode (upsert (·.1 = row) (fun _ => (row, encode vector)) (row, encode vector) slots)

def remove (row : Row) : Accelerator → Accelerator
  | none => none
  | hnsw nodes => hnsw (retire row nodes)
  | ivf trained entries =>
    ivf trained (entries.map fun e => if e.row = row ∧ e.deleted = false then
      { e with deleted := true, pendingRetrain := false } else e)
  | turboQuant encode slots =>
    turboQuant encode ((slots.findIdx? (·.1 = row)).elim slots (swapRemove · slots))

end Accelerator

structure VectorIndexEntry where
  kind : VectorIndexKind
  dimension : ℕ
  rows : Finset Row
  name : Option DbString
  accelerator : Accelerator

/-- The components of a vector; every value that is inserted has been admitted as one. -/
def Value.components : Value → List UInt32
  | .vector components => components
  | _ => []

namespace VectorIndexEntry

variable (entry : VectorIndexEntry)

/-- `admit`. The distance of a vector to itself is an error for the cosine metric only, when the
squared norm is zero: the squares of `f32` components are exact in `f64`, so when every component
is a zero. -/
def admitValue (value : Value) : Except VectorIndexValueError Unit :=
  match value with
  | .vector components =>
    if components.length ≠ entry.dimension then
      .error (.dimensionMismatch entry.dimension components.length)
    else if entry.kind.annMetric = some .cosine ∧ components.all Float32.isZero then
      .error (.metricRejected "cosine distance is undefined for zero-norm vector on lhs")
    else .ok ()
  | v => .error (.kindMismatch v.variantName)

/-- Admission as the commit path reports it (`index_rejection`). -/
def admitCommit (key : IndexKey) (value : Value) : Except GraphError Unit :=
  (entry.admitValue value).mapError fun e =>
    .vectorIndexValueRejected key.1 key.2 entry.dimension e.observed

def insertValue (row : Row) (value : Value) : VectorIndexEntry :=
  { entry with
    rows := insert row entry.rows
    accelerator := entry.accelerator.insert row value.components }

def removeRow (row : Row) : VectorIndexEntry :=
  { entry with
    rows := entry.rows.erase row
    accelerator := entry.accelerator.remove row }

/-- `insert_commit`, `remove_commit` and `replace_commit` of one index: every value concerned is
admitted before the index changes. -/
def commit (key : IndexKey) (old new : Option Value) (row : Row) :
    Except GraphError VectorIndexEntry := do
  match old, new with
  | some v, some w =>
    entry.admitCommit key v
    entry.admitCommit key w
    .ok (entry.insertValue row w)
  | some v, none =>
    entry.admitCommit key v
    .ok (entry.removeRow row)
  | none, some w =>
    entry.admitCommit key w
    .ok (entry.insertValue row w)
  | none, none => .ok entry

end VectorIndexEntry

abbrev VectorIndexMap := IndexKey → Option VectorIndexEntry

namespace VectorIndex

/-- The visit of one key. -/
def commit (key : IndexKey) (old new : Option Value) (row : Row) :
    Attempt VectorIndexMap GraphError Unit := fun indexes =>
  match indexes key with
  | none => (.ok (), indexes)
  | some entry =>
    match entry.commit key old new row with
    | .ok entry => (.ok (), Function.update indexes key (some entry))
    | .error e => (.error e, indexes)

def applyNodeCreate (labels : LabelSet) (props : PropertyMap) (row : Row) :
    Attempt VectorIndexMap GraphError Unit :=
  each (fun e => commit e.1 none (some e.2) row) (footprint labels.toList props)

def applyNodeDelete (labels : LabelSet) (props : PropertyMap) (row : Row) :
    Attempt VectorIndexMap GraphError Unit :=
  each (fun e => commit e.1 (some e.2) none row) (footprint labels.toList props)

def applyNodeUpdate (oldLabels : LabelSet) (oldProps : PropertyMap) (newLabels : LabelSet)
    (newProps : PropertyMap) (row : Row) : Attempt VectorIndexMap GraphError Unit := fun indexes =>
  each (fun key => commit key (indexableValue oldLabels oldProps key)
      (indexableValue newLabels newProps key) row)
    (candidateKeys (fun key => (indexes key).isSome) oldLabels oldProps newLabels newProps) indexes

end VectorIndex

/-! ## Text indexes -/

structure TextIndex where
  tokenize : String → List String
  rows : Finset Row
  documentTerms : NodeId → Option (List String)

namespace TextIndex

def removeDocument (index : TextIndex) (row : Row) (node : NodeId) : TextIndex :=
  { index with
    rows := index.rows.erase row
    documentTerms := Function.update index.documentTerms node none }

/-- A text without a token is no document. -/
def insertDocument (index : TextIndex) (row : Row) (node : NodeId) (text : String) : TextIndex :=
  if index.tokenize text = [] then index.removeDocument row node
  else { index with
    rows := insert row index.rows
    documentTerms := Function.update index.documentTerms node (some (index.tokenize text)) }

/-- One turn of `apply_node_update`. -/
def replaceDocument (index : TextIndex) (old new : Option String) (row : Row) (node : NodeId) :
    TextIndex :=
  match old, new with
  | some text, some text' => if text = text' then index else index.insertDocument row node text'
  | some _, none => index.removeDocument row node
  | none, some text' => index.insertDocument row node text'
  | none, none => index

end TextIndex

abbrev TextIndexMap := IndexKey → Option TextIndex

def indexableText (labels : LabelSet) (props : PropertyMap) (key : IndexKey) : Option String :=
  if key.1 ∈ labels then
    match props[key.2]? with
    | some (.string text) => some text
    | _ => none
  else none

/-- The candidate labels and properties of either side; unregistered keys are passed over. -/
def TextIndex.applyNodeUpdate (oldLabels : LabelSet) (oldProps : PropertyMap) (newLabels : LabelSet)
    (newProps : PropertyMap) (row : Row) (node : NodeId) (indexes : TextIndexMap) : TextIndexMap :=
  (candidateKeys (fun key => (indexes key).isSome) oldLabels oldProps newLabels newProps).foldl
    (fun ix key => Function.update ix key ((ix key).map fun index =>
      index.replaceDocument (indexableText oldLabels oldProps key)
        (indexableText newLabels newProps key) row node)) indexes

def TextIndex.applyNodeCreate (labels : LabelSet) (props : PropertyMap) (row : Row) (node : NodeId)
    (indexes : TextIndexMap) : TextIndexMap :=
  (footprint labels.toList props).foldl (fun ix e => Function.update ix e.1 ((ix e.1).map fun index =>
    match e.2 with
    | .string text => index.insertDocument row node text
    | _ => index)) indexes

def TextIndex.applyNodeDelete (labels : LabelSet) (props : PropertyMap) (row : Row) (node : NodeId)
    (indexes : TextIndexMap) : TextIndexMap :=
  (footprint labels.toList props).foldl (fun ix e => Function.update ix e.1 ((ix e.1).map fun index =>
    match e.2 with
    | .string _ => index.removeDocument row node
    | _ => index)) indexes

/-! ## Expression indexes -/

/-- The program of the index stands as its meaning: a value, or `none` for an evaluation error. -/
structure ExpressionIndex where
  label : DbString
  evaluate : PropertyMap → Option Value
  index : TypedIndex
  rejected : ℕ

namespace ExpressionIndex

def change (entry : ExpressionIndex) (props : PropertyMap) (row : Row) (insert : Bool) :
    ExpressionIndex :=
  match entry.evaluate props with
  | some .null => entry
  | some value =>
    match if insert then entry.index.insert value row else entry.index.remove value row with
    | .ok index => { entry with index }
    | .error _ => reject
  | none => reject
where
  reject : ExpressionIndex :=
    { entry with rejected := if insert then entry.rejected + 1 else entry.rejected - 1 }

/-- The visit of one index in `update`: the old side out, the new side in. -/
def replace (entry : ExpressionIndex) (old new : Option (LabelSet × PropertyMap)) (row : Row) :
    ExpressionIndex :=
  let entry := match old with
    | some (labels, props) => if entry.label ∈ labels then entry.change props row false else entry
    | none => entry
  match new with
  | some (labels, props) => if entry.label ∈ labels then entry.change props row true else entry
  | none => entry

end ExpressionIndex

abbrev ExpressionIndexes := ℕ → Option ExpressionIndex

def ExpressionIndex.update (old new : Option (LabelSet × PropertyMap)) (row : Row)
    (indexes : ExpressionIndexes) : ExpressionIndexes :=
  fun id => (indexes id).map fun entry => entry.replace old new row

end Selene.Graph
