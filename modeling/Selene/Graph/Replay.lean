import Selene.Graph.Mutator

/-!
# Replay of a change list

`graph_apply/changes.rs`: the second interpreter of changes, which writes the columns and the id
maps of an isolated graph and leaves every derived structure to a rebuild. It shares no code with
the mutator.
-/

namespace Selene.Graph

def Change.validateStoredValues : Change → Except CoreError Unit
  | .nodeCreated _ _ properties | .edgeCreated _ _ _ _ _ properties =>
    PropertyMap.validateStoredValues properties
  | .nodeUpdated _ _ diff | .edgeUpdated _ diff => diff.validateStoredValues
  | _ => .ok ()

/-- The errors of `apply`. -/
inductive CodecError where
  | semantic
  | limit
  | admission (what : String)

namespace Replay

/-- `row_number`: a row below `u32::MAX`. -/
def rowNumber (index : ℕ) : Except CodecError Row :=
  if index < maxRows then .ok index else .error .limit

variable (g : SeleneGraph)

def node (id : NodeId) : Except CodecError (Row × NodeSlot) :=
  match g.nodeRows id with
  | none => .error .semantic
  | some row =>
    match g.nodeAt row with
    | none => .error .semantic
    | some s => .ok (row, s)

def edge (id : EdgeId) : Except CodecError (Row × EdgeSlot) :=
  match g.edgeRows id with
  | none => .error .semantic
  | some row =>
    match g.edgeAt row with
    | none => .error .semantic
    | some e => .ok (row, e)

/-! ## Columns -/

def clearedNode (s : NodeSlot) : NodeSlot := { s with labels := ∅, properties := ∅, alive := false }

def clearedEdge (e : EdgeSlot) : EdgeSlot :=
  { e with label := "", source := tombstone, target := tombstone, properties := ∅, alive := false }

def clearNode (row : Row) (g : SeleneGraph) : SeleneGraph :=
  { g with nodeStore := g.nodeStore.modify row clearedNode }

def clearEdge (row : Row) (g : SeleneGraph) : SeleneGraph :=
  { g with edgeStore := g.edgeStore.modify row clearedEdge }

def setNode (row : Row) (labels : LabelSet) (props : PropertyMap) (g : SeleneGraph) : SeleneGraph :=
  { g with nodeStore := g.nodeStore.modify row fun s => { s with labels, properties := props } }

def setEdge (row : Row) (props : PropertyMap) (g : SeleneGraph) : SeleneGraph :=
  { g with edgeStore := g.edgeStore.modify row fun e => { e with properties := props } }

def patch (props : PropertyMap) (diff : PropertyDiff) : Except CodecError PropertyMap := do
  let props ← diff.set.foldlM
    (fun props entry => (props.set entry.1 entry.2).mapError fun _ => .semantic) props
  .ok (diff.removed.foldl (fun props name => props.erase name) props)

def createNode (id : NodeId) (labels : LabelSet) (props : PropertyMap) :
    Except CodecError SeleneGraph := do
  if id = tombstone ∨ g.nodeRows id ≠ none then .error (.admission "reused node identity")
  else do
    let row ← rowNumber g.nodeStore.length
    .ok { g with
      nodeStore := g.nodeStore ++ [{ id, labels, properties := props, alive := true }]
      nodeRows := Function.update g.nodeRows id (some row) }

def createEdge (id : EdgeId) (d : EdgeDirectionality) (label : DbString)
    (source target : NodeId) (props : PropertyMap) : Except CodecError SeleneGraph := do
  let _ ← node g source
  let _ ← node g target
  if id = tombstone ∨ g.edgeRows id ≠ none ∨
      d.canonicalEndpoints source target ≠ (source, target) then
    .error (.admission "edge identity or endpoints")
  else do
    let row ← rowNumber g.edgeStore.length
    .ok { g with
      edgeStore := g.edgeStore ++
        [{ id, directionality := d, label, source, target, properties := props, alive := true }]
      edgeRows := Function.update g.edgeRows id (some row) }

/-! ## Sweeps -/

/-- The node sweep of a truncation, with the ids it clears. -/
def clearNodesOfType (label : DbString) (g : SeleneGraph) :
    Except CodecError (SeleneGraph × Finset NodeId) :=
  (List.range g.nodeStore.length).foldlM (fun state index => do
    let row ← rowNumber index
    match state.1.nodeAt row with
    | some s =>
      if label ∈ s.labels then .ok (clearNode row state.1, insert s.id state.2) else .ok state
    | none => .ok state) (g, ∅)

/-- The edge sweep of both truncations. -/
def clearEdgesWhere (doomed : EdgeSlot → Bool) (g : SeleneGraph) : Except CodecError SeleneGraph :=
  (List.range g.edgeStore.length).foldlM (fun g index => do
    let row ← rowNumber index
    match g.edgeAt row with
    | some e => if doomed e then .ok (clearEdge row g) else .ok g
    | none => .ok g) g

/-- The sweeps of a reset, over dead rows too. -/
def clearAll : Except CodecError SeleneGraph := do
  let g ← (List.range g.nodeStore.length).foldlM (fun g index => do
    .ok (clearNode (← rowNumber index) g)) g
  (List.range g.edgeStore.length).foldlM (fun g index => do
    .ok (clearEdge (← rowNumber index) g)) g

/-! ## Changes -/

/-- The match of `apply`. -/
def dispatch : Change → Except CodecError SeleneGraph
  | .nodeCreated id labels props => createNode g id labels props
  | .edgeCreated id d label source target props => createEdge g id d label source target props
  | .nodeUpdated id labelsDiff diff => do
    let (row, s) ← node g id
    let labels := labelsDiff.added.foldl (fun ls label => ls.insert label) s.labels
    let labels := labelsDiff.removed.foldl (fun ls label => ls.erase label) labels
    .ok (setNode row labels (← patch s.properties diff) g)
  | .edgeUpdated id diff => do
    let (row, e) ← edge g id
    .ok (setEdge row (← patch e.properties diff) g)
  | .nodeDeleted id => do
    let (row, _) ← node g id
    .ok (clearNode row g)
  | .edgeDeleted id => do
    let (row, _) ← edge g id
    .ok (clearEdge row g)
  | .nodePropertyRemoved id property => do
    let (row, s) ← node g id
    .ok (setNode row s.labels (s.properties.erase property) g)
  | .edgePropertyRemoved id property => do
    let (row, e) ← edge g id
    .ok (setEdge row (e.properties.erase property) g)
  | .nodeLabelRemoved id label => do
    let (row, s) ← node g id
    .ok (setNode row (s.labels.erase label) s.properties g)
  | .nodesOfTypeTruncated label => do
    let (g, truncated) ← clearNodesOfType label g
    clearEdgesWhere (fun e => decide (e.source ∈ truncated) || decide (e.target ∈ truncated)) g
  | .edgesOfTypeTruncated label => clearEdgesWhere (fun e => e.label == label) g
  | .graphReset => clearAll g

def apply (c : Change) : Except CodecError SeleneGraph := do
  (c.validateStoredValues).mapError fun _ => CodecError.semantic
  dispatch g c

/-- A change list, in order. -/
def applyAll (cs : List Change) : Except CodecError SeleneGraph := cs.foldlM apply g

end Replay

end Selene.Graph
