import Selene.Graph.TypeValidator
import Selene.Base.Transition

/-!
# The mutator: data operations of a write transaction

Every data operation of `mutator.rs` and its submodules, on the working graph, the change list and
the id allocator of one transaction. An operation that is refused keeps what it wrote before, as
the source does: nothing is undone before the transaction ends.
-/

namespace Selene.Graph

open Attempt Function

structure IdAllocator where
  nextNodeId : ℕ
  nextEdgeId : ℕ
deriving DecidableEq

structure WriteTxn where
  graph : SeleneGraph
  changes : List Change
  /-- Per-row tombstones of a bulk removal, with the position of its change. -/
  truncateExpansions : List (ℕ × List Change)
  allocator : IdAllocator

abbrev Mutator := Attempt WriteTxn GraphError

/-- `u32::MAX`, which no row has. -/
def maxRows : ℕ := 2 ^ 32 - 1

/-- The row an append gets. -/
def nextRow (kind : String) (len : ℕ) : Except GraphError Row :=
  if len < maxRows then .ok len else .error (.rowSpaceExhausted kind len maxRows)

namespace Mutator

open Attempt (check change)

/-! ## Steps -/

def onGraph (f : SeleneGraph → SeleneGraph) : Mutator Unit :=
  change fun t => { t with graph := f t.graph }

/-- The vector indexes are the part of the graph whose maintenance can be refused. -/
def onVectorIndex (m : Attempt VectorIndexMap GraphError Unit) : Mutator Unit :=
  within (fun t => t.graph.vectorIndex)
    (fun v t => { t with graph := { t.graph with vectorIndex := v } }) m

def record (c : Change) : Mutator Unit := change fun t => { t with changes := t.changes ++ [c] }

def allocateNode : Mutator NodeId := fun t =>
  if t.allocator.nextNodeId + 1 < 2 ^ 64 then
    (.ok t.allocator.nextNodeId,
      { t with allocator := { t.allocator with nextNodeId := t.allocator.nextNodeId + 1 } })
  else (.error (.counterExhausted "node identity"), t)

def allocateEdge : Mutator EdgeId := fun t =>
  if t.allocator.nextEdgeId + 1 < 2 ^ 64 then
    (.ok t.allocator.nextEdgeId,
      { t with allocator := { t.allocator with nextEdgeId := t.allocator.nextEdgeId + 1 } })
  else (.error (.counterExhausted "edge identity"), t)

/-! ## Defaults, store assignment, immutability -/

variable (g : SeleneGraph)

def nodeTypeIndexForNode (type : GraphTypeDef) (id : NodeId) : Option ℕ :=
  (g.nodeLabels id).bind type.findNodeTypeIndex

/-- The declarations a node with these labels falls under. -/
def nodeDeclarations (labels : LabelSet) : Option NodeTypeDef :=
  g.boundType.bind fun type => type.findNodeType labels

/-- The edge type of an edge between two nodes as they stand. -/
def edgeType (label : DbString) (source target : NodeId)
    (d : EdgeDirectionality) : Option EdgeTypeDef := do
  let type ← g.boundType
  let sourceType ← nodeTypeIndexForNode g type source
  let targetType ← nodeTypeIndexForNode g type target
  type.findMixedEdgeType label sourceType targetType d

def fillNodeDefaults (labels : LabelSet) (props : PropertyMap) : Except GraphError PropertyMap :=
  match nodeDeclarations g labels with
  | some t => fillPropertyDefaults t.properties props
  | none => .ok props

def coerceNodeProperties (labels : LabelSet) (props : PropertyMap) :
    Except GraphError PropertyMap :=
  match nodeDeclarations g labels with
  | some t => coercePropertyMap t.properties props
  | none => .ok props

def coerceNodePropertyDiff (labels : LabelSet) (diff : PropertyDiff) :
    Except GraphError PropertyDiff :=
  match nodeDeclarations g labels with
  | some t => coercePropertyDiff t.properties diff
  | none => .ok diff

def fillEdgeDefaults (label : DbString) (source target : NodeId)
    (d : EdgeDirectionality) (props : PropertyMap) : Except GraphError PropertyMap :=
  match edgeType g label source target d with
  | some t => fillPropertyDefaults t.properties props
  | none => .ok props

def coerceEdgeProperties (label : DbString) (source target : NodeId)
    (d : EdgeDirectionality) (props : PropertyMap) : Except GraphError PropertyMap :=
  match edgeType g label source target d with
  | some t => coercePropertyMap t.properties props
  | none => .ok props

def coerceEdgePropertyDiff (e : EdgeSlot) (diff : PropertyDiff) : Except GraphError PropertyDiff :=
  match edgeType g e.label e.source e.target e.directionality with
  | some t => coercePropertyDiff t.properties diff
  | none => .ok diff

/-- The checks of `create_node` up to the allocation: the properties it will store. -/
def prepareNode (labels : LabelSet) (props : PropertyMap) : Except GraphError PropertyMap := do
  (PropertyMap.validateStoredValues props).mapError .core
  let props ← fillNodeDefaults g labels props
  let props ← coerceNodeProperties g labels props
  (PropertyMap.validateStoredValues props).mapError .core
  .ok props

/-- The checks of `create_mixed_edge` up to the allocation. -/
def prepareEdge (label : DbString) (source target : NodeId)
    (d : EdgeDirectionality) (props : PropertyMap) : Except GraphError PropertyMap := do
  (PropertyMap.validateStoredValues props).mapError .core
  let _ ← g.requireLiveNode source
  let _ ← g.requireLiveNode target
  let props ← fillEdgeDefaults g label source target d props
  coerceEdgeProperties g label source target d props

/-- The endpoints of an undirected edge are checked before it is staged. -/
def checkUndirected (id : EdgeId) (label : DbString) (source target : NodeId)
    (d : EdgeDirectionality) : Except GraphError Unit :=
  match d, g.boundType with
  | .undirected, some type => do
    let _ ← (validateEdgeEndpoints id label source target d g type).mapError .typeViolation
    .ok ()
  | _, _ => .ok ()

def rejectImmutableNodeUpdate (id : NodeId) (labels : LabelSet)
    (diff : PropertyDiff) : Except GraphError Unit :=
  match nodeDeclarations g labels with
  | some t =>
    (rejectImmutablePropertyUpdate (.node id) t.name t.properties diff).mapError .typeViolation
  | none => .ok ()

def rejectImmutableEdgeUpdate (id : EdgeId) (e : EdgeSlot) (diff : PropertyDiff) :
    Except GraphError Unit :=
  match edgeType g e.label e.source e.target e.directionality with
  | some t =>
    (rejectImmutablePropertyUpdate (.edge id) t.name t.properties diff).mapError .typeViolation
  | none => .ok ()

/-! ## Index work -/

/-- The property and composite indexes, which come before the vector indexes. -/
def refileNode (row : Row) (oldLabels : LabelSet) (oldProps : PropertyMap) (labels : LabelSet)
    (props : PropertyMap) (g : SeleneGraph) : SeleneGraph :=
  { g with
    propertyIndex := PropertyIndex.applyNodeUpdate oldLabels oldProps labels props row g.propertyIndex
    compositePropertyIndex :=
      CompositeIndex.applyNodeUpdate oldLabels oldProps labels props row g.compositePropertyIndex }

/-- The text and expression indexes, which come after them. -/
def refileText (id : NodeId) (row : Row) (oldLabels : LabelSet) (oldProps : PropertyMap)
    (labels : LabelSet) (props : PropertyMap) (g : SeleneGraph) : SeleneGraph :=
  { g with
    textIndex := TextIndex.applyNodeUpdate oldLabels oldProps labels props row id g.textIndex
    expressionIndexes := ExpressionIndex.update (some (oldLabels, oldProps)) (some (labels, props))
      row g.expressionIndexes }

/-- The index work of an update. -/
def updateIndexes (id : NodeId) (row : Row) (oldLabels : LabelSet) (oldProps : PropertyMap)
    (labels : LabelSet) (props : PropertyMap) : Mutator Unit := do
  onGraph (refileNode row oldLabels oldProps labels props)
  onVectorIndex (VectorIndex.applyNodeUpdate oldLabels oldProps labels props row)
  onGraph (refileText id row oldLabels oldProps labels props)

def insertIndexRow (label : DbString) (row : Row) (index : DbString → Finset Row) :
    DbString → Finset Row :=
  update index label (insert row (index label))

def removeIndexRow (label : DbString) (row : Row) (index : DbString → Finset Row) :
    DbString → Finset Row :=
  update index label ((index label).erase row)

/-- A payload written over a row. -/
def setNode (row : Row) (labels : LabelSet) (props : PropertyMap) (g : SeleneGraph) : SeleneGraph :=
  { g with nodeStore := g.nodeStore.modify row fun s => { s with labels, properties := props } }

/-! ## Creation -/

/-- The row `create_node` appends, with the derived structures that cannot refuse it after the
vector indexes. -/
def appendNode (id : NodeId) (labels : LabelSet) (props : PropertyMap) (row : Row)
    (g : SeleneGraph) : SeleneGraph :=
  { g with
    textIndex := TextIndex.applyNodeCreate labels props row id g.textIndex
    expressionIndexes := ExpressionIndex.update none (some (labels, props)) row g.expressionIndexes
    nodeStore := g.nodeStore ++ [{ id, labels, properties := props, alive := true }]
    nodeRows := update g.nodeRows id (some row)
    idxLabel := labels.toList.foldl (fun ix label => insertIndexRow label row ix) g.idxLabel }

def createNode (labels : LabelSet) (props : PropertyMap) : Mutator NodeId := do
  let props ← check fun t => prepareNode t.graph labels props
  let id ← allocateNode
  let row ← check fun t => nextRow "node" t.graph.nodeStore.length
  onGraph fun g => { g with
    propertyIndex := PropertyIndex.applyNodeCreate labels props row g.propertyIndex
    compositePropertyIndex := CompositeIndex.applyNodeCreate labels props row g.compositePropertyIndex }
  onVectorIndex (VectorIndex.applyNodeCreate labels props row)
  onGraph (appendNode id labels props row)
  record (.nodeCreated id labels props)
  pure id

/-- The adjacency lists of a new edge: one entry at each end, a directed edge in the lists of its
direction, an undirected self-loop once. -/
def addAdjacency (id : EdgeId) (d : EdgeDirectionality) (label : DbString) (source target : NodeId)
    (g : SeleneGraph) : SeleneGraph :=
  let add := fun (n neighbor : NodeId) (m : NodeId → AdjacencyEntry) =>
    update m n (AdjacencyEntry.add ⟨label, neighbor, id⟩ (m n))
  match d with
  | .directed => { g with
      adjacencyOut := add source target g.adjacencyOut
      adjacencyIn := add target source g.adjacencyIn }
  | .undirected => { g with
      adjacencyUndirected :=
        let m := add source target g.adjacencyUndirected
        if source = target then m else add target source m }

def appendEdge (id : EdgeId) (d : EdgeDirectionality) (label : DbString) (source target : NodeId)
    (props : PropertyMap) (row : Row) (g : SeleneGraph) : SeleneGraph :=
  addAdjacency id d label source target { g with
    edgePropertyIndex := PropertyIndex.applyEdgeCreate label props row g.edgePropertyIndex
    edgeStore := g.edgeStore ++
      [{ id, directionality := d, label, source, target, properties := props, alive := true }]
    edgeRows := update g.edgeRows id (some row)
    idxEdgeLabel := insertIndexRow label row g.idxEdgeLabel }

def createMixedEdge (label : DbString) (first second : NodeId) (d : EdgeDirectionality)
    (props : PropertyMap) : Mutator EdgeId := do
  let (source, target) := d.canonicalEndpoints first second
  let props ← check fun t => prepareEdge t.graph label source target d props
  let id ← allocateEdge
  check fun _ => (PropertyMap.validateStoredValues props).mapError .core
  check fun t => checkUndirected t.graph id label source target d
  let row ← check fun t => nextRow "edge" t.graph.edgeStore.length
  onGraph (appendEdge id d label source target props row)
  record (.edgeCreated id d label source target props)
  pure id

/-! ## Updates -/

/-- The labels a diff leaves. -/
def applyLabelDiff (labels : LabelSet) (diff : LabelDiff) : LabelSet :=
  diff.removed.foldl (fun ls label => ls.erase label)
    (diff.added.foldl (fun ls label => ls.insert label) labels)

/-- The checks of `update_node`: the row, its old payload, the assigned diff and the new
properties. -/
def prepareUpdate (id : NodeId) (labelsDiff : LabelDiff) (diff : PropertyDiff) :
    Except GraphError (Row × NodeSlot × PropertyDiff × PropertyMap) := do
  (diff.validateStoredValues).mapError .core
  let (row, slot) ← g.requireLiveNode id
  let labels := applyLabelDiff slot.labels labelsDiff
  rejectImmutableNodeUpdate g id slot.labels diff
  rejectImmutableNodeUpdate g id labels diff
  let diff ← coerceNodePropertyDiff g labels diff
  let props ← applyPropertyDiff slot.properties diff
  .ok (row, slot, diff, props)

def updateNode (id : NodeId) (labelsDiff : LabelDiff) (diff : PropertyDiff) : Mutator Unit := do
  let (row, slot, diff, props) ← check fun t => prepareUpdate t.graph id labelsDiff diff
  let labels := applyLabelDiff slot.labels labelsDiff
  updateIndexes id row slot.labels slot.properties labels props
  onGraph fun g => { setNode row labels props g with
    idxLabel := labelsDiff.removed.foldl (fun ix label => removeIndexRow label row ix)
      (labelsDiff.added.foldl (fun ix label => insertIndexRow label row ix) g.idxLabel) }
  record (.nodeUpdated id labelsDiff diff)

def prepareEdgeUpdate (id : EdgeId) (diff : PropertyDiff) :
    Except GraphError (Row × EdgeSlot × PropertyDiff × PropertyMap) := do
  (diff.validateStoredValues).mapError .core
  let (row, slot) ← g.requireLiveEdge id
  rejectImmutableEdgeUpdate g id slot diff
  let diff ← coerceEdgePropertyDiff g slot diff
  let props ← applyPropertyDiff slot.properties diff
  .ok (row, slot, diff, props)

/-- New properties of an edge: the row first, then its property indexes. -/
def setEdgeProperties (row : Row) (slot : EdgeSlot) (props : PropertyMap) (g : SeleneGraph) :
    SeleneGraph :=
  { g with
    edgeStore := g.edgeStore.modify row fun s => { s with properties := props }
    edgePropertyIndex :=
      PropertyIndex.applyEdgeUpdate slot.label slot.properties props row g.edgePropertyIndex }

def updateEdge (id : EdgeId) (diff : PropertyDiff) : Mutator Unit := do
  let (row, slot, diff, props) ← check fun t => prepareEdgeUpdate t.graph id diff
  onGraph (setEdgeProperties row slot props)
  record (.edgeUpdated id diff)

/-- `PropertyDiff::new([], [property])`. -/
def removalDiff (property : DbString) : PropertyDiff where
  set := []
  removed := [property]
  nodup := List.nodup_nil
  disjoint := by intro key hk; cases hk

/-- The row is written before the indexes are asked. -/
def removeNodeProperty (id : NodeId) (property : DbString) : Mutator Unit := do
  let (row, slot) ← check fun t => t.graph.requireLiveNode id
  if property ∈ slot.properties then do
    check fun t => rejectImmutableNodeUpdate t.graph id slot.labels (removalDiff property)
    let props := slot.properties.erase property
    onGraph (setNode row slot.labels props)
    updateIndexes id row slot.labels slot.properties slot.labels props
    record (.nodePropertyRemoved id property)
  else pure ()

def removeEdgeProperty (id : EdgeId) (property : DbString) : Mutator Unit := do
  let (row, slot) ← check fun t => t.graph.requireLiveEdge id
  if property ∈ slot.properties then do
    check fun t => rejectImmutableEdgeUpdate t.graph id slot (removalDiff property)
    onGraph (setEdgeProperties row slot (slot.properties.erase property))
    record (.edgePropertyRemoved id property)
  else pure ()

/-- The row and the label bitmap are written before the indexes are asked. -/
def removeNodeLabel (id : NodeId) (label : DbString) : Mutator Unit := do
  let (row, slot) ← check fun t => t.graph.requireLiveNode id
  if label ∈ slot.labels then do
    let labels := slot.labels.erase label
    onGraph fun g => { setNode row labels slot.properties g with
      idxLabel := removeIndexRow label row g.idxLabel }
    updateIndexes id row slot.labels slot.properties labels slot.properties
    record (.nodeLabelRemoved id label)
  else pure ()

/-! ## Deletion -/

/-- A dead row keeps its id; its payload is cleared. -/
def clearNode (row : Row) (g : SeleneGraph) : SeleneGraph :=
  { g with nodeStore := g.nodeStore.modify row fun s =>
      { s with labels := ∅, properties := ∅, alive := false } }

/-- `remove_node_row`: everything that holds the node except its edges; the edges it had. -/
def removeNodeRow (id : NodeId) (row : Row) (slot : NodeSlot) : Mutator (List EdgeId) := do
  let incident ← check fun t => .ok (t.graph.incidentEdges id)
  onGraph fun g => { g with
    idxLabel := slot.labels.toList.foldl (fun ix label => removeIndexRow label row ix) g.idxLabel
    propertyIndex := PropertyIndex.applyNodeDelete slot.labels slot.properties row g.propertyIndex
    compositePropertyIndex :=
      CompositeIndex.applyNodeDelete slot.labels slot.properties row g.compositePropertyIndex }
  onVectorIndex (VectorIndex.applyNodeDelete slot.labels slot.properties row)
  onGraph fun g => { clearNode row g with
    textIndex := TextIndex.applyNodeDelete slot.labels slot.properties row id g.textIndex
    expressionIndexes :=
      ExpressionIndex.update (some (slot.labels, slot.properties)) none row g.expressionIndexes
    adjacencyOut := update g.adjacencyOut id []
    adjacencyIn := update g.adjacencyIn id []
    adjacencyUndirected := update g.adjacencyUndirected id [] }
  pure incident

def removeEdgeFromAdjacency (node : NodeId) (id : EdgeId) (m : NodeId → AdjacencyEntry) :
    NodeId → AdjacencyEntry :=
  update m node (AdjacencyEntry.remove id (m node))

/-- The adjacency part of `remove_edge_row_inner`. -/
def dropAdjacency (id : EdgeId) (source target : NodeId) (g : SeleneGraph) : SeleneGraph :=
  { g with
    adjacencyOut := removeEdgeFromAdjacency source id g.adjacencyOut
    adjacencyIn := removeEdgeFromAdjacency target id g.adjacencyIn
    adjacencyUndirected :=
      let m := removeEdgeFromAdjacency source id g.adjacencyUndirected
      if source = target then m else removeEdgeFromAdjacency target id m }

/-- The rest of `remove_edge_row_inner`: a dead row keeps its id and its directionality. -/
def clearEdge (row : Row) (slot : EdgeSlot) (g : SeleneGraph) : SeleneGraph :=
  { g with
    edgePropertyIndex := PropertyIndex.applyEdgeDelete slot.label slot.properties row g.edgePropertyIndex
    idxEdgeLabel := removeIndexRow slot.label row g.idxEdgeLabel
    edgeStore := g.edgeStore.modify row fun s => { s with
      label := "", source := tombstone, target := tombstone, properties := ∅, alive := false } }

def removeEdgeRow (id : EdgeId) (row : Row) (slot : EdgeSlot) : Mutator Unit :=
  onGraph fun g => dropAdjacency id slot.source slot.target (clearEdge row slot g)

/-- `delete_edge_inner` with its adjacency already removed. -/
def deleteDetachedEdge (id : EdgeId) : Mutator Unit := do
  let (row, slot) ← check fun t => t.graph.requireLiveEdge id
  onGraph (clearEdge row slot)
  record (.edgeDeleted id)

def deleteEdge (id : EdgeId) : Mutator Unit := do
  let (row, slot) ← check fun t => t.graph.requireLiveEdge id
  removeEdgeRow id row slot
  record (.edgeDeleted id)

/-- The live edges a list of ids names. -/
def liveEdges (g : SeleneGraph) : List EdgeId → Except GraphError (List (EdgeId × EdgeSlot))
  | [] => .ok []
  | id :: ids => do
    let (_, slot) ← g.requireLiveEdge id
    .ok ((id, slot) :: (← liveEdges g ids))

/-- The removals of one node in one direction: an entry as long as the removals is dropped whole. -/
def removeMany (ids : List EdgeId) (entry : AdjacencyEntry) : AdjacencyEntry :=
  if ids = [] then entry
  else if entry.length = ids.length then []
  else ids.foldl (fun entry id => AdjacencyEntry.remove id entry) entry

/-- The ids among `edges` that `touches` a node. -/
def group (touches : EdgeSlot → NodeId → Bool) (edges : List (EdgeId × EdgeSlot)) (node : NodeId) :
    List EdgeId :=
  (edges.filter fun e => touches e.2 node).map Prod.fst

def outgoingAt (e : EdgeSlot) (node : NodeId) : Bool :=
  e.directionality == .directed && e.source == node

def incomingAt (e : EdgeSlot) (node : NodeId) : Bool :=
  e.directionality == .directed && e.target == node

def undirectedAt (e : EdgeSlot) (node : NodeId) : Bool :=
  e.directionality == .undirected && (e.source == node || e.target == node)

/-- `remove_edges_from_adjacency`: the listed edges leave the lists of all their endpoints. -/
def removeEdgesFromAdjacency (ids : List EdgeId) : Mutator Unit := do
  let edges ← check fun t => liveEdges t.graph ids
  onGraph fun g => { g with
    adjacencyOut := fun n => removeMany (group outgoingAt edges n) (g.adjacencyOut n)
    adjacencyIn := fun n => removeMany (group incomingAt edges n) (g.adjacencyIn n)
    adjacencyUndirected := fun n => removeMany (group undirectedAt edges n) (g.adjacencyUndirected n) }

def deleteNode (id : NodeId) : Mutator Unit := do
  let (row, slot) ← check fun t => t.graph.requireLiveNode id
  let incident ← removeNodeRow id row slot
  removeEdgesFromAdjacency incident
  record (.nodeDeleted id)
  each deleteDetachedEdge incident

/-- `node_can_be_deleted`: an id that was given out; a dead one is passed over. -/
def nodeCanBeDeleted (id : NodeId) : Except GraphError Bool :=
  match (g.nodeRows id).bind fun row => g.nodeStore[row]? with
  | none => .error (.nodeNotFound id)
  | some slot => .ok slot.alive

def edgeCanBeDeleted (id : EdgeId) : Except GraphError Bool :=
  match (g.edgeRows id).bind fun row => g.edgeStore[row]? with
  | none => .error (.edgeNotFound id)
  | some slot => .ok slot.alive

def validateDeleteSet (nodes : List NodeId) (edges : List EdgeId) : Except GraphError Unit := do
  nodes.forM fun id => do let _ ← nodeCanBeDeleted g id
  edges.forM fun id => do let _ ← edgeCanBeDeleted g id

/-- A turn of the loops of `delete_elements`. -/
def deleteLiveNode (id : NodeId) : Mutator Unit := do
  if ← check fun t => nodeCanBeDeleted t.graph id then deleteNode id else pure ()

def deleteLiveEdge (id : EdgeId) : Mutator Unit := do
  if ← check fun t => edgeCanBeDeleted t.graph id then deleteEdge id else pure ()

/-- `delete_elements`; the sets are given as their elements in ascending order. -/
def deleteElements (nodes : List NodeId) (edges : List EdgeId) : Mutator Unit := do
  check fun t => validateDeleteSet t.graph nodes edges
  each deleteLiveNode nodes
  each deleteLiveEdge edges

/-! ## Bulk removal -/

/-- The rows of a bitmap in ascending order. -/
def rowsOf (len : ℕ) (bitmap : Finset Row) : List Row := (List.range len).filter (· ∈ bitmap)

/-- The node rows of a truncation: dead rows and rows without an id are passed over. -/
def removeNodeRows : List Row → Mutator (List NodeId × List EdgeId)
  | [] => pure ([], [])
  | row :: rows => do
    match ← check fun t => .ok (t.graph.nodeAt row, t.graph.nodeIdForNodeRow row) with
    | (some slot, some id) => do
      let incident ← removeNodeRow id row slot
      let (ids, edges) ← removeNodeRows rows
      pure (id :: ids, incident ++ edges)
    | _ => removeNodeRows rows

/-- The edges of a truncation, their adjacency already removed; the ones that were alive. -/
def clearEdges : List EdgeId → Mutator (List EdgeId)
  | [] => pure []
  | id :: ids => do
    let row ← check fun t => match t.graph.edgeRows id with
      | some row => .ok row
      | none => .error (.edgeNotFound id)
    match ← check fun t => .ok (t.graph.edgeAt row) with
    | some slot => do
      onGraph (clearEdge row slot)
      pure (id :: (← clearEdges ids))
    | none => clearEdges ids

/-- One declarative change, with the removed rows staged beside it. -/
def recordBulk (c : Change) (expansion : List Change) : Mutator Unit :=
  change fun t => { t with
    changes := t.changes ++ [c]
    truncateExpansions := t.truncateExpansions ++ [(t.changes.length, expansion)] }

def truncateNodeType (label : DbString) : Mutator Unit := do
  let rows ← check fun t => .ok (rowsOf t.graph.nodeStore.length (t.graph.idxLabel label))
  let (ids, edges) ← removeNodeRows rows
  if ids = [] then pure ()
  else do
    let edges := (edges.insertionSort (· ≤ ·)).dedup
    removeEdgesFromAdjacency edges
    let removed ← clearEdges edges
    recordBulk (.nodesOfTypeTruncated label) (ids.map .nodeDeleted ++ removed.map .edgeDeleted)

/-- The edge rows of a bulk removal, with their adjacency. -/
def removeEdgeRows : List Row → Mutator (List EdgeId)
  | [] => pure []
  | row :: rows => do
    match ← check fun t => .ok (t.graph.edgeAt row, t.graph.edgeIdForEdgeRow row) with
    | (some slot, some id) => do
      removeEdgeRow id row slot
      pure (id :: (← removeEdgeRows rows))
    | _ => removeEdgeRows rows

def truncateEdgeType (label : DbString) : Mutator Unit := do
  let rows ← check fun t => .ok (rowsOf t.graph.edgeStore.length (t.graph.idxEdgeLabel label))
  let removed ← removeEdgeRows rows
  if removed = [] then pure ()
  else recordBulk (.edgesOfTypeTruncated label) (removed.map .edgeDeleted)

/-- `factory_reset`: every live row goes, and the graph is open again. -/
def factoryReset : Mutator Unit := do
  let nodeRows ← check fun t => .ok ((List.range t.graph.nodeStore.length).filter fun row =>
    (t.graph.nodeAt row).isSome)
  let edgeRows ← check fun t => .ok ((List.range t.graph.edgeStore.length).filter fun row =>
    (t.graph.edgeAt row).isSome)
  let (ids, _) ← removeNodeRows nodeRows
  let removed ← removeEdgeRows edgeRows
  onGraph fun g => { g with boundType := none }
  recordBulk .graphReset (ids.map .nodeDeleted ++ removed.map .edgeDeleted)

end Mutator

/-! ## Transactions -/

/-- A call of a data operation. -/
inductive DataOperation where
  | createNode (labels : LabelSet) (props : PropertyMap)
  | createMixedEdge (label : DbString) (first second : NodeId) (d : EdgeDirectionality)
    (props : PropertyMap)
  | updateNode (id : NodeId) (labelsDiff : LabelDiff) (diff : PropertyDiff)
  | updateEdge (id : EdgeId) (diff : PropertyDiff)
  | removeNodeProperty (id : NodeId) (property : DbString)
  | removeEdgeProperty (id : EdgeId) (property : DbString)
  | removeNodeLabel (id : NodeId) (label : DbString)
  | deleteNode (id : NodeId)
  | deleteEdge (id : EdgeId)
  | deleteElements (nodes : List NodeId) (edges : List EdgeId)
  | truncateNodeType (label : DbString)
  | truncateEdgeType (label : DbString)
  | factoryReset

def DataOperation.run : DataOperation → Mutator Unit
  | createNode labels props => do let _ ← Mutator.createNode labels props
  | createMixedEdge label first second d props => do
    let _ ← Mutator.createMixedEdge label first second d props
  | updateNode id labelsDiff diff => Mutator.updateNode id labelsDiff diff
  | updateEdge id diff => Mutator.updateEdge id diff
  | removeNodeProperty id property => Mutator.removeNodeProperty id property
  | removeEdgeProperty id property => Mutator.removeEdgeProperty id property
  | removeNodeLabel id label => Mutator.removeNodeLabel id label
  | deleteNode id => Mutator.deleteNode id
  | deleteEdge id => Mutator.deleteEdge id
  | deleteElements nodes edges => Mutator.deleteElements nodes edges
  | truncateNodeType label => Mutator.truncateNodeType label
  | truncateEdgeType label => Mutator.truncateEdgeType label
  | factoryReset => Mutator.factoryReset

/-- The calls of a transaction, whichever of them are refused. -/
def DataOperation.runAll : List DataOperation → WriteTxn → WriteTxn
  | [], t => t
  | op :: ops, t => runAll ops (op.run t).2

/-- The published snapshot and the id allocator, which a transaction does not give back. -/
structure SharedGraph where
  snapshot : SeleneGraph
  allocator : IdAllocator

namespace SharedGraph

/-- `begin_write`: a working copy of the snapshot. -/
def beginWrite (s : SharedGraph) : WriteTxn where
  graph := s.snapshot
  changes := []
  truncateExpansions := []
  allocator := s.allocator

/-- A transaction: its operations, and whether it commits. -/
structure Transaction where
  operations : List DataOperation
  commits : Bool

/-- One transaction: its calls in turn, whatever they answer, for `commit` looks at no earlier answer;
one that is dropped leaves the snapshot. -/
def transact (s : SharedGraph) (txn : Transaction) : SharedGraph :=
  let t := DataOperation.runAll txn.operations s.beginWrite
  ⟨if txn.commits then t.graph else s.snapshot, t.allocator⟩

/-- One transaction of a client that stops at the first refused call and then does not commit. -/
def step (s : SharedGraph) (txn : Transaction) : Option SharedGraph :=
  match txn.commits, each DataOperation.run txn.operations s.beginWrite with
  | true, (.ok (), t) => some ⟨t.graph, t.allocator⟩
  | true, (.error _, _) => none
  | false, (_, t) => some ⟨s.snapshot, t.allocator⟩

end SharedGraph

end Selene.Graph
