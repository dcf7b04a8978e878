import Selene.Graph.SearchIndex
import Mathlib.Data.Prod.Lex
import Mathlib.Data.String.Basic
import Mathlib.Data.List.Sort

/-!
# The graph: columns and what is derived from them

The columns of the node and of the edge store are pushed and set together, so a row is one
record here, its liveness bit with it. A deleted row stays in its store with its id; its payload
is cleared. Everything else in `SeleneGraph` is derived from the columns: id maps, label bitmaps,
adjacency lists and the registered indexes. A map whose emptied entries are pruned is a function
that is empty (or `[]`) where there is no entry.
-/

namespace Selene.Graph

structure NodeSlot where
  id : NodeId
  labels : LabelSet
  properties : PropertyMap
  alive : Bool

structure EdgeSlot where
  id : EdgeId
  directionality : EdgeDirectionality
  label : DbString
  source : NodeId
  target : NodeId
  properties : PropertyMap
  alive : Bool

structure AdjacencyEdge where
  label : DbString
  neighbor : NodeId
  edgeId : EdgeId
deriving DecidableEq

namespace AdjacencyEdge

/-- `adjacency_key`, compared lexicographically. -/
def key (e : AdjacencyEdge) : DbString ×ₗ NodeId ×ₗ EdgeId :=
  toLex (e.label, toLex (e.neighbor, e.edgeId))

theorem key_injective : Function.Injective key := by
  rintro ⟨l, n, i⟩ ⟨l', n', i'⟩ h
  have h := toLex.injective h
  have h' := toLex.injective (Prod.mk.inj h).2
  obtain ⟨rfl, rfl⟩ := Prod.mk.inj h'
  obtain rfl := (Prod.mk.inj h).1
  rfl

end AdjacencyEdge

/-- `AdjacencyEntry`: edges in the order of their keys. -/
abbrev AdjacencyEntry := List AdjacencyEdge

namespace AdjacencyEntry

/-- `add`: inserted before the first edge whose key is not smaller. -/
def add (edge : AdjacencyEdge) : AdjacencyEntry → AdjacencyEntry
  | [] => [edge]
  | e :: es => if edge.key ≤ e.key then edge :: e :: es else e :: add edge es

/-- `remove`: the first edge with the id. -/
def remove (id : EdgeId) (entry : AdjacencyEntry) : AdjacencyEntry :=
  entry.eraseP fun e => e.edgeId == id

end AdjacencyEntry

structure SeleneGraph where
  nodeStore : List NodeSlot
  edgeStore : List EdgeSlot
  nodeRows : NodeId → Option Row
  edgeRows : EdgeId → Option Row
  idxLabel : DbString → Finset Row
  idxEdgeLabel : DbString → Finset Row
  adjacencyOut : NodeId → AdjacencyEntry
  adjacencyIn : NodeId → AdjacencyEntry
  adjacencyUndirected : NodeId → AdjacencyEntry
  propertyIndex : PropertyIndexMap
  edgePropertyIndex : PropertyIndexMap
  compositePropertyIndex : CompositeIndexMap
  vectorIndex : VectorIndexMap
  textIndex : TextIndexMap
  expressionIndexes : ExpressionIndexes
  boundType : Option GraphTypeDef

namespace SeleneGraph

/-- A graph without a node, an edge or an index. -/
def empty : SeleneGraph where
  nodeStore := []
  edgeStore := []
  nodeRows _ := none
  edgeRows _ := none
  idxLabel _ := ∅
  idxEdgeLabel _ := ∅
  adjacencyOut _ := []
  adjacencyIn _ := []
  adjacencyUndirected _ := []
  propertyIndex _ := none
  edgePropertyIndex _ := none
  compositePropertyIndex _ := none
  vectorIndex _ := none
  textIndex _ := none
  expressionIndexes _ := none
  boundType := none

variable (g : SeleneGraph)

/-- The live node in a row. -/
def nodeAt (row : Row) : Option NodeSlot := (g.nodeStore[row]?).filter (·.alive)

/-- The live edge in a row. -/
def edgeAt (row : Row) : Option EdgeSlot := (g.edgeStore[row]?).filter (·.alive)

/-- The live node with an id, by way of the id map (`live_node_row`). -/
def node (id : NodeId) : Option NodeSlot := (g.nodeRows id).bind g.nodeAt

def edge (id : EdgeId) : Option EdgeSlot := (g.edgeRows id).bind g.edgeAt

def isNodeAlive (id : NodeId) : Bool := (g.node id).isSome

def isEdgeAlive (id : EdgeId) : Bool := (g.edge id).isSome

def nodeLabels (id : NodeId) : Option LabelSet := (g.node id).map (·.labels)

def nodeProperties (id : NodeId) : Option PropertyMap := (g.node id).map (·.properties)

def edgeProperties (id : EdgeId) : Option PropertyMap := (g.edge id).map (·.properties)

/-- `node_id_for_node_row`: the id a row was given, dead rows included. -/
def nodeIdForNodeRow (row : Row) : Option NodeId :=
  ((g.nodeStore[row]?).map (·.id)).filter (· != tombstone)

def edgeIdForEdgeRow (row : Row) : Option EdgeId :=
  ((g.edgeStore[row]?).map (·.id)).filter (· != tombstone)

/-- `require_live_node`: an id that was never given out is not found, a deleted one not alive. -/
def requireLiveNode (id : NodeId) : Except GraphError (Row × NodeSlot) :=
  match g.nodeRows id with
  | none => .error (.nodeNotFound id)
  | some row =>
    match g.nodeStore[row]? with
    | none => .error (.nodeNotFound id)
    | some slot => if slot.alive then .ok (row, slot) else .error (.nodeNotAlive id)

def requireLiveEdge (id : EdgeId) : Except GraphError (Row × EdgeSlot) :=
  match g.edgeRows id with
  | none => .error (.edgeNotFound id)
  | some row =>
    match g.edgeStore[row]? with
    | none => .error (.edgeNotFound id)
    | some slot => if slot.alive then .ok (row, slot) else .error (.edgeNotAlive id)

/-- The ids of the edges in the three lists of a node, ascending and once each. -/
def incidentEdges (id : NodeId) : List EdgeId :=
  (((g.adjacencyOut id ++ g.adjacencyIn id ++ g.adjacencyUndirected id).map
    (·.edgeId)).insertionSort (· ≤ ·)).dedup

end SeleneGraph

end Selene.Graph
