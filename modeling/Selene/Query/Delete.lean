import Selene.Graph.Mutator
import Mathlib.Data.Finset.Sort

/-!
# The DELETE statement

`execute_delete_targets`: the elements that the rows of the binding table name are collected into
two sets, a statement without DETACH checks its nodes for edges outside the set, and the sets go to
`delete_elements`. Cancellation is left out.
-/

namespace Selene.Query

open Selene.Graph

inductive ElementKind where
  | node
  | edge
  | path
  | alias

inductive DeleteMode where
  | bare
  | detach
  | noDetach
deriving DecidableEq

structure DeleteTarget where
  element : ElementKind
  targetColumnIndex : ℕ

/-- A row of the binding table. -/
abbrev Binding := List Value

inductive ExecutorError where
  | invalidReference (name : String)
  | implementationDefined (detail : String)
  | dependentObjectStillExists (message : String)
  /-- `InvalidReferenceValue`, with the text of the graph's error. -/
  | dataException (source : GraphError)
  | graphMutation (source : GraphError)

/-- Executing a statement in a transaction. -/
abbrev Executor := Attempt WriteTxn ExecutorError

/-- `graph_mutation`. -/
def ExecutorError.ofGraph : GraphError → ExecutorError
  | .nodeNotAlive id => .dataException (.nodeNotAlive id)
  | .edgeNotAlive id => .dataException (.edgeNotAlive id)
  | source => .graphMutation source

/-- A call of the mutator. -/
def mutator {α : Type} (m : Mutator α) : Executor α := fun t =>
  ((m t).1.mapError ExecutorError.ofGraph, (m t).2)

def targetValue (row : Binding) (columnIndex : ℕ) : Except ExecutorError Value :=
  match row[columnIndex]? with
  | some value => .ok value
  | none => .error (.invalidReference ("binding column " ++ toString columnIndex))

def targetNode (row : Binding) (columnIndex : ℕ) : Except ExecutorError (Option NodeId) := do
  match ← targetValue row columnIndex with
  | .nodeRef id => .ok (some id)
  | .null => .ok none
  | _ => .error (.implementationDefined "mutation target is not a node")

def targetEdge (row : Binding) (columnIndex : ℕ) : Except ExecutorError (Option EdgeId) := do
  match ← targetValue row columnIndex with
  | .edgeRef id => .ok (some id)
  | .null => .ok none
  | _ => .error (.implementationDefined "mutation target is not an edge")

/-- The two sets of elements. -/
structure DeleteSet where
  nodes : Finset NodeId
  edges : Finset EdgeId

/-- `add_incident_edges`: the outgoing and the incoming lists. -/
def addIncidentEdges (g : SeleneGraph) (node : NodeId) (edges : Finset EdgeId) : Finset EdgeId :=
  edges ∪ ((g.adjacencyOut node).map (·.edgeId)).toFinset ∪
    ((g.adjacencyIn node).map (·.edgeId)).toFinset

/-- One target of one row. -/
def addTarget (g : SeleneGraph) (mode : DeleteMode) (row : Binding) (set : DeleteSet)
    (target : DeleteTarget) : Except ExecutorError DeleteSet :=
  match target.element with
  | .node => do
    match ← targetNode row target.targetColumnIndex with
    | some id =>
      if g.isNodeAlive id then .ok {
        nodes := insert id set.nodes
        edges := if mode = .detach then addIncidentEdges g id set.edges else set.edges }
      else .ok set
    | none => .ok set
  | .edge => do
    match ← targetEdge row target.targetColumnIndex with
    | some id => if g.isEdgeAlive id then .ok { set with edges := insert id set.edges } else .ok set
    | none => .ok set
  | .path => .error (.implementationDefined "path mutation target not implemented")
  | .alias => .error (.implementationDefined "alias mutation target not supported")

/-- The loops over the rows and the targets. -/
def collect (g : SeleneGraph) (mode : DeleteMode) (targets : List DeleteTarget)
    (table : List Binding) : Except ExecutorError DeleteSet :=
  table.foldlM (fun set row => targets.foldlM (addTarget g mode row) set) ⟨∅, ∅⟩

def incidentEdgeOutsideDeleteSet (g : SeleneGraph) (node : NodeId) (edges : Finset EdgeId) : Bool :=
  (g.adjacencyOut node).any (fun edge => edge.edgeId ∉ edges) ||
    (g.adjacencyIn node).any fun edge => edge.edgeId ∉ edges

def ensureDeleteNodesDetached (g : SeleneGraph) (set : DeleteSet) : Except ExecutorError Unit :=
  if (set.nodes.sort (· ≤ ·)).any fun node => incidentEdgeOutsideDeleteSet g node set.edges then
    .error (.dependentObjectStillExists
      "cannot delete node with incident edges (use DETACH DELETE)")
  else .ok ()

def executeDeleteTargets (targets : List DeleteTarget) (mode : DeleteMode) (table : List Binding) :
    Executor Unit := do
  let set ← Attempt.check fun t => collect t.graph mode targets table
  if mode = .bare ∨ mode = .noDetach then
    Attempt.check fun t => ensureDeleteNodesDetached t.graph set
  mutator (Mutator.deleteElements (set.nodes.sort (· ≤ ·)) (set.edges.sort (· ≤ ·)))

end Selene.Query
