import Selene.Algo.Projection
import Mathlib.Algebra.Order.Group.Defs

/-!
# Dijkstra's shortest path

`pathfinding/dijkstra.rs`, with weights in an ordered group, so that a cost is exact and never NaN.
An infinite distance and the predecessor `u32::MAX` are `none`. Both loops of the code take a number
of turns here; without a result in that many turns there is none.
-/

namespace Selene.Algo

open Selene.Graph

/-- `PathfindingError`; a weight here is never NaN. -/
inductive PathfindingError (K : Type) where
  | negativeWeight (source target : NodeId) (weight : K)

structure PathResult (K : Type) where
  nodes : List NodeId
  cost : K

namespace Dijkstra

structure DijkstraEntry (K : Type) where
  dense : ℕ
  cost : K

/-- The arrays and the heap. -/
structure Search (K : Type) where
  dist : ℕ → Option K
  prev : ℕ → Option ℕ
  heap : List (DijkstraEntry K)

variable {K : Type} [LinearOrder K]

/-- `Ord`, reversed for the max-heap: the smaller cost first, then the smaller index. -/
def DijkstraEntry.before (a b : DijkstraEntry K) : Prop :=
  a.cost < b.cost ∨ a.cost = b.cost ∧ a.dense < b.dense

instance : DecidableRel (DijkstraEntry.before (K := K)) := fun a b =>
  inferInstanceAs (Decidable (a.cost < b.cost ∨ a.cost = b.cost ∧ a.dense < b.dense))

/-- `BinaryHeap::pop`: the first entry of the order, and the rest. -/
def pop : List (DijkstraEntry K) → Option (DijkstraEntry K × List (DijkstraEntry K))
  | [] => none
  | e :: heap =>
    match pop heap with
    | none => some (e, [])
    | some (first, rest) => if first.before e then some (first, e :: rest) else some (e, heap)

/-- Above a distance, which may be infinite. -/
def exceeds (cost : K) (dist : Option K) : Bool :=
  match dist with
  | none => false
  | some d => d < cost

variable [AddCommGroup K]

/-- One neighbour of a settled node. -/
def relax (idx : RowIndex) (dense : ℕ) (cost : K) (s : Search K) (nb : ProjNeighbor K) :
    Except (PathfindingError K) (Search K) :=
  if nb.weight < 0 then .error (.negativeWeight (idx.nodeIdOf dense) nb.nodeId nb.weight)
  else
    let newCost := cost + nb.weight
    match s.dist nb.dense with
    | none => .ok
      { dist := Function.update s.dist nb.dense (some newCost)
        prev := Function.update s.prev nb.dense (some dense)
        heap := ⟨nb.dense, newCost⟩ :: s.heap }
    | some d =>
      if newCost < d then .ok
        { dist := Function.update s.dist nb.dense (some newCost)
          prev := Function.update s.prev nb.dense (some dense)
          heap := ⟨nb.dense, newCost⟩ :: s.heap }
      else
        match s.prev nb.dense with
        | none => .ok s
        | some p =>
          if newCost = d ∧ dense < p then
            .ok { s with prev := Function.update s.prev nb.dense (some dense) }
          else .ok s

/-- The loop over the heap. -/
def search (proj : GraphProjection K) (toDense : ℕ) :
    ℕ → Search K → Option (Except (PathfindingError K) (Search K))
  | 0, _ => none
  | turns + 1, s =>
    match pop s.heap with
    | none => some (.ok s)
    | some (⟨dense, cost⟩, heap) =>
      if exceeds cost (s.dist dense) then search proj toDense turns { s with heap }
      else if exceeds cost (s.dist toDense) then some (.ok { s with heap })
      else
        match (proj.outNeighborsDense dense).foldlM (relax proj.rowIndex dense cost)
            { s with heap } with
        | .error e => some (.error e)
        | .ok s => search proj toDense turns s

/-- The loop of `reconstruct`: the indices from the source to `cur`. A predecessor that is not there
would be an index out of bounds. -/
def reconstruct (fromDense : ℕ) (prev : ℕ → Option ℕ) : ℕ → ℕ → List ℕ → Option (List ℕ)
  | 0, _, _ => none
  | turns + 1, cur, path =>
    if cur = fromDense then some path
    else match prev cur with
      | none => none
      | some p => reconstruct fromDense prev turns p (p :: path)

def start (fromDense : ℕ) : Search K where
  dist := Function.update (fun _ => none) fromDense (some 0)
  prev _ := none
  heap := [⟨fromDense, 0⟩]

end Dijkstra

open Dijkstra

def dijkstra {K : Type} [LinearOrder K] [AddCommGroup K] (proj : GraphProjection K)
    (source target : NodeId) (turns : ℕ) :
    Option (Except (PathfindingError K) (Option (PathResult K))) :=
  match proj.rowIndex.denseOfNode source, proj.rowIndex.denseOfNode target with
  | some fromDense, some toDense =>
    if source = target then some (.ok (some ⟨[source], 0⟩))
    else
      match search proj toDense turns (start fromDense) with
      | none => none
      | some (.error e) => some (.error e)
      | some (.ok s) =>
        match s.dist toDense with
        | none => some (.ok none)
        | some total =>
          (reconstruct fromDense s.prev turns toDense [toDense]).map fun path =>
            .ok (some ⟨path.map proj.rowIndex.nodeIdOf, total⟩)
  | _, _ => some (.ok none)

end Selene.Algo
