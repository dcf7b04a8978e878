import Selene.Algo.Dijkstra

/-!
# Distances from one source, and between all pairs

`pathfinding/sssp.rs` and `apsp.rs`. An `SsspEntry` has the fields and the order of a
`DijkstraEntry`; an infinite distance is `none`, and the loop takes a number of turns.
-/

namespace Selene.Algo

open Selene.Graph Dijkstra

variable {K : Type} [LinearOrder K] [AddCommGroup K]

namespace Sssp

/-- The array of distances and the heap. -/
structure Sweep (K : Type) where
  dist : ℕ → Option K
  heap : List (DijkstraEntry K)

/-- Below a distance, which may be infinite. -/
def improves (cost : K) (dist : Option K) : Bool :=
  match dist with
  | none => true
  | some d => cost < d

/-- One neighbour of a settled node. -/
def relax (idx : RowIndex) (dense : ℕ) (cost : K) (s : Sweep K) (nb : ProjNeighbor K) :
    Except (PathfindingError K) (Sweep K) :=
  if nb.weight < 0 then .error (.negativeWeight (idx.nodeIdOf dense) nb.nodeId nb.weight)
  else
    let newCost := cost + nb.weight
    if improves newCost (s.dist nb.dense) then .ok
      { dist := Function.update s.dist nb.dense (some newCost)
        heap := ⟨nb.dense, newCost⟩ :: s.heap }
    else .ok s

/-- The loop over the heap. -/
def sweep (proj : GraphProjection K) :
    ℕ → Sweep K → Option (Except (PathfindingError K) (ℕ → Option K))
  | 0, _ => none
  | turns + 1, s =>
    match pop s.heap with
    | none => some (.ok s.dist)
    | some (⟨dense, cost⟩, heap) =>
      if exceeds cost (s.dist dense) then sweep proj turns { s with heap }
      else
        match (proj.outNeighborsDense dense).foldlM (relax proj.rowIndex dense cost)
            { s with heap } with
        | .error e => some (.error e)
        | .ok s => sweep proj turns s

end Sssp

open Sssp

/-- `sssp`: the finite distances, in the order of the ids. A projection with the source is not empty. -/
def sssp (proj : GraphProjection K) (source : NodeId) (turns : ℕ) :
    Option (Except (PathfindingError K) (List (NodeId × K))) :=
  match proj.rowIndex.denseOfNode source with
  | none => some (.ok [])
  | some dense =>
    (sweep proj turns ⟨Function.update (fun _ => none) dense (some 0), [⟨dense, 0⟩]⟩).map
      (Except.map fun dist => (List.range proj.rowIndex.len).filterMap fun d =>
        (dist d).map fun cost => (proj.rowIndex.nodeIdOf d, cost))

inductive Parallelism where
  | sequential
  | auto
  | threads (count : ℕ) (nonzero : count ≠ 0)

structure ApspConfig where
  maxNodes : ℕ
  parallelism : Parallelism

/-- `PathfindingError` with the refusal of `apsp`. -/
inductive ApspError (K : Type) where
  | weight (error : PathfindingError K)
  | tooLarge (nodes limit : ℕ)

/-- The targets of one source, without the source. -/
def apspRows (source : NodeId) (targets : List (NodeId × K)) : List (NodeId × NodeId × K) :=
  (targets.filter fun t => source ≠ t.1).map fun t => (source, t.1, t.2)

/-- The rows of the sources one after the other, up to the first error. -/
def apspCollect (proj : GraphProjection K) (turns : ℕ) :
    List NodeId → Option (Except (PathfindingError K) (List (NodeId × NodeId × K)))
  | [] => some (.ok [])
  | source :: sources =>
    match sssp proj source turns with
    | none => none
    | some (.error e) => some (.error e)
    | some (.ok targets) =>
      (apspCollect proj turns sources).map (Except.map (apspRows source targets ++ ·))

/-- `sort_by_key` on source and target. -/
def apspSort (rows : List (NodeId × NodeId × K)) : List (NodeId × NodeId × K) :=
  rows.mergeSort fun x y => x.1 < y.1 ∨ x.1 = y.1 ∧ x.2.1 ≤ y.2.1

def apspSequential (proj : GraphProjection K) (turns : ℕ) :
    Option (Except (PathfindingError K) (List (NodeId × NodeId × K))) :=
  (apspCollect proj turns proj.rowIndex.nodeIds).map (Except.map apspSort)

/-- The task of one source. -/
def apspTask (proj : GraphProjection K) (turns : ℕ) (source : NodeId) :
    Option (Except (PathfindingError K) (List (NodeId × NodeId × K))) :=
  (sssp proj source turns).map (Except.map (apspRows source))

/-- `collect` of a parallel iterator into a `Result`: the tasks end in the order `ended`, each fills the
slot of its source, and the first error in that order is the answer. -/
def collectSlots {ε ρ : Type} (task : NodeId → Option (Except ε ρ)) :
    List NodeId → (NodeId → Option ρ) → Option (Except ε (NodeId → Option ρ))
  | [], slots => some (.ok slots)
  | source :: ended, slots =>
    match task source with
    | none => none
    | some (.error e) => some (.error e)
    | some (.ok rows) => collectSlots task ended (Function.update slots source (some rows))

/-- `apsp_parallel`: the slots stand in the order of the sources. -/
def apspParallel (proj : GraphProjection K) (ended : List NodeId) (turns : ℕ) :
    Option (Except (PathfindingError K) (List (NodeId × NodeId × K))) :=
  (collectSlots (apspTask proj turns) ended fun _ => none).map (Except.map fun slots =>
    apspSort (proj.rowIndex.nodeIds.filterMap slots).flatten)

def apsp (proj : GraphProjection K) (config : ApspConfig) (ended : List NodeId) (turns : ℕ) :
    Option (Except (ApspError K) (List (NodeId × NodeId × K))) :=
  if config.maxNodes < proj.rowIndex.len then
    some (.error (.tooLarge proj.rowIndex.len config.maxNodes))
  else
    match config.parallelism with
    | .sequential => (apspSequential proj turns).map (Except.mapError .weight)
    | .auto | .threads _ _ => (apspParallel proj ended turns).map (Except.mapError .weight)

end Selene.Algo
