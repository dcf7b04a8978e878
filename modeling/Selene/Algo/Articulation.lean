import Selene.Algo.Projection

/-!
# Articulation points and bridges

`structural/articulation.rs`: one depth-first pass with an explicit stack computes low links, and
from them both results. `u32::MAX` in `disc` and `parent` is `none` here. The loop of `biconn_dfs`
takes a number of turns; without a result in that many there is none.
-/

namespace Selene.Algo

open Selene.Graph

structure BiconnState where
  timer : ℕ
  disc : ℕ → Option ℕ
  low : ℕ → ℕ
  parent : ℕ → Option ℕ
  ap : Finset ℕ
  bridges : List (ℕ × ℕ)

/-- `with_capacity`. -/
def BiconnState.new : BiconnState := ⟨0, fun _ => none, fun _ => u32Max, fun _ => none, ∅, []⟩

/-- A node on the stack: how many of its neighbours were looked at, how many became its children,
and whether the edge to its parent was passed over. -/
structure Frame where
  dense : ℕ
  next : ℕ
  children : ℕ
  parentConsumed : Bool

namespace Biconn

section

variable (neighbors : ℕ → List ℕ)

/-- A node is entered. -/
def enter (s : BiconnState) (v : ℕ) : BiconnState :=
  { s with
    timer := s.timer + 1
    disc := Function.update s.disc v (some s.timer)
    low := Function.update s.low v s.timer }

/-- One neighbour of the node on top of the stack. -/
def visit (s : BiconnState) (frame : Frame) (rest : List Frame) (v : ℕ) : BiconnState × List Frame :=
  match s.disc v with
  | none =>
    (enter { s with parent := Function.update s.parent v (some frame.dense) } v,
      ⟨v, 0, 0, false⟩ ::
        { frame with next := frame.next + 1, children := frame.children + 1 } :: rest)
  | some d =>
    if s.parent frame.dense = some v ∧ frame.parentConsumed = false then
      (s, { frame with next := frame.next + 1, parentConsumed := true } :: rest)
    else
      ({ s with low := Function.update s.low frame.dense (min (s.low frame.dense) d) },
        { frame with next := frame.next + 1 } :: rest)

/-- The node on top of the stack is complete: what it means for the node below. -/
def propagate (s : BiconnState) (finished parent : ℕ) : BiconnState :=
  let low := min (s.low parent) (s.low finished)
  let disc := (s.disc parent).getD u32Max
  { s with
    low := Function.update s.low parent low
    ap := if s.parent parent ≠ none ∧ disc ≤ s.low finished then insert parent s.ap else s.ap
    bridges := if disc < s.low finished then s.bridges ++ [(min parent finished, max parent finished)]
      else s.bridges }

/-- The top of the stack is popped. -/
def finish (s : BiconnState) (frame : Frame) (rest : List Frame) : BiconnState :=
  let s := match rest with
    | [] => s
    | below :: _ => propagate s frame.dense below.dense
  { s with
    ap := if s.parent frame.dense = none ∧ 1 < frame.children then insert frame.dense s.ap else s.ap }

/-- The loop of `biconn_dfs`. -/
def run : ℕ → BiconnState → List Frame → Option BiconnState
  | _, s, [] => some s
  | 0, _, _ :: _ => none
  | turns + 1, s, frame :: rest =>
    match (neighbors frame.dense)[frame.next]? with
    | some v =>
      let (s, stack) := visit s frame rest v
      run turns s stack
    | none => run turns (finish s frame rest) rest

/-- `biconn_dfs`. -/
def dfs (turns : ℕ) (s : BiconnState) (start : ℕ) : Option BiconnState :=
  run neighbors turns (enter s start) [⟨start, 0, 0, false⟩]

/-- The loop of `lowlink_pass_with_checker` over all nodes. -/
def pass (turns n : ℕ) : Option BiconnState :=
  (List.range n).foldlM (fun s d => if s.disc d = none then dfs neighbors turns s d else some s)
    BiconnState.new

end

variable {K : Type} (proj : GraphProjection K)

/-- The undirected view of the neighbours of a node: the outgoing and the incoming ones. -/
def neighborsOf (dense : ℕ) : List ℕ :=
  ((proj.outNeighborsDense dense).map (·.dense) ++
    (proj.inNeighborsDense dense).map (·.dense)).insertionSort (· ≤ ·)

end Biconn

namespace GraphProjection

variable {K : Type} (proj : GraphProjection K)

/-- `lowlink_pass_with_checker`, without a checker. -/
def lowlinkPass (turns : ℕ) : Option (List NodeId × List (NodeId × NodeId)) :=
  (Biconn.pass (Biconn.neighborsOf proj) turns proj.rowIndex.len).map fun s =>
    ((s.ap.image proj.rowIndex.nodeIdOf).sort,
      (s.bridges.map fun (a, b) =>
        (proj.rowIndex.nodeIdOf a, proj.rowIndex.nodeIdOf b)).insertionSort
          fun x y => x.1 < y.1 ∨ x.1 = y.1 ∧ x.2 ≤ y.2)

def articulationPoints (turns : ℕ) : Option (List NodeId) := (proj.lowlinkPass turns).map Prod.fst

def bridges (turns : ℕ) : Option (List (NodeId × NodeId)) := (proj.lowlinkPass turns).map Prod.snd

end GraphProjection

end Selene.Algo
