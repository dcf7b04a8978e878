import Selene.Base.Buckets
import Selene.Graph.Store
import Mathlib.Data.Finset.Sort

/-!
# Graph projections

`projection.rs`, `projection/csr.rs` and `projection/row_index.rs`: a frozen view of a graph, its
nodes numbered densely in the order of their ids, and the neighbours of every node in one array for
each direction. Weights are read into a type `K` by a `Weighing`, so that they can be exact numbers.
A write outside an array, which panics in the code, is no projection here.
-/

namespace Selene.Algo

open Selene.Graph

variable {edgeLabels : List DbString} {weightProperty : Option DbString} {d : ℕ}

structure ProjNeighbor (K : Type) where
  edgeId : EdgeId
  nodeId : NodeId
  weight : K
  dense : ℕ

/-- The order of `sort_neighbors_by_node_id`. -/
def ProjNeighbor.before {K : Type} (a b : ProjNeighbor K) : Prop :=
  a.nodeId < b.nodeId ∨ a.nodeId = b.nodeId ∧ a.edgeId ≤ b.edgeId

instance {K : Type} : DecidableRel (ProjNeighbor.before (K := K)) := fun a b =>
  inferInstanceAs (Decidable (a.nodeId < b.nodeId ∨ a.nodeId = b.nodeId ∧ a.edgeId ≤ b.edgeId))

structure ProjCsr (K : Type) where
  offsets : List ℕ
  neighbors : List (ProjNeighbor K)

def ProjCsr.neighborsOfDense {K : Type} (csr : ProjCsr K) (dense : ℕ) : List (ProjNeighbor K) :=
  if csr.offsets.length ≤ dense + 1 then [] else Buckets.slice csr.offsets csr.neighbors dense

structure RowIndex where
  nodeIds : List NodeId
  ascending : nodeIds.Pairwise (· < ·)

namespace RowIndex

variable (idx : RowIndex)

def len : ℕ := idx.nodeIds.length

def denseOfNode (node : NodeId) : Option ℕ := idx.nodeIds.idxOf? node

def nodeIdOf (dense : ℕ) : NodeId := idx.nodeIds.getD dense 0

/-- `from_candidates`: a candidate set is iterated in the order of the ids. -/
def fromCandidates (candidates : Finset NodeId) : RowIndex where
  nodeIds := candidates.sort
  ascending := candidates.sortedLT_sort.pairwise

theorem denseOfNode_eq_some {node : NodeId} :
    idx.denseOfNode node = some d ↔ idx.nodeIds[d]? = some node := by
  have hnodup : idx.nodeIds.Nodup := idx.ascending.imp fun hlt => hlt.ne
  rw [denseOfNode, List.idxOf?_eq_some_iff]
  constructor
  · rintro ⟨hlt, heq, -⟩
    rw [List.getElem?_eq_getElem hlt, heq]
  · intro h
    obtain ⟨hlt, heq⟩ := List.getElem?_eq_some_iff.1 h
    refine ⟨hlt, heq, fun j hj hji => ?_⟩
    have := hnodup.getElem_inj_iff.1 (hji.trans heq.symm)
    omega

theorem nodeIdOf_eq {node : NodeId} (h : idx.nodeIds[d]? = some node) : idx.nodeIdOf d = node := by
  rw [nodeIdOf, List.getD_eq_getElem?_getD, h]
  rfl

theorem nodeIdOf_lt {e : ℕ} (hd : d < idx.len) (he : e < idx.len) :
    idx.nodeIdOf d < idx.nodeIdOf e ↔ d < e := by
  have hmono : ∀ {d e : ℕ} (hd : d < idx.len) (he : e < idx.len), d < e →
      idx.nodeIdOf d < idx.nodeIdOf e := by
    intro d e hd he hlt
    have hd' := List.getElem?_eq_getElem hd
    have he' := List.getElem?_eq_getElem he
    rw [idx.nodeIdOf_eq hd', idx.nodeIdOf_eq he']
    exact List.pairwise_iff_getElem.1 idx.ascending d e hd he hlt
  refine ⟨fun h => ?_, hmono hd he⟩
  rcases lt_trichotomy d e with hlt | rfl | hlt
  · exact hlt
  · exact absurd h (lt_irrefl _)
  · exact absurd h (hmono he hd hlt).asymm

end RowIndex

structure ProjectionConfig where
  nodeLabels : List DbString
  edgeLabels : List DbString
  weightProperty : Option DbString

/-- How a stored number is read as a weight; `unit` is the weight of an edge without one. -/
structure Weighing (K : Type) where
  unit : K
  float : UInt64 → K
  int : ℤ → K
  uint : ℕ → K

def extractWeight {K : Type} (W : Weighing K) (g : SeleneGraph) (edgeId : EdgeId)
    (weightProperty : Option DbString) : K :=
  match weightProperty with
  | none => W.unit
  | some property =>
    match (g.edgeProperties edgeId).bind fun properties => properties[property]? with
    | some (.float f) => W.float f
    | some (.int i) => W.int i
    | some (.uint u) => W.uint u
    | _ => W.unit

/-- `u32::MAX`, where the sums of `build_csr_out` and `transpose_csr_in` saturate. -/
def u32Max : ℕ := 4294967295

section Csr

variable {K : Type} (W : Weighing K) (g : SeleneGraph) (idx : RowIndex)

/-- What an adjacency entry of a node puts into its row: nothing when the neighbour or the label is
outside the projection. -/
def outItem (edgeLabels : List DbString) (weightProperty : Option DbString) (dense : ℕ)
    (adj : AdjacencyEdge) : Option (ℕ × ProjNeighbor K) :=
  match idx.denseOfNode adj.neighbor with
  | none => none
  | some neighborDense =>
    if edgeLabels ≠ [] ∧ adj.label ∉ edgeLabels then none
    else some (dense, ⟨adj.edgeId, adj.neighbor, extractWeight W g adj.edgeId weightProperty,
      neighborDense⟩)

/-- Both passes of `build_csr_out`, in their order: the outgoing and then the undirected entries of
every node. -/
def outItems (edgeLabels : List DbString) (weightProperty : Option DbString) :
    List (ℕ × ProjNeighbor K) :=
  idx.nodeIds.zipIdx.flatMap fun (nid, dense) =>
    (g.adjacencyOut nid ++ g.adjacencyUndirected nid).filterMap
      (outItem W g idx edgeLabels weightProperty dense)

/-- The passes that both directions share: count, sum, write, and sort every row. -/
def csrOf (items : List (ℕ × ProjNeighbor K)) : Option (ProjCsr K) :=
  (Buckets.bucketed u32Max idx.len ⟨0, 0, W.unit, 0⟩ items).map fun (offsets, neighbors) =>
    ⟨offsets, Buckets.sortSlices ProjNeighbor.before idx.len offsets neighbors⟩

def buildCsrOut (edgeLabels : List DbString) (weightProperty : Option DbString) :
    Option (ProjCsr K) :=
  csrOf W idx (outItems W g idx edgeLabels weightProperty)

/-- The entries of the transposed array, source by source. -/
def inItems (outCsr : ProjCsr K) : List (ℕ × ProjNeighbor K) :=
  (List.range idx.len).flatMap fun source =>
    (outCsr.neighborsOfDense source).map fun neighbor =>
      (neighbor.dense, ⟨neighbor.edgeId, idx.nodeIdOf source, neighbor.weight, source⟩)

def transposeCsrIn (outCsr : ProjCsr K) : Option (ProjCsr K) := csrOf W idx (inItems idx outCsr)

variable {W g idx}

/-- **The rows of an array**: row `d` has the items of bucket `d`, sorted. -/
theorem csrOf_row {items : List (ℕ × ProjNeighbor K)} {csr : ProjCsr K}
    (hitems : ∀ item ∈ items, item.1 < idx.len) (h : csrOf W idx items = some csr) (d : ℕ) :
    csr.neighborsOfDense d = (Buckets.bucket items d).insertionSort ProjNeighbor.before := by
  obtain ⟨⟨offsets, neighbors⟩, hbucketed, rfl⟩ := Option.map_eq_some_iff.1 h
  obtain ⟨rfl, rfl⟩ := Buckets.bucketed_eq hitems hbucketed
  have hlen : (Buckets.offsetsOf (Buckets.parts idx.len items)).length = idx.len + 1 := by
    rw [Buckets.offsetsOf, List.length_map, List.length_range, Buckets.length_parts]
  unfold ProjCsr.neighborsOfDense
  dsimp only
  rw [hlen]
  by_cases hd : d < idx.len
  · rw [if_neg (by omega)]
    have hsort := Buckets.sortSlices_flatten (r := ProjNeighbor.before)
      (Buckets.parts idx.len items)
    rw [Buckets.length_parts] at hsort
    have hoffsets : Buckets.offsetsOf (Buckets.parts idx.len items) =
        Buckets.offsetsOf ((Buckets.parts idx.len items).map
          fun part => part.insertionSort ProjNeighbor.before) := by
      refine Buckets.offsetsOf_congr ?_
      rw [List.map_map]
      exact List.map_congr_left fun part _ => (List.length_insertionSort _ part).symm
    rw [hsort, hoffsets]
    refine Buckets.slice_flatten ?_
    rw [List.getElem?_map, Buckets.parts_getElem? items hd]
    rfl
  · rw [if_pos (by omega)]
    have hempty : Buckets.bucket items d = [] := by
      rw [Buckets.bucket, List.map_eq_nil_iff, List.filter_eq_nil_iff]
      intro item hitem
      have := hitems item hitem
      simp only [decide_eq_true_eq]
      omega
    rw [hempty]
    rfl

theorem outItem_eq_some {dense : ℕ} {adj : AdjacencyEdge} {item : ℕ × ProjNeighbor K} :
    outItem W g idx edgeLabels weightProperty dense adj = some item ↔
      ∃ d, idx.denseOfNode adj.neighbor = some d ∧ (edgeLabels = [] ∨ adj.label ∈ edgeLabels) ∧
        item = (dense, ⟨adj.edgeId, adj.neighbor, extractWeight W g adj.edgeId weightProperty, d⟩) := by
  unfold outItem
  cases idx.denseOfNode adj.neighbor with
  | none => simp
  | some d =>
    simp only [Option.some.injEq]
    by_cases hlabel : edgeLabels = [] ∨ adj.label ∈ edgeLabels
    · rw [if_neg (by tauto)]
      simp [hlabel, eq_comm]
    · rw [if_pos (by tauto)]
      simp [hlabel]

theorem mem_outItems {item : ℕ × ProjNeighbor K} :
    item ∈ outItems W g idx edgeLabels weightProperty ↔
      ∃ nid dense adj, idx.nodeIds[dense]? = some nid ∧
        adj ∈ g.adjacencyOut nid ++ g.adjacencyUndirected nid ∧
        outItem W g idx edgeLabels weightProperty dense adj = some item := by
  simp only [outItems, List.mem_flatMap, List.mem_filterMap, Prod.exists]
  constructor
  · rintro ⟨nid, dense, hzip, adj, hadj, hitem⟩
    exact ⟨nid, dense, adj, List.mk_mem_zipIdx_iff_getElem?.1 hzip, hadj, hitem⟩
  · rintro ⟨nid, dense, adj, hzip, hadj, hitem⟩
    exact ⟨nid, dense, List.mk_mem_zipIdx_iff_getElem?.2 hzip, adj, hadj, hitem⟩

theorem outItems_lt : ∀ item ∈ outItems W g idx edgeLabels weightProperty, item.1 < idx.len := by
  intro item hitem
  obtain ⟨nid, dense, adj, hnid, -, hout⟩ := mem_outItems.1 hitem
  obtain ⟨d, -, -, rfl⟩ := outItem_eq_some.1 hout
  exact (List.getElem?_eq_some_iff.1 hnid).1

/-- An entry of the built array names its neighbour by id and by number. -/
theorem buildCsrOut_valid
    {csr : ProjCsr K} (h : buildCsrOut W g idx edgeLabels weightProperty = some csr) (d : ℕ) :
    ∀ nb ∈ csr.neighborsOfDense d, idx.denseOfNode nb.nodeId = some nb.dense := by
  intro nb hnb
  rw [csrOf_row outItems_lt h, List.mem_insertionSort, Buckets.bucket, List.mem_map] at hnb
  obtain ⟨item, hitem, rfl⟩ := hnb
  obtain ⟨nid, dense, adj, -, -, hout⟩ := mem_outItems.1 (List.mem_filter.1 hitem).1
  obtain ⟨d', hd', -, rfl⟩ := outItem_eq_some.1 hout
  exact hd'

end Csr

/-- `GraphProjection`, by what the algorithms read of it. -/
structure GraphProjection (K : Type) where
  rowIndex : RowIndex
  outCsr : ProjCsr K
  inCsr : ProjCsr K
  valid : ∀ d, ∀ nb ∈ outCsr.neighborsOfDense d, rowIndex.denseOfNode nb.nodeId = some nb.dense

namespace GraphProjection

variable {K : Type}

/-- The live nodes in rows of a bitmap. -/
def nodeCandidates (g : SeleneGraph) (rows : Finset Row) : Finset NodeId :=
  ((g.nodeStore.zipIdx.filter fun (slot, row) => slot.alive ∧ row ∈ rows).map (·.1.id)).toFinset

def liveNodeCandidates (g : SeleneGraph) : Finset NodeId :=
  nodeCandidates g (Finset.range g.nodeStore.length)

/-- The nodes of a projection: all live ones, or those with one of the labels; inside the scope. -/
def candidates (g : SeleneGraph) (config : ProjectionConfig) (scope : Option (Finset NodeId)) :
    Finset NodeId :=
  let nodes := if config.nodeLabels = [] then liveNodeCandidates g
    else (config.nodeLabels.foldl (fun set label => set ∪ nodeCandidates g (g.idxLabel label)) ∅) ∩
      liveNodeCandidates g
  match scope with
  | none => nodes
  | some scope => nodes ∩ scope

def build (W : Weighing K) (g : SeleneGraph) (config : ProjectionConfig)
    (scope : Option (Finset NodeId)) : Option (GraphProjection K) :=
  let idx := RowIndex.fromCandidates (candidates g config scope)
  match hout : buildCsrOut W g idx config.edgeLabels config.weightProperty with
  | none => none
  | some outCsr => (transposeCsrIn W idx outCsr).map fun inCsr =>
      ⟨idx, outCsr, inCsr, buildCsrOut_valid hout⟩

variable (proj : GraphProjection K)

def contains (node : NodeId) : Bool := (proj.rowIndex.denseOfNode node).isSome

def outNeighborsDense (dense : ℕ) : List (ProjNeighbor K) := proj.outCsr.neighborsOfDense dense

def inNeighborsDense (dense : ℕ) : List (ProjNeighbor K) := proj.inCsr.neighborsOfDense dense

def outNeighbors (node : NodeId) : List (ProjNeighbor K) :=
  match proj.rowIndex.denseOfNode node with
  | none => []
  | some dense => proj.outNeighborsDense dense

end GraphProjection

end Selene.Algo
