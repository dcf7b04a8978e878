import Selene.Base.Multigraph
import Selene.Proof.CommitValidation
import Selene.Proof.LowlinkPass

/-!
# Articulation points and bridges of a projected graph

The projection is read as a multigraph with one edge for every edge identity. The neighbour lists
of the low-link pass have a directed edge once and an undirected one twice, once for each direction,
so `Bridge` of the lists is about directed edges only. Cut nodes do not depend on how often an edge
is listed.
-/

namespace Selene.Algo

open Selene.Graph Relation List Option Prod Biconn Multigraph SharedGraph

namespace GraphProjection

variable {K : Type}

section Rows

variable {W : Weighing K} {g : SeleneGraph} {config : ProjectionConfig}
  {scope : Option (Finset NodeId)} {proj : GraphProjection K}

theorem build_ok (h : build W g config scope = some proj) :
    buildCsrOut W g proj.rowIndex config.edgeLabels config.weightProperty = some proj.outCsr ∧
      transposeCsrIn W proj.rowIndex proj.outCsr = some proj.inCsr := by
  unfold build at h
  dsimp only at h
  split at h
  · cases h
  · next outCsr hout =>
    obtain ⟨inCsr, hin, rfl⟩ := map_eq_some_iff.1 h
    exact ⟨hout, hin⟩

theorem build_of_csr {idx : RowIndex} {outCsr inCsr : ProjCsr K}
    (hidx : RowIndex.fromCandidates (candidates g config scope) = idx)
    (hout : buildCsrOut W g idx config.edgeLabels config.weightProperty = some outCsr)
    (hin : transposeCsrIn W idx outCsr = some inCsr) :
    build W g config scope = some ⟨idx, outCsr, inCsr, buildCsrOut_valid hout⟩ := by
  subst hidx
  unfold build
  dsimp only
  split
  · next hnone => cases hnone.symm.trans hout
  · next outCsr' hout' =>
    obtain rfl := mem_unique hout' hout
    rw [hin]
    rfl

/-- How often `v` is listed at `u`, as the other end of an outgoing or undirected edge. -/
def outCount (proj : GraphProjection K) (u v : ℕ) : ℕ :=
  ((proj.outNeighborsDense u).map (·.dense)).count v

/-- An adjacency entry that the projection keeps, with the neighbour `v`. -/
def Kept (config : ProjectionConfig) (v : NodeId) (adj : AdjacencyEdge) : Prop :=
  (config.edgeLabels = [] ∨ adj.label ∈ config.edgeLabels) ∧ adj.neighbor = v

instance {v : NodeId} {adj : AdjacencyEdge} : Decidable (Kept config v adj) :=
  inferInstanceAs (Decidable (_ ∧ _))

theorem getD_map_eq_true {α : Type} {o : Option α} {test : α → Bool} :
    (o.map test).getD false = true ↔ ∃ a, o = some a ∧ test a = true := by
  cases o <;> simp

theorem countP_flatMap_single {α β : Type} [DecidableEq α] {l : List α} {f : α → List β}
    {test : β → Bool} {a : α} (hl : l.Nodup) (ha : a ∈ l)
    (hf : ∀ x ∈ l, x ≠ a → (f x).countP test = 0) :
    (l.flatMap f).countP test = (f a).countP test := by
  rw [countP_flatMap, sum_map_eq_nsmul_single a (countP test ∘ f)
    fun x hne hx => hf x hx hne, count_eq_one_of_mem hl ha, one_smul]
  rfl

theorem count_bucket {items : List (ℕ × ProjNeighbor K)} {csr : ProjCsr K} {idx : RowIndex}
    (hitems : ∀ item ∈ items, item.1 < idx.len) (h : csrOf W idx items = some csr) (u v : ℕ) :
    ((csr.neighborsOfDense u).map (·.dense)).count v =
      items.countP fun item => decide (item.1 = u ∧ item.2.dense = v) := by
  rw [csrOf_row hitems h, count_eq_countP, countP_map,
    (perm_insertionSort ProjNeighbor.before _).countP_eq, Buckets.bucket, countP_map,
    countP_filter]
  refine countP_congr fun item _ => ?_
  simp only [Function.comp_apply, Bool.and_eq_true, beq_iff_eq, decide_eq_true_eq]
  exact and_comm

theorem outCount_eq (h : build W g config scope = some proj) {u v : ℕ} {x y : NodeId}
    (hx : proj.rowIndex.nodeIds[u]? = some x) (hy : proj.rowIndex.nodeIds[v]? = some y) :
    proj.outCount u v =
      (g.adjacencyOut x ++ g.adjacencyUndirected x).countP fun adj => decide (Kept config y adj) := by
  have hout := (build_ok h).1
  unfold outCount outNeighborsDense
  rw [count_bucket outItems_lt hout, outItems,
    countP_flatMap_single (a := (x, u)) ?_ (mk_mem_zipIdx_iff_getElem?.2 hx) ?_]
  · rw [countP_filterMap]
    refine countP_congr fun adj _ => ?_
    rw [decide_eq_true_eq, getD_map_eq_true]
    constructor
    · rintro ⟨item, hitem, htest⟩
      obtain ⟨d, hd, hlabel, rfl⟩ := outItem_eq_some.1 hitem
      obtain rfl : d = v := (of_decide_eq_true htest).2
      rw [proj.rowIndex.denseOfNode_eq_some, hy] at hd
      exact ⟨hlabel, (Option.some.inj hd).symm⟩
    · rintro ⟨hlabel, rfl⟩
      have hd := proj.rowIndex.denseOfNode_eq_some.2 hy
      exact ⟨_, outItem_eq_some.2 ⟨v, hd, hlabel, rfl⟩, decide_eq_true ⟨rfl, rfl⟩⟩
  · refine List.Nodup.of_map snd ?_
    rw [zipIdx_map_snd]
    exact nodup_range'
  · rintro ⟨x', u'⟩ hmem hne
    rw [countP_eq_zero]
    intro item hitem hcount
    obtain ⟨adj, -, hadj⟩ := mem_filterMap.1 hitem
    obtain ⟨d, -, -, rfl⟩ := outItem_eq_some.1 hadj
    have hu : u' = u := (of_decide_eq_true hcount).1
    have hx' := mk_mem_zipIdx_iff_getElem?.1 hmem
    subst hu
    exact hne (Prod.ext (mem_unique hx' hx) rfl)

theorem inItems_lt : ∀ item ∈ inItems proj.rowIndex proj.outCsr, item.1 < proj.rowIndex.len := by
  intro item hitem
  obtain ⟨source, -, hitem⟩ := mem_flatMap.1 hitem
  obtain ⟨nb, hnb, rfl⟩ := List.mem_map.1 hitem
  exact (List.getElem?_eq_some_iff.1
    (proj.rowIndex.denseOfNode_eq_some.1 (proj.valid source nb hnb))).1

variable (h : build W g config scope = some proj)

include h

theorem outNeighborsDense_nil {u : ℕ}
    (hu : proj.rowIndex.len ≤ u) : proj.outNeighborsDense u = [] := by
  rw [outNeighborsDense, csrOf_row outItems_lt (build_ok h).1]
  have hempty : Buckets.bucket (outItems W g proj.rowIndex config.edgeLabels config.weightProperty) u
      = [] := by
    rw [Buckets.bucket, map_eq_nil_iff, filter_eq_nil_iff]
    intro item hitem htest
    have := outItems_lt item hitem
    have := of_decide_eq_true htest
    omega
  rw [hempty]
  rfl

variable (u v : ℕ)

theorem inCount_eq :
    ((proj.inNeighborsDense u).map (·.dense)).count v = proj.outCount v u := by
  unfold inNeighborsDense
  rw [count_bucket inItems_lt (build_ok h).2, inItems]
  by_cases hv : v < proj.rowIndex.len
  · rw [countP_flatMap_single (a := v) nodup_range (mem_range.2 hv)]
    · rw [countP_map, outCount, count_eq_countP, countP_map]
      refine countP_congr fun nb _ => ?_
      simp
    · intro x _ hne
      rw [countP_eq_zero]
      intro item hitem htest
      obtain ⟨nb, -, rfl⟩ := List.mem_map.1 hitem
      exact hne (of_decide_eq_true htest).2
  · rw [outCount, outNeighborsDense_nil h (not_lt.1 hv), map_nil, count_nil, countP_eq_zero]
    intro item hitem htest
    obtain ⟨source, hsource, hitem⟩ := mem_flatMap.1 hitem
    obtain ⟨nb, -, rfl⟩ := List.mem_map.1 hitem
    have := mem_range.1 hsource
    have : source = v := (of_decide_eq_true htest).2
    omega

theorem count_neighborsOf :
    (neighborsOf proj u).count v = proj.outCount u v + proj.outCount v u := by
  rw [neighborsOf, (perm_insertionSort _ _).count_eq, count_append, inCount_eq h]
  rfl

theorem neighborsOf_sym :
    (neighborsOf proj u).count v = (neighborsOf proj v).count u := by
  rw [count_neighborsOf h, count_neighborsOf h, Nat.add_comm]

theorem neighborsOf_adj_symm
    (huv : DepthFirst.Adj (neighborsOf proj) u v) : DepthFirst.Adj (neighborsOf proj) v u := by
  unfold DepthFirst.Adj at huv ⊢
  rw [← count_pos_iff] at huv ⊢
  rwa [neighborsOf_sym h]

theorem outCount_pos_lt {u v : ℕ}
    (hpos : 0 < proj.outCount u v) : u < proj.rowIndex.len ∧ v < proj.rowIndex.len := by
  have hmem := count_pos_iff.1 hpos
  obtain ⟨nb, hnb, rfl⟩ := List.mem_map.1 hmem
  refine ⟨?_, ?_⟩
  · by_contra hu
    rw [outNeighborsDense_nil h (not_lt.1 hu)] at hnb
    cases hnb
  · exact (List.getElem?_eq_some_iff.1
      (proj.rowIndex.denseOfNode_eq_some.1 (proj.valid u nb hnb))).1

theorem neighborsOf_lt {u v : ℕ}
    (hv : v ∈ neighborsOf proj u) : u < proj.rowIndex.len ∧ v < proj.rowIndex.len := by
  rw [← count_pos_iff, count_neighborsOf h] at hv
  rcases Nat.eq_zero_or_pos (proj.outCount u v) with hzero | hpos
  · exact (outCount_pos_lt h (by omega)).symm
  · exact outCount_pos_lt h hpos

end Rows

/-! ### The multigraph -/

section Edges

variable (g : SeleneGraph) (config : ProjectionConfig) (proj : GraphProjection K)

/-- The projected nodes, and the live edges between them whose label is projected. -/
def multigraph : Multigraph NodeId EdgeId where
  nodes := {x | x ∈ proj.rowIndex.nodeIds}
  edges := {e | ∃ s, g.edge e = some s ∧ (config.edgeLabels = [] ∨ s.label ∈ config.edgeLabels) ∧
    s.source ∈ proj.rowIndex.nodeIds ∧ s.target ∈ proj.rowIndex.nodeIds}
  ends e := ((g.edge e).map fun s => (s.source, s.target)).getD (0, 0)

/-- An edge of the projection with the given direction. -/
def Directionality (e : EdgeId) (d : EdgeDirectionality) : Prop :=
  (g.edge e).map (·.directionality) = some d

/-- The edges that a list of a node has for a neighbour. -/
def listed (entry : AdjacencyEntry) (y : NodeId) : List EdgeId :=
  (entry.filter fun adj => decide (Kept config y adj)).map (·.edgeId)

variable {g config proj}

theorem between_iff {e : EdgeId} {x y : NodeId} (hx : x ∈ proj.rowIndex.nodeIds)
    (hy : y ∈ proj.rowIndex.nodeIds) : (proj.multigraph g config).Between e x y ↔
      ∃ s, g.edge e = some s ∧ (config.edgeLabels = [] ∨ s.label ∈ config.edgeLabels) ∧
        (s.source = x ∧ s.target = y ∨ s.source = y ∧ s.target = x) := by
  constructor
  · rintro ⟨⟨s, hs, hlabel, -, -⟩, -, -, hends⟩
    refine ⟨s, hs, hlabel, ?_⟩
    simpa only [multigraph, hs, map_some, getD_some, Prod.mk.injEq] using hends
  · rintro ⟨s, hs, hlabel, hends⟩
    refine ⟨⟨s, hs, hlabel, ?_, ?_⟩, hx, hy, ?_⟩
    · rcases hends with ⟨rfl, -⟩ | ⟨rfl, -⟩ <;> assumption
    · rcases hends with ⟨-, rfl⟩ | ⟨-, rfl⟩ <;> assumption
    · simpa only [multigraph, hs, map_some, getD_some, Prod.mk.injEq] using hends

section

variable (h : Derived g ∅ ∅) {lists : NodeId → AdjacencyEntry}
  {ends : EdgeSlot → List (NodeId × AdjacencyEdge)} (hends : IsEnds ends)
  (hlists : Adjacency.Exact lists ends g.edgeAt ∅ ∅)
include h hends hlists

/-- The edges that the lists of one direction have, when the lists are exact. -/
theorem mem_listed {e : EdgeId} {x y : NodeId} :
    e ∈ listed config (lists x) y ↔ ∃ s adj, g.edge e = some s ∧ (x, adj) ∈ ends s ∧
      Kept config y adj := by
  simp only [listed, List.mem_map, List.mem_filter, decide_eq_true_eq, edge_eq_some]
  constructor
  · rintro ⟨adj, ⟨hadj, hkept⟩, rfl⟩
    obtain ⟨-, row, s, hs, -, hmem⟩ := (hlists.mem x adj).1 hadj
    exact ⟨s, adj, h.liveEdge_iff.2 ⟨(hends.edgeId hmem).symm, row, hs⟩, hmem, hkept⟩
  · rintro ⟨s, adj, hs, hmem, hkept⟩
    obtain ⟨hid, row, hrow⟩ := h.liveEdge_iff.1 hs
    have hadj := (hlists.mem x adj).2
      ⟨Set.notMem_empty _, row, s, hrow, Set.notMem_empty _, hmem⟩
    exact ⟨adj, ⟨hadj, hkept⟩, (hends.edgeId hmem).trans hid⟩

theorem nodup_listed (x y : NodeId) : (listed config (lists x) y).Nodup :=
  pairwise_map.2 ((hlists.distinct hends h.distinctIds x).filter _)

end

section Listed

variable (h : Derived g ∅ ∅) {e : EdgeId} {x y : NodeId}

include h

theorem mem_listed_out : e ∈ listed config (g.adjacencyOut x) y ↔
    ∃ s, g.edge e = some s ∧ (config.edgeLabels = [] ∨ s.label ∈ config.edgeLabels) ∧
      s.directionality = .directed ∧ s.source = x ∧ s.target = y := by
  rw [mem_listed h isEnds_out h.outgoing]
  refine exists_congr fun s => ?_
  constructor
  · rintro ⟨adj, hs, hmem, hlabel, hy⟩
    unfold EdgeSlot.outEnds at hmem
    split at hmem
    · next hd =>
      obtain ⟨rfl, rfl⟩ := Prod.mk.inj (mem_singleton.1 hmem)
      exact ⟨hs, hlabel, hd, rfl, hy⟩
    · cases hmem
  · rintro ⟨hs, hlabel, hd, rfl, rfl⟩
    refine ⟨⟨s.label, s.target, s.id⟩, hs, ?_, hlabel, rfl⟩
    rw [EdgeSlot.outEnds, hd]
    exact mem_cons_self

theorem mem_listed_undirected : e ∈ listed config (g.adjacencyUndirected x) y ↔
    ∃ s, g.edge e = some s ∧ (config.edgeLabels = [] ∨ s.label ∈ config.edgeLabels) ∧
      s.directionality = .undirected ∧
        (s.source = x ∧ s.target = y ∨ s.source = y ∧ s.target = x) := by
  rw [mem_listed h isEnds_undirected h.undirected]
  refine exists_congr fun s => ?_
  simp only [mem_undirectedEnds, Kept]
  constructor
  · rintro ⟨adj, hs, ⟨hd, ⟨rfl, rfl⟩ | ⟨rfl, rfl⟩⟩, hlabel, rfl⟩
    · exact ⟨hs, hlabel, hd, .inl ⟨rfl, rfl⟩⟩
    · exact ⟨hs, hlabel, hd, .inr ⟨rfl, rfl⟩⟩
  · rintro ⟨hs, hlabel, hd, ⟨rfl, rfl⟩ | ⟨rfl, rfl⟩⟩
    · exact ⟨_, hs, ⟨hd, .inl ⟨rfl, rfl⟩⟩, hlabel, rfl⟩
    · exact ⟨_, hs, ⟨hd, .inr ⟨rfl, rfl⟩⟩, hlabel, rfl⟩

theorem between_iff_listed (hx : x ∈ proj.rowIndex.nodeIds) (hy : y ∈ proj.rowIndex.nodeIds) :
    (proj.multigraph g config).Between e x y ↔
      (e ∈ listed config (g.adjacencyOut x) y ∨ e ∈ listed config (g.adjacencyOut y) x) ∨
        e ∈ listed config (g.adjacencyUndirected x) y := by
  rw [between_iff hx hy, mem_listed_out h, mem_listed_out h, mem_listed_undirected h]
  constructor
  · rintro ⟨s, hs, hlabel, hends⟩
    cases hd : s.directionality with
    | directed =>
      refine .inl (hends.imp ?_ ?_)
      · exact fun hends => ⟨s, hs, hlabel, hd, hends⟩
      · exact fun hends => ⟨s, hs, hlabel, hd, hends⟩
    | undirected => exact .inr ⟨s, hs, hlabel, hd, hends⟩
  · rintro ((⟨s, hs, hlabel, -, hends⟩ | ⟨s, hs, hlabel, -, hends⟩) | ⟨s, hs, hlabel, -, hends⟩)
    · exact ⟨s, hs, hlabel, .inl hends⟩
    · exact ⟨s, hs, hlabel, .inr hends⟩
    · exact ⟨s, hs, hlabel, hends⟩

variable {W : Weighing K} {scope : Option (Finset NodeId)}
  (hbuild : build W g config scope = some proj) {u v : ℕ}
  (hu : proj.rowIndex.nodeIds[u]? = some x) (hv : proj.rowIndex.nodeIds[v]? = some y)

include hbuild hu hv

theorem count_neighborsOf_listed : (neighborsOf proj u).count v =
    (listed config (g.adjacencyOut x) y).length + (listed config (g.adjacencyOut y) x).length +
      2 * (listed config (g.adjacencyUndirected x) y).length := by
  have hlen : ∀ {u v : ℕ} {x y : NodeId}, proj.rowIndex.nodeIds[u]? = some x →
      proj.rowIndex.nodeIds[v]? = some y → proj.outCount u v =
        (listed config (g.adjacencyOut x) y).length +
          (listed config (g.adjacencyUndirected x) y).length := by
    intro u v x y hu hv
    rw [outCount_eq hbuild hu hv, countP_append, listed, listed, length_map,
      length_map, countP_eq_length_filter, countP_eq_length_filter]
  -- both ends of an undirected edge list it
  have hboth : (listed config (g.adjacencyUndirected x) y).length =
      (listed config (g.adjacencyUndirected y) x).length := by
    refine List.Perm.length_eq ((perm_ext_iff_of_nodup
      (nodup_listed h isEnds_undirected h.undirected x y)
      (nodup_listed h isEnds_undirected h.undirected y x)).2 fun e => ?_)
    rw [mem_listed_undirected h, mem_listed_undirected h]
    simp only [or_comm]
  rw [count_neighborsOf hbuild, hlen hu hv, hlen hv hu]
  omega

theorem mem_neighborsOf_iff : v ∈ neighborsOf proj u ↔ (proj.multigraph g config).Adj x y := by
  have hx := mem_of_getElem? hu
  have hy := mem_of_getElem? hv
  rw [← count_pos_iff, count_neighborsOf_listed h hbuild hu hv]
  unfold Multigraph.Adj
  simp only [between_iff_listed h hx hy]
  constructor
  · intro hpos
    by_contra hno
    push Not at hno
    have hout := eq_nil_iff_forall_not_mem.2 fun e => (hno e).1.1
    have hin := eq_nil_iff_forall_not_mem.2 fun e => (hno e).1.2
    have hundirected := eq_nil_iff_forall_not_mem.2 fun e => (hno e).2
    rw [hout, hin, hundirected] at hpos
    simp at hpos
  · rintro ⟨e, (hout | hin) | hundirected⟩
    · have := length_pos_of_mem hout
      omega
    · have := length_pos_of_mem hin
      omega
    · have := length_pos_of_mem hundirected
      omega

theorem count_eq_one_iff (hne : x ≠ y) : (neighborsOf proj u).count v = 1 ↔
    ∃ e, (proj.multigraph g config).Between e x y ∧ Directionality g e .directed ∧
      ∀ f, (proj.multigraph g config).Between f x y → f = e := by
  have hx := mem_of_getElem? hu
  have hy := mem_of_getElem? hv
  have hdirected : ∀ {e x y}, e ∈ listed config (g.adjacencyOut x) y →
      Directionality g e .directed := by
    intro e x y he
    obtain ⟨s, hs, -, hd, -⟩ := (mem_listed_out h).1 he
    simp [Directionality, hs, hd]
  rw [count_neighborsOf_listed h hbuild hu hv]
  simp only [between_iff_listed h hx hy]
  constructor
  · intro hone
    have hundirected : listed config (g.adjacencyUndirected x) y = [] :=
      length_eq_zero_iff.1 (by omega)
    rw [hundirected]
    rcases Nat.eq_zero_or_pos (listed config (g.adjacencyOut x) y).length with hzero | hpos
    · obtain ⟨e, he⟩ := length_eq_one_iff.1
        (show (listed config (g.adjacencyOut y) x).length = 1 by omega)
      rw [length_eq_zero_iff.1 hzero, he]
      refine ⟨e, by simp, hdirected (he ▸ mem_cons_self), by simp⟩
    · obtain ⟨e, he⟩ := length_eq_one_iff.1
        (show (listed config (g.adjacencyOut x) y).length = 1 by omega)
      rw [length_eq_zero_iff.1 (show (listed config (g.adjacencyOut y) x).length = 0 by omega), he]
      refine ⟨e, by simp, hdirected (he ▸ mem_cons_self), by simp⟩
  · rintro ⟨e, he, hd, hunique⟩
    -- the edge is in one of the three lists, and alone there
    have hone : ∀ {l : List EdgeId}, l.Nodup → e ∈ l → (∀ f ∈ l, f = e) → l.length = 1 := by
      intro l hl hmem hall
      have hperm : l.Perm [e] := (perm_ext_iff_of_nodup hl (nodup_singleton e)).2 fun f =>
        ⟨fun hf => mem_singleton.2 (hall f hf), fun hf => mem_singleton.1 hf ▸ hmem⟩
      exact hperm.length_eq
    have hundirected : (listed config (g.adjacencyUndirected x) y).length = 0 := by
      rw [length_eq_zero_iff]
      refine eq_nil_iff_forall_not_mem.2 fun f hf => ?_
      have hfe := hunique f (.inr hf)
      obtain ⟨s, hs, -, hdir, -⟩ := (mem_listed_undirected h).1 hf
      rw [Directionality, ← hfe, hs, map_some, hdir] at hd
      cases hd
    have happart : e ∈ listed config (g.adjacencyOut x) y →
        e ∉ listed config (g.adjacencyOut y) x := by
      intro hxy hyx
      obtain ⟨s, hs, -, -, rfl, rfl⟩ := (mem_listed_out h).1 hxy
      obtain ⟨s', hs', -, -, hsource, -⟩ := (mem_listed_out h).1 hyx
      rw [mem_unique hs' hs] at hsource
      exact hne hsource
    have hempty : ∀ {l : List EdgeId}, e ∉ l → (∀ f ∈ l, f = e) → l.length = 0 := by
      intro l hnot hall
      rw [length_eq_zero_iff]
      exact eq_nil_iff_forall_not_mem.2 fun f hf => hnot (hall f hf ▸ hf)
    have hout : ∀ f ∈ listed config (g.adjacencyOut x) y, f = e := fun f hf =>
      hunique f (.inl (.inl hf))
    have hin : ∀ f ∈ listed config (g.adjacencyOut y) x, f = e := fun f hf =>
      hunique f (.inl (.inr hf))
    rw [hundirected]
    rcases he with (hxy | hyx) | hboth
    · rw [hone (nodup_listed h isEnds_out h.outgoing x y) hxy hout, hempty (happart hxy) hin]
    · rw [hone (nodup_listed h isEnds_out h.outgoing y x) hyx hin,
        hempty (fun hxy => happart hxy hyx) hout]
    · exact absurd (length_pos_of_mem hboth) (by omega)

end Listed

end Edges

/-! ### Bridges and cut nodes of the lists -/

section Transfer

variable {W : Weighing K} {g : SeleneGraph} {config : ProjectionConfig}
  {scope : Option (Finset NodeId)} {proj : GraphProjection K} {u v w a b : ℕ}

theorem getElem?_nodeIdOf (hu : u < proj.rowIndex.len) :
    proj.rowIndex.nodeIds[u]? = some (proj.rowIndex.nodeIdOf u) := by
  have hat := getElem?_eq_getElem hu
  rw [hat, proj.rowIndex.nodeIdOf_eq hat]

theorem exists_dense {x : NodeId} (hx : x ∈ proj.rowIndex.nodeIds) :
    ∃ u, u < proj.rowIndex.len ∧ x = proj.rowIndex.nodeIdOf u := by
  obtain ⟨u, hu, rfl⟩ := mem_iff_getElem.1 hx
  exact ⟨u, hu, (proj.rowIndex.nodeIdOf_eq (getElem?_eq_getElem hu)).symm⟩

theorem nodeIdOf_mem (hu : u < proj.rowIndex.len) :
    proj.rowIndex.nodeIdOf u ∈ proj.rowIndex.nodeIds :=
  mem_of_getElem? (getElem?_nodeIdOf hu)

theorem nodeIdOf_inj (hu : u < proj.rowIndex.len) (hv : v < proj.rowIndex.len)
    (h : proj.rowIndex.nodeIdOf u = proj.rowIndex.nodeIdOf v) : u = v := by
  rcases lt_trichotomy u v with hlt | heq | hlt
  · exact absurd h ((proj.rowIndex.nodeIdOf_lt hu hv).2 hlt).ne
  · exact heq
  · exact absurd h ((proj.rowIndex.nodeIdOf_lt hv hu).2 hlt).ne'

theorem way_iff {R : ℕ → ℕ → Prop} {S : NodeId → NodeId → Prop}
    (hR : ∀ {u v}, R u v → S (proj.rowIndex.nodeIdOf u) (proj.rowIndex.nodeIdOf v))
    (hS : ∀ {u v}, u < proj.rowIndex.len → v < proj.rowIndex.len →
      S (proj.rowIndex.nodeIdOf u) (proj.rowIndex.nodeIdOf v) → R u v)
    (hnodes : ∀ {x y}, S x y → y ∈ proj.rowIndex.nodeIds)
    (hu : u < proj.rowIndex.len) (hv : v < proj.rowIndex.len) :
    ReflTransGen R u v ↔ ReflTransGen S (proj.rowIndex.nodeIdOf u) (proj.rowIndex.nodeIdOf v) := by
  constructor
  · intro h
    exact ReflTransGen.lift proj.rowIndex.nodeIdOf (fun _ _ => hR) _ _ h
  · intro h
    have hall : ∀ y, ReflTransGen S (proj.rowIndex.nodeIdOf u) y →
        ∃ v, v < proj.rowIndex.len ∧ y = proj.rowIndex.nodeIdOf v ∧ ReflTransGen R u v := by
      intro y hy
      induction hy with
      | refl => exact ⟨u, hu, rfl, .refl⟩
      | tail _ hbc ih =>
        obtain ⟨v, hv, rfl, hway⟩ := ih
        obtain ⟨w, hw, rfl⟩ := exists_dense (hnodes hbc)
        exact ⟨w, hw, rfl, hway.tail (hS hv hw hbc)⟩
    obtain ⟨v', hv', heq, hway⟩ := hall _ h
    rwa [nodeIdOf_inj hv hv' heq]

theorem finite_nodes : (proj.multigraph g config).nodes.Finite := finite_toSet _

variable (h : Derived g ∅ ∅) (hbuild : build W g config scope = some proj)

include h hbuild

theorem adj_iff (hu : u < proj.rowIndex.len) (hv : v < proj.rowIndex.len) :
    v ∈ neighborsOf proj u ↔ (proj.multigraph g config).Adj
      (proj.rowIndex.nodeIdOf u) (proj.rowIndex.nodeIdOf v) :=
  mem_neighborsOf_iff h hbuild (getElem?_nodeIdOf hu) (getElem?_nodeIdOf hv)

theorem adj_way_iff (hu : u < proj.rowIndex.len) (hv : v < proj.rowIndex.len) :
    ReflTransGen (DepthFirst.Adj (neighborsOf proj)) u v ↔
      ReflTransGen (proj.multigraph g config).Adj (proj.rowIndex.nodeIdOf u)
        (proj.rowIndex.nodeIdOf v) := by
  refine way_iff (fun {u v} huv => ?_) (fun hu hv => (adj_iff h hbuild hu hv).2) ?_ hu hv
  · obtain ⟨hu, hv⟩ := neighborsOf_lt hbuild huv
    exact (adj_iff h hbuild hu hv).1 huv
  · rintro x y ⟨e, he⟩
    exact he.2.2.1

theorem adjOff_way_iff (hw : w < proj.rowIndex.len) (hu : u < proj.rowIndex.len)
    (hv : v < proj.rowIndex.len) :
    ReflTransGen (DepthFirst.AdjOff (neighborsOf proj) w) u v ↔
      ReflTransGen ((proj.multigraph g config).removeNode (proj.rowIndex.nodeIdOf w)).Adj
        (proj.rowIndex.nodeIdOf u) (proj.rowIndex.nodeIdOf v) := by
  refine way_iff (fun {u v} huv => ?_) (fun {u v} hu hv huv => ?_) ?_ hu hv
  · obtain ⟨hmem, huw, hvw⟩ := huv
    obtain ⟨hu, hv⟩ := neighborsOf_lt hbuild hmem
    obtain ⟨e, he, hx, hy, hends⟩ := (adj_iff h hbuild hu hv).1 hmem
    exact ⟨e, he, ⟨hx, fun heq => huw (nodeIdOf_inj hu hw heq)⟩,
      ⟨hy, fun heq => hvw (nodeIdOf_inj hv hw heq)⟩, hends⟩
  · obtain ⟨e, he, hx, hy, hends⟩ := huv
    refine ⟨(adj_iff h hbuild hu hv).2 ⟨e, he, hx.1, hy.1, hends⟩, ?_, ?_⟩
    · rintro rfl
      exact hx.2 rfl
    · rintro rfl
      exact hy.2 rfl
  · rintro x y ⟨e, he⟩
    exact he.2.2.1.1

theorem cut_iff (hw : w < proj.rowIndex.len) : DepthFirst.Cut (neighborsOf proj) w ↔
    (proj.multigraph g config).IsCut (proj.rowIndex.nodeIdOf w) := by
  rw [isCut_iff finite_nodes (nodeIdOf_mem hw)]
  constructor
  · intro hcut
    obtain ⟨a, b, ha, hb, haw, hbw, hnot⟩ := hcut.neighbors (neighborsOf_adj_symm hbuild)
    have ha' := (neighborsOf_lt hbuild ha).2
    have hb' := (neighborsOf_lt hbuild hb).2
    have hway : ReflTransGen (proj.multigraph g config).Adj (proj.rowIndex.nodeIdOf a)
        (proj.rowIndex.nodeIdOf b) :=
      .tail (.single ((adj_iff h hbuild hw ha').1 ha).symm) ((adj_iff h hbuild hw hb').1 hb)
    refine ⟨_, _, nodeIdOf_mem ha', nodeIdOf_mem hb', fun heq => haw (nodeIdOf_inj ha' hw heq),
      fun heq => hbw (nodeIdOf_inj hb' hw heq), hway, ?_⟩
    rwa [adjOff_way_iff h hbuild hw ha' hb'] at hnot
  · rintro ⟨x, y, hx, hy, hxw, hyw, hway, hnot⟩
    obtain ⟨u, hu, rfl⟩ := exists_dense hx
    obtain ⟨v, hv, rfl⟩ := exists_dense hy
    rw [← adj_way_iff h hbuild hu hv] at hway
    rw [← adjOff_way_iff h hbuild hw hu hv] at hnot
    refine ⟨u, v, ?_, ?_, hway, hnot⟩
    · rintro rfl
      exact hxw rfl
    · rintro rfl
      exact hyw rfl

theorem bridge_iff (ha : a < proj.rowIndex.len) (hb : b < proj.rowIndex.len) (hab : a ≠ b) :
    DepthFirst.Bridge (neighborsOf proj) a b ↔
      ∃ e, (proj.multigraph g config).Between e (proj.rowIndex.nodeIdOf a) (proj.rowIndex.nodeIdOf b) ∧
        Directionality g e .directed ∧ (proj.multigraph g config).IsBridge e := by
  have hne : proj.rowIndex.nodeIdOf a ≠ proj.rowIndex.nodeIdOf b := fun heq =>
    hab (nodeIdOf_inj ha hb heq)
  -- with one edge between the two, ways without the pair are ways without the edge
  have hways : ∀ {e}, (proj.multigraph g config).Between e (proj.rowIndex.nodeIdOf a)
      (proj.rowIndex.nodeIdOf b) → (∀ f, (proj.multigraph g config).Between f
        (proj.rowIndex.nodeIdOf a) (proj.rowIndex.nodeIdOf b) → f = e) →
      (ReflTransGen (DepthFirst.AdjNot (neighborsOf proj) a b) a b ↔
        ReflTransGen ((proj.multigraph g config).removeEdge e).Adj
          (proj.rowIndex.nodeIdOf a) (proj.rowIndex.nodeIdOf b)) := by
    intro e he hunique
    refine way_iff (fun {u v} huv => ?_) (fun {u v} hu hv huv => ?_) ?_ ha hb
    · obtain ⟨hmem, hnot⟩ := huv
      obtain ⟨hu, hv⟩ := neighborsOf_lt hbuild hmem
      obtain ⟨f, hf⟩ := (adj_iff h hbuild hu hv).1 hmem
      refine ⟨f, ⟨hf.1, ?_⟩, hf.2⟩
      rintro rfl
      refine hnot ?_
      have hends := he.2.2.2
      have hends' := hf.2.2.2
      have hinj := @nodeIdOf_inj K proj
      grind
    · obtain ⟨f, hf, hrest⟩ := huv
      have hbetween : (proj.multigraph g config).Between f (proj.rowIndex.nodeIdOf u)
        (proj.rowIndex.nodeIdOf v) := ⟨hf.1, hrest⟩
      refine ⟨(adj_iff h hbuild hu hv).2 ⟨f, hbetween⟩, ?_⟩
      rintro (⟨rfl, rfl⟩ | ⟨rfl, rfl⟩)
      · exact hf.2 (hunique f hbetween)
      · exact hf.2 (hunique f hbetween.symm)
    · rintro x y ⟨f, hf⟩
      exact hf.2.2.1
  unfold DepthFirst.Bridge
  rw [count_eq_one_iff h hbuild (getElem?_nodeIdOf ha) (getElem?_nodeIdOf hb) hne]
  constructor
  · rintro ⟨⟨e, he, hd, hunique⟩, hnot⟩
    rw [hways he hunique] at hnot
    exact ⟨e, he, hd, (isBridge_iff finite_nodes he).2 hnot⟩
  · rintro ⟨e, he, hd, hbridge⟩
    have hnot := (isBridge_iff finite_nodes he).1 hbridge
    have hunique : ∀ f, (proj.multigraph g config).Between f (proj.rowIndex.nodeIdOf a)
        (proj.rowIndex.nodeIdOf b) → f = e := fun f hf => he.eq_of_bridge finite_nodes hbridge hf
    exact ⟨⟨e, he, hd, hunique⟩, (not_congr (hways he hunique)).2 hnot⟩

end Transfer

/-! ### What the two functions return -/

/-- The cut nodes of a multigraph, in order. -/
def ListsCuts (G : Multigraph NodeId EdgeId) (points : List NodeId) : Prop :=
  points.Pairwise (· < ·) ∧ ∀ x, x ∈ points ↔ G.IsCut x

/-- The pairs of nodes that a bridge joins, each once with the smaller id first, in order. -/
def ListsBridges (G : Multigraph NodeId EdgeId) (pairs : List (NodeId × NodeId)) : Prop :=
  pairs.Pairwise (fun p q => p.1 < q.1 ∨ p.1 = q.1 ∧ p.2 < q.2) ∧
    ∀ x y, (x, y) ∈ pairs ↔ x < y ∧ ∃ e, G.Between e x y ∧ G.IsBridge e

/-- The ends of every undirected edge are joined without it. -/
def UndirectedOnCycles (g : SeleneGraph) (G : Multigraph NodeId EdgeId) : Prop :=
  ∀ e ∈ G.edges, Directionality g e .undirected →
    ReflTransGen (G.removeEdge e).Adj (G.ends e).1 (G.ends e).2

section Exact

variable {W : Weighing K} {g : SeleneGraph} {config : ProjectionConfig}
  {scope : Option (Finset NodeId)} {proj : GraphProjection K}

theorem between_ends {e : EdgeId} (he : e ∈ (proj.multigraph g config).edges) :
    (proj.multigraph g config).Between e ((proj.multigraph g config).ends e).1
      ((proj.multigraph g config).ends e).2 := by
  obtain ⟨s, hs, hlabel, hsource, htarget⟩ := he
  refine ⟨⟨s, hs, hlabel, hsource, htarget⟩, ?_, ?_, .inl rfl⟩
  · simpa only [multigraph, hs, map_some, getD_some, Set.mem_ofPred_eq] using hsource
  · simpa only [multigraph, hs, map_some, getD_some, Set.mem_ofPred_eq] using htarget

theorem undirectedOnCycles_iff : UndirectedOnCycles g (proj.multigraph g config) ↔
    ∀ e, (proj.multigraph g config).IsBridge e → Directionality g e .directed := by
  constructor
  · intro hcycles e hbridge
    have hnot := (isBridge_iff finite_nodes (between_ends hbridge.1)).1 hbridge
    obtain ⟨s, hs, -⟩ := hbridge.1
    cases hd : s.directionality with
    | directed => rw [Directionality, hs, map_some, hd]
    | undirected =>
      exact absurd (hcycles e hbridge.1 (by rw [Directionality, hs, map_some, hd])) hnot
  · intro hdirected e he hd
    by_contra hnot
    have := hdirected e ((isBridge_iff finite_nodes (between_ends he)).2 hnot)
    rw [Directionality, hd] at this
    cases this

variable {pairs : List (NodeId × NodeId)}

/-- Pairs that are listed for directed bridges only are all pairs when every bridge is directed. -/
theorem listsBridges_iff (hsorted : pairs.Pairwise fun p q => p.1 < q.1 ∨ p.1 = q.1 ∧ p.2 < q.2)
    (hpairs : ∀ x y, (x, y) ∈ pairs ↔ x < y ∧ ∃ e, (proj.multigraph g config).Between e x y ∧
      Directionality g e .directed ∧ (proj.multigraph g config).IsBridge e) :
    ListsBridges (proj.multigraph g config) pairs ↔
      UndirectedOnCycles g (proj.multigraph g config) := by
  rw [undirectedOnCycles_iff]
  constructor
  · rintro ⟨-, hall⟩ e hbridge
    have he := between_ends hbridge.1
    -- its pair is listed, for a directed edge that has to be the same
    have hsame : ∀ {x y}, (proj.multigraph g config).Between e x y → x < y →
        Directionality g e .directed := by
      intro x y he hlt
      obtain ⟨-, f, hf, hd, -⟩ := (hpairs x y).1 ((hall x y).2 ⟨hlt, e, he, hbridge⟩)
      rwa [he.eq_of_bridge finite_nodes hbridge hf] at hd
    rcases lt_trichotomy ((proj.multigraph g config).ends e).1 ((proj.multigraph g config).ends e).2
      with hlt | heq | hlt
    · exact hsame he hlt
    · exact absurd (heq ▸ .refl) ((isBridge_iff finite_nodes he).1 hbridge)
    · exact hsame he.symm hlt
  · intro hdirected
    refine ⟨hsorted, fun x y => (hpairs x y).trans (and_congr_right fun _ => exists_congr fun e => ?_)⟩
    exact and_congr_right fun _ => and_iff_right_of_imp (hdirected e)

theorem sorted_of_nodup (hnodup : pairs.Nodup) :
    (pairs.insertionSort fun x y => x.1 < y.1 ∨ x.1 = y.1 ∧ x.2 ≤ y.2).Pairwise
      fun p q => p.1 < q.1 ∨ p.1 = q.1 ∧ p.2 < q.2 := by
  let r : NodeId × NodeId → NodeId × NodeId → Prop := fun x y => x.1 < y.1 ∨ x.1 = y.1 ∧ x.2 ≤ y.2
  have : Std.Total r := ⟨fun x y => by
    rcases lt_trichotomy x.1 y.1 with hlt | heq | hlt
    · exact .inl (.inl hlt)
    · exact (le_total x.2 y.2).imp (fun hle => .inr ⟨heq, hle⟩) fun hle => .inr ⟨heq.symm, hle⟩
    · exact .inr (.inl hlt)⟩
  have : IsTrans _ r := ⟨fun x y z hxy hyz => by
    rcases hxy with hlt | ⟨heq, hle⟩ <;> rcases hyz with hlt' | ⟨heq', hle'⟩
    · exact .inl (hlt.trans hlt')
    · exact .inl (heq' ▸ hlt)
    · exact .inl (heq ▸ hlt')
    · exact .inr ⟨heq.trans heq', hle.trans hle'⟩⟩
  have hsorted := pairwise_insertionSort r pairs
  have hdistinct := (perm_insertionSort r pairs).nodup_iff.2 hnodup
  refine (hsorted.and hdistinct).imp fun {p q} hpq => ?_
  obtain ⟨hlt | ⟨heq, hle⟩, hne⟩ := hpq
  · exact .inl hlt
  · exact .inr ⟨heq, lt_of_le_of_ne hle fun heq' => hne (Prod.ext heq heq')⟩

/-- **Articulation points are exact; bridges are exact when every undirected edge is on a
cycle.** -/
theorem bridges_exact_iff (hg : AssertIndexesConsistent g)
    (hbuild : build W g config scope = some proj) :
    ∃ turns, ∀ more ≥ turns, ∃ points pairs, proj.articulationPoints more = some points ∧
      proj.bridges more = some pairs ∧ ListsCuts (proj.multigraph g config) points ∧
        (ListsBridges (proj.multigraph g config) pairs ↔
          UndirectedOnCycles g (proj.multigraph g config)) := by
  have h := assertIndexesConsistent_iff.1 hg
  refine ⟨∑ v ∈ Finset.range proj.rowIndex.len, ((neighborsOf proj v).length + 1),
    fun more hmore => ?_⟩
  obtain ⟨s, hs, hnodup, hbridges, hap⟩ := pass_exact (neighborsOf_sym hbuild)
    (fun u v huv => (neighborsOf_lt hbuild huv).2) hmore
  have hpass : proj.lowlinkPass more = some ((s.ap.image proj.rowIndex.nodeIdOf).sort,
      (s.bridges.map fun e => (proj.rowIndex.nodeIdOf e.1, proj.rowIndex.nodeIdOf e.2)).insertionSort
        fun x y => x.1 < y.1 ∨ x.1 = y.1 ∧ x.2 ≤ y.2) := by
    rw [lowlinkPass, hs]
    rfl
  have hlt : ∀ {a b}, (a, b) ∈ s.bridges → a < proj.rowIndex.len ∧ b < proj.rowIndex.len := by
    intro a b hab
    have hcount := ((hbridges a b).1 hab).2.1
    exact neighborsOf_lt hbuild (count_pos_iff.1 (hcount ▸ Nat.one_pos))
  -- the pass is about dense numbers, which are in the order of the ids they stand for
  refine ⟨_, _, congrArg (Option.map fst) hpass, congrArg (Option.map snd) hpass,
    ⟨?_, fun x => ?_⟩, listsBridges_iff ?_ fun x y => ?_⟩
  · exact (Finset.sortedLT_sort _).pairwise
  · rw [Finset.mem_sort, Finset.mem_image]
    constructor
    · rintro ⟨a, ha, rfl⟩
      have hcut := (hap a).1 ha
      obtain ⟨b, -, hb, -⟩ := hcut.neighbors (neighborsOf_adj_symm hbuild)
      exact (cut_iff h hbuild (neighborsOf_lt hbuild hb).1).1 hcut
    · intro hcut
      obtain ⟨a, ha, rfl⟩ := exists_dense hcut.1
      exact ⟨a, (hap a).2 ((cut_iff h hbuild ha).2 hcut), rfl⟩
  · refine sorted_of_nodup (List.Nodup.map_on ?_ hnodup)
    rintro ⟨a, b⟩ hab ⟨a', b'⟩ hab' heq
    obtain ⟨ha, hb⟩ := Prod.mk.inj heq
    rw [nodeIdOf_inj (hlt hab).1 (hlt hab').1 ha, nodeIdOf_inj (hlt hab).2 (hlt hab').2 hb]
  · rw [List.mem_insertionSort, List.mem_map]
    constructor
    · rintro ⟨⟨a, b⟩, hab, heq⟩
      obtain ⟨rfl, rfl⟩ := Prod.mk.inj heq
      obtain ⟨ha, hb⟩ := hlt hab
      obtain ⟨hless, hbridge⟩ := (hbridges a b).1 hab
      exact ⟨(proj.rowIndex.nodeIdOf_lt ha hb).2 hless, (bridge_iff h hbuild ha hb hless.ne).1 hbridge⟩
    · rintro ⟨hless, e, he, hrest⟩
      obtain ⟨a, ha, rfl⟩ := exists_dense he.2.1
      obtain ⟨b, hb, rfl⟩ := exists_dense he.2.2.1
      have hab := (proj.rowIndex.nodeIdOf_lt ha hb).1 hless
      exact ⟨(a, b), (hbridges a b).2 ⟨hab, (bridge_iff h hbuild ha hb hab.ne).2 ⟨e, he, hrest⟩⟩, rfl⟩

end Exact

end GraphProjection

namespace Sample

open GraphProjection

variable (d : EdgeDirectionality)

/-- Nodes 1 and 2 with one edge between them. -/
def pairGraph : SeleneGraph :=
  (Attempt.each DataOperation.run
    [.createNode ∅ ∅, .createNode ∅ ∅, .createMixedEdge "K" 1 2 d ∅]
    (beginWrite ⟨.empty, ⟨1, 1⟩⟩)).2.graph

theorem pairGraph_derived : Derived (pairGraph d) ∅ ∅ :=
  (intact_empty.operations (eq_ok_of_isOk (by cases d <;> decide))).derived

theorem pairGraph_edge {d : EdgeDirectionality} {e : EdgeId} {s : EdgeSlot}
    (h : (pairGraph d).edge e = some s) : e = 1 ∧ s.directionality = d := by
  obtain ⟨hid, row, hrow⟩ := (pairGraph_derived d).liveEdge_iff.1 (edge_eq_some.1 h)
  have hstore : (pairGraph d).edgeStore.map (fun s => (s.id, s.directionality)) = [(1, d)] := by
    cases d <;> decide
  have hmem := mem_map_of_mem (f := fun s : EdgeSlot => (s.id, s.directionality))
    (mem_of_getElem? (SeleneGraph.edgeAt_eq_some _ |>.1 hrow).1)
  rw [hstore, mem_singleton] at hmem
  exact ⟨hid.symm.trans (Prod.mk.inj hmem).1, (Prod.mk.inj hmem).2⟩

/-- Every edge weighs nothing. -/
def unitWeights : Weighing Unit := ⟨(), fun _ => (), fun _ => (), fun _ => ()⟩

def everything : ProjectionConfig := ⟨[], [], none⟩

def pairIndex : RowIndex := ⟨[1, 2], by decide⟩

theorem pairGraph_rowIndex :
    RowIndex.fromCandidates (candidates (pairGraph d) everything none) = pairIndex := by
  have hcandidates : candidates (pairGraph d) everything none = [1, 2].toFinset := by
    cases d <;> decide
  have hsort : (candidates (pairGraph d) everything none).sort = [1, 2] := by
    rw [hcandidates]
    exact toFinset_sort (· ≤ ·) (by decide) |>.2 (by decide)
  simp only [RowIndex.fromCandidates, hsort, pairIndex]

theorem pairGraph_out :
    (buildCsrOut unitWeights (pairGraph d) pairIndex [] none).isSome = true := by
  cases d <;> decide

theorem pairGraph_in : (transposeCsrIn unitWeights pairIndex
    ((buildCsrOut unitWeights (pairGraph d) pairIndex [] none).get (pairGraph_out d))).isSome =
      true := by
  cases d <;> decide

/-- The projection of everything. -/
def pairProjection : GraphProjection Unit where
  rowIndex := pairIndex
  outCsr := (buildCsrOut unitWeights (pairGraph d) pairIndex [] none).get (pairGraph_out d)
  inCsr := (transposeCsrIn unitWeights pairIndex _).get (pairGraph_in d)
  valid := buildCsrOut_valid (some_get (pairGraph_out d)).symm

theorem build_pairGraph :
    build unitWeights (pairGraph d) everything none = some (pairProjection d) :=
  build_of_csr (pairGraph_rowIndex d) (some_get (pairGraph_out d)).symm
    (some_get (pairGraph_in d)).symm

/-- **An undirected bridge is not found.** -/
theorem undirected_bridge_missed : AssertIndexesConsistent (pairGraph .undirected) ∧ ∃ proj,
    build unitWeights (pairGraph .undirected) everything none = some proj ∧
      proj.bridges 9 = some [] ∧
        (proj.multigraph (pairGraph .undirected) everything).Between 1 1 2 ∧
          (proj.multigraph (pairGraph .undirected) everything).IsBridge 1 := by
  have hedge : ((pairGraph .undirected).edge 1).map (fun s => (s.source, s.target)) = some (1, 2) := by
    decide
  obtain ⟨s, hs, hends⟩ := map_eq_some_iff.1 hedge
  have hbetween : ((pairProjection .undirected).multigraph (pairGraph .undirected) everything).Between
      1 1 2 := by
    rw [between_iff (by decide) (by decide)]
    exact ⟨s, hs, .inl rfl, .inl (Prod.mk.inj hends)⟩
  refine ⟨assertIndexesConsistent_iff.2 (pairGraph_derived _), pairProjection .undirected,
    build_pairGraph _, by decide, hbetween, ?_⟩
  -- without the edge nothing is joined
  refine (isBridge_iff finite_nodes hbetween).2 fun hway => ?_
  obtain heq | ⟨z, ⟨e, he, -⟩, -⟩ := hway.cases_head
  · cases heq
  · obtain ⟨s', hs', -⟩ := he.1
    exact he.2 (pairGraph_edge hs').1

/-- A directed edge instead. -/
theorem bridges_exact_of_directed : AssertIndexesConsistent (pairGraph .directed) ∧ ∃ proj,
    build unitWeights (pairGraph .directed) everything none = some proj ∧
      ∃ turns, ∀ more ≥ turns, ∃ points pairs, proj.articulationPoints more = some points ∧
        proj.bridges more = some pairs ∧
          ListsCuts (proj.multigraph (pairGraph .directed) everything) points ∧
            ListsBridges (proj.multigraph (pairGraph .directed) everything) pairs := by
  have hg := assertIndexesConsistent_iff.2 (pairGraph_derived .directed)
  obtain ⟨turns, hturns⟩ := bridges_exact_iff hg (build_pairGraph .directed)
  refine ⟨hg, pairProjection .directed, build_pairGraph _, turns, fun more hmore => ?_⟩
  obtain ⟨points, pairs, hpoints, hpairs, hcuts, hiff⟩ := hturns more hmore
  refine ⟨points, pairs, hpoints, hpairs, hcuts, hiff.2 fun e he hd => ?_⟩
  obtain ⟨s, hs, -⟩ := he
  rw [Directionality, hs, map_some, (pairGraph_edge hs).2] at hd
  cases hd

end Sample

end Selene.Algo
