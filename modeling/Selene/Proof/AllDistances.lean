import Selene.Algo.Distances
import Selene.Proof.ShortestPath

/-!
# The distances are exact

The sweep from a source is Dijkstra's search towards a node that is not there: it makes the same
turns and forgets the predecessors (`sweep_of_search`). Without negative weights it therefore ends
with the distance of every node that can be reached. `apsp` joins these lists, one after the other or
from the slots that the tasks of the pool have filled (`collectSlots_ok`).
-/

namespace Selene.Algo

open Selene.Graph Walk Attempt Function List Option

namespace Sssp

open Dijkstra

variable {K : Type} [LinearOrder K] [AddCommGroup K] {proj : GraphProjection K}

/-- The search without the predecessors. -/
def forget (s : Search K) : Sweep K := ⟨s.dist, s.heap⟩

variable (idx : RowIndex) (u : ℕ) (cost : K)

theorem relax_forget {nb : ProjNeighbor K} (hw : 0 ≤ nb.weight)
    (s : Search K) : ∃ s', Dijkstra.relax idx u cost s nb = .ok s' ∧
      relax idx u cost (forget s) nb = .ok (forget s') := by
  cases hd : s.dist nb.dense with
  | none =>
    simp only [Dijkstra.relax, relax, forget, if_neg (not_lt.2 hw), hd, improves, if_true]
    exact ⟨_, rfl, rfl⟩
  | some d =>
    simp only [Dijkstra.relax, relax, forget, if_neg (not_lt.2 hw), hd, improves, decide_eq_true_eq]
    by_cases hlt : cost + nb.weight < d
    · rw [if_pos hlt, if_pos hlt]
      exact ⟨_, rfl, rfl⟩
    · rw [if_neg hlt, if_neg hlt]
      -- a tie moves the predecessor only
      split
      · exact ⟨_, rfl, rfl⟩
      · split <;> exact ⟨_, rfl, rfl⟩

theorem relaxAll_forget {nbs : List (ProjNeighbor K)}
    (hw : ∀ nb ∈ nbs, 0 ≤ nb.weight) (s : Search K) :
    ∃ s', nbs.foldlM (Dijkstra.relax idx u cost) s = .ok s' ∧
      nbs.foldlM (relax idx u cost) (forget s) = .ok (forget s') := by
  induction nbs generalizing s with
  | nil => exact ⟨s, rfl, rfl⟩
  | cons nb nbs ih =>
    rw [forall_mem_cons] at hw
    obtain ⟨s1, hone, hone'⟩ := relax_forget idx u cost hw.1 s
    obtain ⟨s', hrest, hrest'⟩ := ih hw.2 s1
    refine ⟨s', ?_, ?_⟩
    · rw [foldlM_cons, hone]
      exact hrest
    · rw [foldlM_cons, hone']
      exact hrest'

variable [IsOrderedAddMonoid K] {a : ℕ}

section

variable (hw : ∀ u < proj.rowIndex.len, ∀ nb ∈ proj.outNeighborsDense u, 0 ≤ nb.weight)
include hw

/-- **The sweep makes the turns of the search** towards a node outside the projection. -/
theorem sweep_of_search {turns : ℕ} :
    ∀ {taken : Finset ℕ} {floor : K} {s : Search K} {r : Except (PathfindingError K) (Search K)},
      Inv proj a taken (leaving proj taken) floor s →
      search proj proj.rowIndex.len turns s = some r →
      ∃ s', r = .ok s' ∧ sweep proj turns ⟨s.dist, s.heap⟩ = some (.ok s'.dist) := by
  induction turns with
  | zero =>
    intro taken floor s r _ hrun
    cases hrun
  | succ turns ih =>
    intro taken floor s r h hrun
    have hlen : s.dist proj.rowIndex.len = none := by
      cases hd : s.dist proj.rowIndex.len with
      | none => rfl
      | some d => exact absurd (h.known _ d hd) (lt_irrefl _)
    rw [search] at hrun
    split at hrun
    · next hnone =>
      obtain rfl := Option.some.inj hrun
      simp only [sweep, hnone]
      exact ⟨s, rfl, rfl⟩
    · next dense cost rest hpop =>
      simp only [sweep, hpop]
      split at hrun
      · next hstale =>
        rw [if_pos hstale]
        refine ih (h.drop hpop fun d hd => ?_) hrun
        rw [hd] at hstale
        exact exceeds_some.1 hstale
      · next hfresh =>
        have hdist := h.popped hpop hfresh
        rw [if_neg hfresh]
        rw [hlen, if_neg (by simp [exceeds])] at hrun
        obtain ⟨s1, hok, hok'⟩ := relaxAll_forget proj.rowIndex dense cost
          (hw dense (h.known dense cost hdist)) { s with heap := rest }
        rw [hok] at hrun
        simp only [forget] at hok'
        simp only [hok']
        obtain ⟨h1, -⟩ := (h.take hpop hdist).relaxAll (Finset.mem_insert_self _ _) hdist
          (fun nb hnb => hnb) hok
        rw [leaving_insert] at h1
        exact ih h1 hrun

omit hw in
theorem dist_iff {t v : ℕ} {d : K} {taken : Finset ℕ} {s : Search K} (h : Ended proj a t taken s)
    (ht : s.dist t = none) : s.dist v = some d ↔ IsDist (Edge proj) a v d := by
  have hbound : ∀ c, Reaches (Edge proj) a v c → ∃ e, s.dist v = some e ∧ e ≤ c := by
    intro c hc
    rcases h.bound hc with he | ⟨e, he, -⟩
    · exact he
    · rw [ht] at he
      cases he
  constructor
  · intro hv
    refine ⟨h.reached v d hv, fun c hc => ?_⟩
    obtain ⟨e, he, hle⟩ := hbound c hc
    rw [hv] at he
    rwa [Option.some.inj he]
  · rintro ⟨hr, hmin⟩
    obtain ⟨e, he, hle⟩ := hbound d hr
    rw [he, le_antisymm hle (hmin e (h.reached v e he))]

theorem sweep_spec (ha : a < proj.rowIndex.len) :
    ∃ turns dist, (∀ more, turns ≤ more → sweep proj more
        ⟨update (fun _ => none) a (some 0), [⟨a, 0⟩]⟩ = some (.ok dist)) ∧
      ∀ v d, dist v = some d ↔ IsDist (Edge proj) a v d := by
  obtain ⟨turns, r, hsearch, hended⟩ := search_spec proj ha proj.rowIndex.len
  obtain ⟨s, rfl, -⟩ := sweep_of_search hw (Dijkstra.Inv.begin ha) (hsearch turns le_rfl)
  obtain ⟨taken, hend⟩ := hended s rfl
  refine ⟨turns, s.dist, fun more hmore => ?_, fun v d => dist_iff hend ?_⟩
  · obtain ⟨s', hs', hrun⟩ := sweep_of_search hw (Dijkstra.Inv.begin ha) (hsearch more hmore)
    obtain rfl := Except.ok.inj hs'
    exact hrun
  · cases hd : s.dist proj.rowIndex.len with
    | none => rfl
    | some d => exact absurd (hend.known _ d hd) (lt_irrefl _)

end

end Sssp

namespace GraphProjection

variable {K : Type} [LinearOrder K] [AddCommGroup K] {proj : GraphProjection K}

/-- The least total weight of the walks between two nodes. -/
def Distance (proj : GraphProjection K) (source target : NodeId) (cost : K) : Prop :=
  (∃ nodes, proj.IsWalk proj.Arc source target nodes cost) ∧
    ∀ nodes c, proj.IsWalk proj.Arc source target nodes c → cost ≤ c

theorem distance_iff {source target : NodeId} {cost : K} (h : proj.contains source = true) :
    proj.Distance source target cost ↔ IsDist proj.Arc source target cost := by
  refine and_congr (isWalk_iff h) ⟨fun hmin c hc => ?_, fun hmin nodes c hw => ?_⟩
  · obtain ⟨nodes, hw⟩ := (isWalk_iff h).2 hc
    exact hmin nodes c hw
  · exact hmin c ((isWalk_iff h).1 ⟨nodes, hw⟩)

variable [IsOrderedAddMonoid K]

theorem sssp_spec (h : ∀ u w v, proj.Arc u w v → 0 ≤ w) (source : NodeId) :
    ∃ turns rows, (∀ more, turns ≤ more → sssp proj source more = some (.ok rows)) ∧
      rows.Pairwise (fun x y => x.1 < y.1) ∧ ∀ v c, (v, c) ∈ rows ↔ proj.Distance source v c := by
  cases hdense : proj.rowIndex.denseOfNode source with
  | none =>
    refine ⟨0, [], fun more _ => by rw [sssp, hdense], .nil, fun v c => ?_⟩
    refine iff_of_false not_mem_nil ?_
    rintro ⟨⟨nodes, hw⟩, -⟩
    have := hw.1
    rw [GraphProjection.contains, hdense] at this
    cases this
  | some a =>
    have hcontains : proj.contains source = true := by
      rw [GraphProjection.contains, hdense]
      rfl
    obtain ⟨a', ha, hda, hname⟩ := denseOfNode_isSome hcontains
    obtain rfl := mem_unique hdense hda
    have hw : ∀ u < proj.rowIndex.len, ∀ nb ∈ proj.outNeighborsDense u, 0 ≤ nb.weight :=
      fun u hu nb hnb => h _ _ _ (arc_iff.2 ⟨u, nb.dense, rfl, rfl, hu, nb, hnb, rfl, rfl⟩)
    have hfree : proj.FreeArc = proj.Arc := by
      funext u w v
      exact propext ⟨And.right, fun he => ⟨h u w v he, he⟩⟩
    have hemb := @embedding K _ _ proj
    rw [hfree] at hemb
    obtain ⟨turns, dist, hrun, hdist⟩ := Sssp.sweep_spec hw ha
    refine ⟨turns, (range proj.rowIndex.len).filterMap fun d => (dist d).map fun cost =>
      (proj.rowIndex.nodeIdOf d, cost), fun more hmore => ?_, ?_, fun v c => ?_⟩
    · rw [sssp, hdense]
      dsimp only
      rw [hrun more hmore]
      rfl
    · rw [pairwise_filterMap]
      refine pairwise_lt_range.imp_of_mem fun {d e} hd he hlt x hx y hy => ?_
      obtain ⟨-, -, rfl⟩ := map_eq_some_iff.1 hx
      obtain ⟨-, -, rfl⟩ := map_eq_some_iff.1 hy
      exact (proj.rowIndex.nodeIdOf_lt (mem_range.1 hd) (mem_range.1 he)).2 hlt
    · rw [distance_iff hcontains, ← hname, mem_filterMap]
      constructor
      · rintro ⟨d, hd, hsome⟩
        obtain ⟨c', hc', heq⟩ := map_eq_some_iff.1 hsome
        cases heq
        exact (hemb.isDist ha (mem_range.1 hd)).2 ((hdist d c).1 hc')
      · intro hv
        obtain ⟨d, hd, rfl, -⟩ := hemb.lift ha hv.1
        refine ⟨d, mem_range.2 hd, map_eq_some_iff.2 ⟨c, ?_, rfl⟩⟩
        exact (hdist d c).2 ((hemb.isDist ha hd).1 hv)

/-! ## All pairs -/

omit [IsOrderedAddMonoid K] in
theorem apspCollect_ok {turns : ℕ} {targets : NodeId → List (NodeId × K)} {l : List NodeId}
    (h : ∀ s ∈ l, sssp proj s turns = some (.ok (targets s))) :
    apspCollect proj turns l = some (.ok (l.flatMap fun s => apspRows s (targets s))) := by
  induction l with
  | nil => rfl
  | cons s l ih =>
    rw [forall_mem_cons] at h
    rw [apspCollect, h.1]
    rw [ih h.2]
    rfl

/-- However the tasks end, every source finds its rows in its own slot. -/
theorem collectSlots_ok {ε ρ : Type} {task : NodeId → Option (Except ε ρ)} {rows : NodeId → ρ}
    {ended : List NodeId} (h : ∀ s ∈ ended, task s = some (.ok (rows s))) (slots : NodeId → Option ρ) :
    collectSlots task ended slots =
      some (.ok fun s => if s ∈ ended then some (rows s) else slots s) := by
  induction ended generalizing slots with
  | nil => simp [collectSlots]
  | cons source ended ih =>
    rw [forall_mem_cons] at h
    rw [collectSlots, h.1]
    refine (ih h.2 _).trans (congrArg (fun f => some (Except.ok f)) (funext fun s => ?_))
    by_cases hs : s = source <;> simp [hs]

/-- The rows of all sources. -/
def allRows (proj : GraphProjection K) (targets : NodeId → List (NodeId × K)) :
    List (NodeId × NodeId × K) :=
  proj.rowIndex.nodeIds.flatMap fun s => apspRows s (targets s)

/-- **The distances are exact**: `sssp` lists the nodes that can be reached, by their ids, and `apsp`
the pairs of distinct nodes, whatever the policy and however the tasks of the pool end. -/
theorem distances_exact (proj : GraphProjection K) (h : ∀ u w v, proj.Arc u w v → 0 ≤ w) :
    (∀ source, ∃ turns rows, (∀ more, turns ≤ more → sssp proj source more = some (.ok rows)) ∧
      rows.Pairwise (fun x y => x.1 < y.1) ∧ ∀ v c, (v, c) ∈ rows ↔ proj.Distance source v c) ∧
    (∀ limit < proj.rowIndex.len, ∀ policy ended turns, apsp proj ⟨limit, policy⟩ ended turns =
      some (.error (.tooLarge proj.rowIndex.len limit))) ∧
    ∃ turns triples, (∀ limit, proj.rowIndex.len ≤ limit → ∀ policy ended more,
        ended.Perm proj.rowIndex.nodeIds → turns ≤ more →
        apsp proj ⟨limit, policy⟩ ended more = some (.ok triples)) ∧
      triples.Pairwise (fun x y => x.1 < y.1 ∨ x.1 = y.1 ∧ x.2.1 < y.2.1) ∧
      ∀ s t c, (s, t, c) ∈ triples ↔ s ≠ t ∧ proj.Distance s t c := by
  refine ⟨sssp_spec h, fun limit hlimit policy ended turns => if_pos hlimit, ?_⟩
  choose f targets hrun hsorted hmem using sssp_spec h
  -- turns that are enough for every source
  have hdone : ∀ more, proj.rowIndex.nodeIds.toFinset.sup f ≤ more → ∀ s ∈ proj.rowIndex.nodeIds,
      sssp proj s more = some (.ok (targets s)) :=
    fun more hmore s hs => hrun s more ((Finset.le_sup (mem_toFinset.2 hs)).trans hmore)
  have hascending : (allRows proj targets).Pairwise
      fun x y => x.1 < y.1 ∨ x.1 = y.1 ∧ x.2.1 < y.2.1 := by
    refine pairwise_flatMap.2 ⟨fun s _ => ?_, proj.rowIndex.ascending.imp fun hlt x hx y hy => ?_⟩
    · refine pairwise_map.2 (((hsorted s).filter _).imp fun hlt => ?_)
      exact .inr ⟨rfl, hlt⟩
    · obtain ⟨-, -, rfl⟩ := mem_map.1 hx
      obtain ⟨-, -, rfl⟩ := mem_map.1 hy
      exact .inl hlt
  have hsort : apspSort (allRows proj targets) = allRows proj targets := by
    refine mergeSort_of_pairwise (hascending.imp fun hlt => ?_)
    rw [decide_eq_true_eq]
    exact hlt.imp_right fun hlt => ⟨hlt.1, hlt.2.le⟩
  refine ⟨proj.rowIndex.nodeIds.toFinset.sup f, allRows proj targets,
    fun limit hlimit policy ended more hperm hmore => ?_, hascending, fun s t c => ?_⟩
  · have hseq : apspSequential proj more = some (.ok (allRows proj targets)) := by
      rw [apspSequential, apspCollect_ok (hdone more hmore)]
      exact congrArg (fun l => some (Except.ok l)) hsort
    have hpar : apspParallel proj ended more = some (.ok (allRows proj targets)) := by
      have htask : ∀ s ∈ ended, apspTask proj more s = some (.ok (apspRows s (targets s))) := by
        intro s hs
        rw [apspTask, hdone more hmore s (hperm.mem_iff.1 hs)]
        rfl
      -- the slots of all sources are filled, and `flatten` reads them in the order of the sources
      have hslots : proj.rowIndex.nodeIds.filterMap (fun s =>
          if s ∈ ended then some (apspRows s (targets s)) else none) =
          proj.rowIndex.nodeIds.map fun s => apspRows s (targets s) := by
        rw [← filterMap_eq_map]
        exact filterMap_congr fun s hs => if_pos (hperm.mem_iff.2 hs)
      rw [apspParallel, collectSlots_ok htask]
      simp only [Option.map_some, Except.map, hslots]
      exact congrArg (fun l => some (Except.ok l)) hsort
    rw [apsp, if_neg (not_lt.2 hlimit)]
    cases policy with
    | sequential => rw [hseq]; rfl
    | auto => rw [hpar]; rfl
    | threads n hn => rw [hpar]; rfl
  · rw [allRows, mem_flatMap]
    constructor
    · rintro ⟨s', -, hrow⟩
      obtain ⟨x, hin, heq⟩ := mem_map.1 hrow
      obtain ⟨hin, hne⟩ := mem_filter.1 hin
      cases heq
      exact ⟨of_decide_eq_true hne, (hmem _ x.1 x.2).1 hin⟩
    · rintro ⟨hne, hdist⟩
      obtain ⟨nodes, hw⟩ := hdist.1
      obtain ⟨d, -, hd, -⟩ := denseOfNode_isSome hw.1
      refine ⟨s, mem_of_getElem? (proj.rowIndex.denseOfNode_eq_some.1 hd), ?_⟩
      refine mem_map.2 ⟨(t, c), mem_filter.2 ⟨(hmem s t c).2 hdist, ?_⟩, rfl⟩
      exact decide_eq_true hne

/-- On the triangle with weights 1, 0 and 2. -/
theorem distances_of_triangle : ∃ turns triples,
    (∀ policy more, turns ≤ more → apsp (Sample.triangle 1 0 2) ⟨3, policy⟩ [3, 1, 2] more =
      some (.ok triples)) ∧
      ∀ s t c, (s, t, c) ∈ triples ↔ s ≠ t ∧ (Sample.triangle 1 0 2).Distance s t c := by
  have hnonneg : ∀ u w v, (Sample.triangle 1 0 2).Arc u w v → 0 ≤ w := by
    intro u w v harc
    have := Sample.triangle_arc harc
    omega
  obtain ⟨-, -, turns, triples, hrun, -, hmem⟩ := distances_exact (Sample.triangle 1 0 2) hnonneg
  exact ⟨turns, triples, fun policy more => hrun 3 le_rfl policy _ more (by decide), hmem⟩

end GraphProjection

end Selene.Algo
