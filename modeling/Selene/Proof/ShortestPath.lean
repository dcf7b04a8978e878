import Selene.Algo.Dijkstra
import Selene.Base.Walk
import Mathlib.Algebra.BigOperators.Group.Finset.Basic
import Mathlib.Algebra.Order.Group.Int

/-!
# What Dijkstra's search returns

The search is exact on the edges it looks at (`Inv`), and it always ends (`search_returns`). The
predecessor of a node is the least one from which a cheapest walk comes (`Ended.prev_iff`), so the
reconstruction follows `Walk.Back` and ends exactly when that does not return to a node.
-/

namespace Selene.Algo

open Selene.Graph Walk Attempt Function List Option Except

/-- A projected edge between two nodes. -/
def GraphProjection.Arc {K : Type} (proj : GraphProjection K) (u : NodeId) (w : K) (v : NodeId) :
    Prop :=
  ∃ nb ∈ proj.outNeighbors u, nb.nodeId = v ∧ nb.weight = w

namespace GraphProjection

variable {K : Type} {proj : GraphProjection K}

theorem denseOfNode_isSome {node : NodeId} (h : proj.contains node = true) :
    ∃ d, d < proj.rowIndex.len ∧ proj.rowIndex.denseOfNode node = some d ∧
      proj.rowIndex.nodeIdOf d = node := by
  obtain ⟨d, hd⟩ := isSome_iff_exists.1 h
  have hat := proj.rowIndex.denseOfNode_eq_some.1 hd
  exact ⟨d, (List.getElem?_eq_some_iff.1 hat).1, hd, proj.rowIndex.nodeIdOf_eq hat⟩

theorem arc_iff {x y : NodeId} {w : K} : proj.Arc x w y ↔ ∃ u v, x = proj.rowIndex.nodeIdOf u ∧
    y = proj.rowIndex.nodeIdOf v ∧ u < proj.rowIndex.len ∧
      ∃ nb ∈ proj.outNeighborsDense u, nb.dense = v ∧ nb.weight = w := by
  constructor
  · rintro ⟨nb, hnb, rfl, rfl⟩
    unfold outNeighbors at hnb
    split at hnb
    · cases hnb
    · next u hu =>
      have hat := proj.rowIndex.denseOfNode_eq_some.1 hu
      have hnb' := proj.rowIndex.denseOfNode_eq_some.1 (proj.valid u nb hnb)
      exact ⟨u, nb.dense, (proj.rowIndex.nodeIdOf_eq hat).symm,
        (proj.rowIndex.nodeIdOf_eq hnb').symm, (List.getElem?_eq_some_iff.1 hat).1, nb, hnb, rfl, rfl⟩
  · rintro ⟨u, v, rfl, rfl, hu, nb, hnb, rfl, rfl⟩
    have hat : proj.rowIndex.nodeIds[u]? = some (proj.rowIndex.nodeIdOf u) := by
      rw [RowIndex.nodeIdOf, getD_eq_getElem?_getD, getElem?_eq_getElem hu]
      rfl
    have hnb' := proj.rowIndex.denseOfNode_eq_some.1 (proj.valid u nb hnb)
    refine ⟨nb, ?_, (proj.rowIndex.nodeIdOf_eq hnb').symm, rfl⟩
    unfold outNeighbors
    rw [proj.rowIndex.denseOfNode_eq_some.2 hat]
    exact hnb

end GraphProjection

namespace Dijkstra

section Heap

variable {K : Type} [LinearOrder K]

theorem pop_eq_none {heap : List (DijkstraEntry K)} : pop heap = none ↔ heap = [] := by
  cases heap with
  | nil => exact ⟨fun _ => rfl, fun _ => rfl⟩
  | cons e heap =>
    refine iff_of_false (fun h => ?_) (cons_ne_nil e heap)
    rw [pop] at h
    split at h
    · cases h
    · split at h <;> cases h

theorem pop_spec {heap rest : List (DijkstraEntry K)} {e : DijkstraEntry K}
    (h : pop heap = some (e, rest)) : heap.Perm (e :: rest) ∧ ∀ x ∈ heap, e.cost ≤ x.cost := by
  induction heap generalizing e rest with
  | nil => cases h
  | cons a heap ih =>
    rw [pop] at h
    split at h
    · next hnone =>
      obtain ⟨rfl, rfl⟩ := Prod.mk.inj (Option.some.inj h)
      rw [pop_eq_none.1 hnone]
      exact ⟨.refl _, fun x hx => by rw [mem_singleton.1 hx]⟩
    · next first rest' hsome =>
      obtain ⟨hperm, hmin⟩ := ih hsome
      split at h
      · next hbefore =>
        obtain ⟨rfl, rfl⟩ := Prod.mk.inj (Option.some.inj h)
        refine ⟨(hperm.cons a).trans (.swap _ _ _), fun x hx => ?_⟩
        rcases mem_cons.1 hx with rfl | hx
        · rcases hbefore with hlt | ⟨heq, -⟩
          · exact hlt.le
          · exact heq.le
        · exact hmin x hx
      · next hbefore =>
        obtain ⟨rfl, rfl⟩ := Prod.mk.inj (Option.some.inj h)
        refine ⟨.refl _, fun x hx => ?_⟩
        have hfirst : a.cost ≤ first.cost := by
          by_contra hlt
          exact hbefore (.inl (not_le.1 hlt))
        rcases mem_cons.1 hx with rfl | hx
        · exact le_rfl
        · exact hfirst.trans (hmin x hx)

theorem exceeds_some {cost d : K} : exceeds cost (some d) = true ↔ d < cost := by
  simp [exceeds]

end Heap

variable {K : Type} {proj : GraphProjection K}

theorem dense_lt {u : ℕ} {nb : ProjNeighbor K} (h : nb ∈ proj.outNeighborsDense u) :
    nb.dense < proj.rowIndex.len :=
  (List.getElem?_eq_some_iff.1 ((proj.rowIndex.denseOfNode_eq_some).1 (proj.valid u nb h))).1

/-- The edges out of the popped nodes. -/
def leaving (proj : GraphProjection K) (taken : Finset ℕ) (u : ℕ) (w : K) (v : ℕ) : Prop :=
  u ∈ taken ∧ ∃ nb ∈ proj.outNeighborsDense u, nb.weight = w ∧ nb.dense = v

theorem leaving_insert (taken : Finset ℕ) (dense : ℕ) : (fun x w y => leaving proj taken x w y ∨
    x = dense ∧ ∃ nb ∈ proj.outNeighborsDense dense, nb.weight = w ∧ nb.dense = y) =
      leaving proj (insert dense taken) := by
  funext x w y
  simp only [leaving, Finset.mem_insert, eq_iff_iff]
  constructor
  · rintro (⟨hx, hnb⟩ | ⟨rfl, hnb⟩)
    · exact ⟨.inr hx, hnb⟩
    · exact ⟨.inl rfl, hnb⟩
  · rintro ⟨rfl | hx, hnb⟩
    · exact .inr ⟨rfl, hnb⟩
    · exact .inl ⟨hx, hnb⟩

variable [AddCommGroup K]

theorem start_dist {a v : ℕ} {d : K} : (start a : Search K).dist v = some d ↔ v = a ∧ d = 0 := by
  unfold Dijkstra.start
  dsimp only
  by_cases hva : v = a
  · rw [hva, update_self]
    simp [eq_comm]
  · simp [hva]

variable [LinearOrder K]

/-- The edges without a negative weight, by the numbers of the nodes. -/
def Edge (proj : GraphProjection K) (u : ℕ) (w : K) (v : ℕ) : Prop :=
  u < proj.rowIndex.len ∧ 0 ≤ w ∧ ∃ nb ∈ proj.outNeighborsDense u, nb.dense = v ∧ nb.weight = w

/-- **The invariant of the search** from `a`. The nodes in `taken` were popped, at costs up to `floor`;
`done` are the edges that were looked at. -/
structure Inv (proj : GraphProjection K) (a : ℕ) (taken : Finset ℕ) (done : ℕ → K → ℕ → Prop)
    (floor : K) (s : Search K) : Prop where
  source : s.dist a = some 0
  origin : s.prev a = none
  reached : ∀ v d, s.dist v = some d → Reaches (Edge proj) a v d
  known : ∀ v d, s.dist v = some d → v < proj.rowIndex.len
  settled : ∀ u ∈ taken, ∃ d, s.dist u = some d ∧ d ≤ floor
  relaxed : ∀ u w v, done u w v → Edge proj u w v ∧ u ∈ taken ∧
    ∀ d, s.dist u = some d → ∃ e, s.dist v = some e ∧ e ≤ d + w
  queued : ∀ v d, s.dist v = some d → v ∈ taken ∨ ⟨v, d⟩ ∈ s.heap
  entries : ∀ e ∈ s.heap, floor ≤ e.cost ∧ ∃ d, s.dist e.dense = some d ∧ d ≤ e.cost
  linked : ∀ v d, v ≠ a → s.dist v = some d → ∃ p, s.prev v = some p
  pred : ∀ v p, s.prev v = some p → ∃ w d, done p w v ∧ s.dist p = some d ∧ s.dist v = some (d + w)
  least : ∀ u w v d, v ≠ a → done u w v → s.dist u = some d → s.dist v = some (d + w) →
    ∃ p, s.prev v = some p ∧ p ≤ u

variable {a : ℕ} {taken : Finset ℕ} {done : ℕ → K → ℕ → Prop} {floor : K} {s s' : Search K}

theorem Inv.start (ha : a < proj.rowIndex.len) : Inv proj a ∅ (fun _ _ _ => False) 0 (start a) where
  source := start_dist.2 ⟨rfl, rfl⟩
  origin := rfl
  reached v d hv := by
    obtain ⟨rfl, rfl⟩ := start_dist.1 hv
    exact .refl
  known v d hv := by
    obtain ⟨rfl, -⟩ := start_dist.1 hv
    exact ha
  settled u hu := absurd hu (Finset.notMem_empty u)
  relaxed _ _ _ hf := hf.elim
  queued v d hv := by
    obtain ⟨rfl, rfl⟩ := start_dist.1 hv
    exact .inr mem_cons_self
  entries e he := by
    obtain rfl := mem_singleton.1 he
    exact ⟨le_rfl, 0, start_dist.2 ⟨rfl, rfl⟩, le_rfl⟩
  linked v d hva hv := absurd (start_dist.1 hv).1 hva
  pred v p hp := by cases hp
  least _ _ _ _ _ hf := hf.elim

theorem Inv.begin (ha : a < proj.rowIndex.len) :
    Inv proj a ∅ (leaving proj ∅) (0 : K) (Dijkstra.start a) := by
  have hsame : leaving proj ∅ = fun _ _ _ => False := by
    funext u w v
    simp [leaving]
  rw [hsame]
  exact .start ha

/-! ## One neighbour -/

section Relax

variable {u : ℕ} {nb : ProjNeighbor K}

/-- The edges looked at, with one more. -/
def extended (done : ℕ → K → ℕ → Prop) (u : ℕ) (nb : ProjNeighbor K) (x : ℕ) (w : K) (y : ℕ) : Prop :=
  done x w y ∨ x = u ∧ nb.weight = w ∧ nb.dense = y

section

variable (h : Inv proj a taken done floor s) (hu : u ∈ taken) (hdist : s.dist u = some floor)
  (hnb : nb ∈ proj.outNeighborsDense u) (hw : 0 ≤ nb.weight)
include h hu hdist hnb hw

theorem Inv.tie (heq : s.dist nb.dense = some (floor + nb.weight)) {p : ℕ} (hp : s.prev nb.dense = some p)
    (hup : u < p) :
    Inv proj a taken (extended done u nb) floor
      { s with prev := update s.prev nb.dense (some u) } := by
  set v := nb.dense with hv
  have hva : v ≠ a := by
    intro hva
    rw [hva, h.origin] at hp
    cases hp
  have hedge : Edge proj u nb.weight v := ⟨h.known u floor hdist, hw, nb, hnb, rfl, rfl⟩
  refine { h with origin := ?_, relaxed := ?_, linked := ?_, pred := ?_, least := ?_ } <;> dsimp only
  · rw [update_of_ne hva.symm, h.origin]
  · rintro x w y (hxy | ⟨rfl, rfl, rfl⟩)
    · exact h.relaxed x w y hxy
    · refine ⟨hedge, hu, fun d hd => ?_⟩
      rw [hdist] at hd
      cases hd
      exact ⟨_, heq, le_rfl⟩
  · intro y d hya hy
    by_cases hyv : y = v
    · subst hyv
      exact ⟨u, update_self ..⟩
    · obtain ⟨q, hq⟩ := h.linked y d hya hy
      exact ⟨q, by rw [update_of_ne hyv, hq]⟩
  · intro y q hq
    by_cases hyv : y = v
    · subst hyv
      rw [update_self] at hq
      obtain rfl := Option.some.inj hq
      exact ⟨nb.weight, floor, .inr ⟨rfl, rfl, rfl⟩, hdist, heq⟩
    · rw [update_of_ne hyv] at hq
      obtain ⟨w, d, hdone, hd, hy⟩ := h.pred y q hq
      exact ⟨w, d, .inl hdone, hd, hy⟩
  · rintro x w y d hya (hxy | ⟨rfl, rfl, rfl⟩) hx hy
    · obtain ⟨q, hq, hqx⟩ := h.least x w y d hya hxy hx hy
      by_cases hyv : y = v
      · subst hyv
        rw [hp] at hq
        obtain rfl := Option.some.inj hq
        exact ⟨u, update_self .., (hup.trans_le hqx).le⟩
      · exact ⟨q, by rw [update_of_ne hyv, hq], hqx⟩
    · exact ⟨x, update_self .., le_rfl⟩

theorem Inv.keep {d : K}
    (hd : s.dist nb.dense = some d) (hle : d ≤ floor + nb.weight)
    (hprev : ∀ p, s.prev nb.dense = some p → floor + nb.weight = d → p ≤ u) :
    Inv proj a taken (extended done u nb) floor s := by
  refine { h with relaxed := ?_, pred := ?_, least := ?_ }
  · rintro x w y (hxy | ⟨rfl, rfl, rfl⟩)
    · exact h.relaxed x w y hxy
    · refine ⟨⟨h.known _ floor hdist, hw, nb, hnb, rfl, rfl⟩, hu, fun e he => ?_⟩
      rw [hdist] at he
      cases he
      exact ⟨d, hd, hle⟩
  · intro y p hp
    obtain ⟨w, e, hdone, he, hy⟩ := h.pred y p hp
    exact ⟨w, e, .inl hdone, he, hy⟩
  · rintro x w y e hya (hxy | ⟨rfl, rfl, rfl⟩) hx hy
    · exact h.least x w y e hya hxy hx hy
    · rw [hdist] at hx
      cases hx
      rw [hd] at hy
      obtain ⟨p, hp⟩ := h.linked _ d hya hd
      exact ⟨p, hp, hprev p hp (Option.some.inj hy).symm⟩

end

theorem relaxAll_settled {nbs : List (ProjNeighbor K)} (cost : K) :
    ∀ {s : Search K}, (∀ nb ∈ nbs, ∃ e, s.dist nb.dense = some e ∧ e ≤ cost + nb.weight) →
      nbs.foldlM (Dijkstra.relax proj.rowIndex u cost) s = .ok s' → s'.heap = s.heap := by
  induction nbs with
  | nil =>
    intro s _ hrun
    obtain rfl := ok.inj hrun
    rfl
  | cons nb nbs ih =>
    intro s hsettled hrun
    rw [foldlM_cons, except_bind_ok] at hrun
    obtain ⟨s1, hone, hrest⟩ := hrun
    rw [forall_mem_cons] at hsettled
    obtain ⟨⟨e, he, hle⟩, hothers⟩ := hsettled
    -- only the predecessor may change
    have hkeep : s1.heap = s.heap ∧ s1.dist = s.dist := by
      unfold Dijkstra.relax at hone
      split at hone
      · cases hone
      · rw [he] at hone
        dsimp only at hone
        rw [if_neg (not_lt.2 hle)] at hone
        split at hone
        · obtain rfl := ok.inj hone
          exact ⟨rfl, rfl⟩
        · split at hone <;> obtain rfl := ok.inj hone <;> exact ⟨rfl, rfl⟩
    rw [← hkeep.1]
    refine ih (fun nb' hnb' => ?_) hrest
    rw [hkeep.2]
    exact hothers nb' hnb'

variable [IsOrderedAddMonoid K]

section

variable (h : Inv proj a taken done floor s)
include h

theorem Inv.nonneg {v : ℕ} {d : K} (hv : s.dist v = some d) : 0 ≤ d :=
  (h.reached v d hv).nonneg fun _ _ _ he => he.2.1

section

variable (hu : u ∈ taken) (hdist : s.dist u = some floor) (hnb : nb ∈ proj.outNeighborsDense u)
include hu hdist hnb

theorem Inv.improve (hw : 0 ≤ nb.weight)
    (hless : ∀ d, s.dist nb.dense = some d → floor + nb.weight < d) :
    Inv proj a taken (extended done u nb) floor
      { dist := update s.dist nb.dense (some (floor + nb.weight))
        prev := update s.prev nb.dense (some u)
        heap := ⟨nb.dense, floor + nb.weight⟩ :: s.heap } := by
  set v := nb.dense with hv
  have hfloor : 0 ≤ floor := h.nonneg hdist
  have hcost : floor ≤ floor + nb.weight := le_add_of_nonneg_right hw
  -- what was popped is not improved any more
  have htaken : ∀ x ∈ taken, x ≠ v := by
    rintro x hx rfl
    obtain ⟨d, hd, hle⟩ := h.settled _ hx
    exact absurd (hless d hd) (not_lt.2 (hle.trans hcost))
  have hva : v ≠ a := by
    intro hva
    rw [hva] at hless
    exact absurd (hless 0 h.source) (not_lt.2 (hfloor.trans hcost))
  have hold : ∀ x, x ≠ v → update s.dist v (some (floor + nb.weight)) x = s.dist x :=
    fun x hx => update_of_ne hx ..
  have huv : u ≠ v := htaken u hu
  have hedge : Edge proj u nb.weight v := ⟨h.known u floor hdist, hw, nb, hnb, rfl, rfl⟩
  -- a node that had a distance has one that is not larger
  have hshrink : ∀ y e, s.dist y = some e →
      ∃ e', update s.dist v (some (floor + nb.weight)) y = some e' ∧ e' ≤ e := by
    intro y e he
    by_cases hy : y = v
    · subst hy
      exact ⟨_, update_self .., (hless e he).le⟩
    · exact ⟨e, by rw [hold y hy, he], le_rfl⟩
  constructor <;> dsimp only
  · rw [hold a hva.symm, h.source]
  · rw [update_of_ne hva.symm, h.origin]
  · intro y d hy
    by_cases hyv : y = v
    · subst hyv
      rw [update_self] at hy
      rw [← Option.some.inj hy]
      exact (h.reached u floor hdist).step hedge
    · rw [hold y hyv] at hy
      exact h.reached y d hy
  · intro y d hy
    by_cases hyv : y = v
    · rw [hyv]
      exact dense_lt hnb
    · rw [hold y hyv] at hy
      exact h.known y d hy
  · intro x hx
    rw [hold x (htaken x hx)]
    exact h.settled x hx
  · rintro x w y (hxy | ⟨rfl, rfl, rfl⟩)
    · obtain ⟨he, hx, hle⟩ := h.relaxed x w y hxy
      refine ⟨he, hx, fun d hd => ?_⟩
      rw [hold x (htaken x hx)] at hd
      obtain ⟨e, hye, hed⟩ := hle d hd
      obtain ⟨e', he', hle'⟩ := hshrink y e hye
      exact ⟨e', he', hle'.trans hed⟩
    · refine ⟨hedge, hu, fun d hd => ?_⟩
      rw [hold x huv, hdist] at hd
      cases hd
      exact ⟨_, update_self .., le_rfl⟩
  · intro y d hy
    by_cases hyv : y = v
    · subst hyv
      rw [update_self] at hy
      rw [← Option.some.inj hy]
      exact .inr mem_cons_self
    · rw [hold y hyv] at hy
      exact (h.queued y d hy).imp_right (mem_cons_of_mem _)
  · intro e he
    rcases mem_cons.1 he with rfl | he
    · exact ⟨hcost, _, update_self .., le_rfl⟩
    · obtain ⟨hle, d, hd, hde⟩ := h.entries e he
      obtain ⟨d', hd', hle'⟩ := hshrink _ d hd
      exact ⟨hle, d', hd', hle'.trans hde⟩
  · intro y d hya hy
    by_cases hyv : y = v
    · subst hyv
      exact ⟨u, update_self ..⟩
    · rw [hold y hyv] at hy
      obtain ⟨p, hp⟩ := h.linked y d hya hy
      exact ⟨p, by rw [update_of_ne hyv, hp]⟩
  · intro y p hp
    by_cases hyv : y = v
    · subst hyv
      rw [update_self] at hp
      obtain rfl := Option.some.inj hp
      exact ⟨nb.weight, floor, .inr ⟨rfl, rfl, rfl⟩, by rw [hold u huv, hdist], update_self ..⟩
    · rw [update_of_ne hyv] at hp
      obtain ⟨w, d, hdone, hd, hy⟩ := h.pred y p hp
      have hpv := htaken p (h.relaxed p w y hdone).2.1
      exact ⟨w, d, .inl hdone, by rw [hold p hpv, hd], by rw [hold y hyv, hy]⟩
  · rintro x w y d hya (hxy | ⟨rfl, rfl, rfl⟩) hx hy
    · obtain ⟨-, hxt, hle⟩ := h.relaxed x w y hxy
      rw [hold x (htaken x hxt)] at hx
      by_cases hyv : y = v
      · -- the old ways to the neighbour cost more than the new one
        subst hyv
        rw [update_self] at hy
        obtain ⟨e, he, hed⟩ := hle d hx
        rw [← Option.some.inj hy] at hed
        exact absurd (hless e he) (not_lt.2 hed)
      · rw [hold y hyv] at hy
        obtain ⟨p, hp, hpx⟩ := h.least x w y d hya hxy hx hy
        exact ⟨p, by rw [update_of_ne hyv, hp], hpx⟩
    · exact ⟨x, update_self .., le_rfl⟩

theorem Inv.relax (hrun : relax proj.rowIndex u floor s nb = .ok s') :
    Inv proj a taken (extended done u nb) floor s' ∧ s'.dist u = some floor ∧
      s'.heap.length ≤ s.heap.length + 1 := by
  unfold Dijkstra.relax at hrun
  split at hrun
  · cases hrun
  · next hneg =>
    have hw : 0 ≤ nb.weight := not_lt.1 hneg
    -- the node itself keeps its distance
    have hself : ∀ d, s.dist nb.dense = some d → floor + nb.weight < d → nb.dense ≠ u := by
      rintro d hd hlt heq
      rw [heq, hdist] at hd
      cases hd
      exact absurd hlt (not_lt.2 (le_add_of_nonneg_right hw))
    dsimp only at hrun
    split at hrun
    · next hnone =>
      obtain rfl := ok.inj hrun
      have hne : u ≠ nb.dense := by
        intro heq
        rw [← heq, hdist] at hnone
        cases hnone
      refine ⟨h.improve hu hdist hnb hw fun d hd => ?_, ?_, by simp⟩
      · rw [hnone] at hd
        cases hd
      · exact (update_of_ne hne ..).trans hdist
    · next d hd =>
      split at hrun
      · next hlt =>
        obtain rfl := ok.inj hrun
        refine ⟨h.improve hu hdist hnb hw fun e he => ?_, ?_, by simp⟩
        · rw [hd] at he
          cases he
          exact hlt
        · exact (update_of_ne (hself d hd hlt).symm ..).trans hdist
      · next hge =>
        have hle : d ≤ floor + nb.weight := not_lt.1 hge
        split at hrun
        · next hnone =>
          obtain rfl := ok.inj hrun
          refine ⟨h.keep hu hdist hnb hw hd hle fun p hp => ?_, hdist, Nat.le_succ _⟩
          rw [hnone] at hp
          cases hp
        · next p hp =>
          split at hrun
          · next htie =>
            obtain rfl := ok.inj hrun
            refine ⟨h.tie hu hdist hnb hw ?_ hp htie.2, hdist, Nat.le_succ _⟩
            rw [hd, htie.1]
          · next htie =>
            obtain rfl := ok.inj hrun
            refine ⟨h.keep hu hdist hnb hw hd hle fun q hq heq => ?_, hdist, Nat.le_succ _⟩
            rw [hp] at hq
            cases hq
            exact not_lt.1 fun hlt => htie ⟨heq, hlt⟩

end

end

theorem Inv.relaxAll {nbs : List (ProjNeighbor K)} :
    ∀ {done : ℕ → K → ℕ → Prop} {s : Search K}, Inv proj a taken done floor s → u ∈ taken →
      s.dist u = some floor → (∀ nb ∈ nbs, nb ∈ proj.outNeighborsDense u) →
      nbs.foldlM (Dijkstra.relax proj.rowIndex u floor) s = .ok s' →
      Inv proj a taken (fun x w y => done x w y ∨ x = u ∧ ∃ nb ∈ nbs, nb.weight = w ∧ nb.dense = y)
        floor s' ∧ s'.heap.length ≤ s.heap.length + nbs.length := by
  induction nbs with
  | nil =>
    intro done s h _ _ _ hrun
    obtain rfl := ok.inj hrun
    refine ⟨?_, le_rfl⟩
    simpa using h
  | cons nb nbs ih =>
    intro done s h hu hdist hnbs hrun
    rw [foldlM_cons, except_bind_ok] at hrun
    obtain ⟨s1, hone, hrest⟩ := hrun
    rw [forall_mem_cons] at hnbs
    obtain ⟨h₁, hdist1, hlen1⟩ := h.relax hu hdist hnbs.1 hone
    obtain ⟨h2, hlen2⟩ := ih h₁ hu hdist1 hnbs.2 hrest
    refine ⟨?_, by rw [length_cons]; omega⟩
    have hsame : (fun x w y => extended done u nb x w y ∨
        x = u ∧ ∃ nb ∈ nbs, nb.weight = w ∧ nb.dense = y) =
        fun x w y => done x w y ∨ x = u ∧ ∃ nb' ∈ nb :: nbs, nb'.weight = w ∧ nb'.dense = y := by
      funext x w y
      simp only [extended, mem_cons, exists_eq_or_imp, eq_iff_iff]
      tauto
    rwa [hsame] at h2

end Relax

/-! ## The loop -/

section

variable (h : Inv proj a taken done floor s)
include h

section

variable {e : DijkstraEntry K} {rest : List (DijkstraEntry K)} (hpop : pop s.heap = some (e, rest))
include hpop

theorem Inv.drop (hstale : ∀ d, s.dist e.dense = some d → d < e.cost) :
    Inv proj a taken done floor { s with heap := rest } := by
  obtain ⟨hperm, -⟩ := pop_spec hpop
  refine { h with queued := ?_, entries := ?_ } <;> dsimp only
  · intro v d hv
    refine (h.queued v d hv).imp_right fun hmem => ?_
    rcases mem_cons.1 (hperm.mem_iff.1 hmem) with rfl | hmem
    · exact absurd (hstale d hv) (lt_irrefl _)
    · exact hmem
  · intro x hx
    exact h.entries x (hperm.mem_iff.2 (mem_cons_of_mem _ hx))

theorem Inv.popped (hfresh : ¬ exceeds e.cost (s.dist e.dense) = true) : s.dist e.dense = some e.cost := by
  obtain ⟨hperm, -⟩ := pop_spec hpop
  obtain ⟨-, d, hd, hle⟩ := h.entries e (hperm.mem_iff.2 mem_cons_self)
  rw [hd, exceeds_some, not_lt] at hfresh
  rw [hd, le_antisymm hle hfresh]

theorem Inv.take (hdist : s.dist e.dense = some e.cost) :
    Inv proj a (insert e.dense taken) done e.cost { s with heap := rest } := by
  obtain ⟨hperm, hmin⟩ := pop_spec hpop
  have hfloor : floor ≤ e.cost := (h.entries e (hperm.mem_iff.2 mem_cons_self)).1
  refine { h with settled := ?_, relaxed := ?_, queued := ?_, entries := ?_ } <;> dsimp only
  · intro u hu
    rcases Finset.mem_insert.1 hu with rfl | hu
    · exact ⟨e.cost, hdist, le_rfl⟩
    · obtain ⟨d, hd, hle⟩ := h.settled u hu
      exact ⟨d, hd, hle.trans hfloor⟩
  · intro u w v hdone
    obtain ⟨he, hu, hle⟩ := h.relaxed u w v hdone
    exact ⟨he, Finset.mem_insert_of_mem hu, hle⟩
  · intro v d hv
    rcases h.queued v d hv with htaken | hmem
    · exact .inl (Finset.mem_insert_of_mem htaken)
    · rcases mem_cons.1 (hperm.mem_iff.1 hmem) with rfl | hmem
      · exact .inl (Finset.mem_insert_self _ _)
      · exact .inr hmem
  · intro x hx
    have hx' := hperm.mem_iff.2 (mem_cons_of_mem _ hx)
    exact ⟨hmin x hx', (h.entries x hx').2⟩

end

end

/-- What the search leaves: every node up to the distance of the target was popped. -/
structure Ended (proj : GraphProjection K) (a t : ℕ) (taken : Finset ℕ) (s : Search K) : Prop where
  source : s.dist a = some 0
  origin : s.prev a = none
  reached : ∀ v d, s.dist v = some d → Reaches (Edge proj) a v d
  known : ∀ v d, s.dist v = some d → v < proj.rowIndex.len
  settled : ∀ u ∈ taken, ∃ d, s.dist u = some d
  relaxed : ∀ u w v, leaving proj taken u w v → 0 ≤ w ∧
    ∀ d, s.dist u = some d → ∃ e, s.dist v = some e ∧ e ≤ d + w
  linked : ∀ v d, v ≠ a → s.dist v = some d → ∃ p, s.prev v = some p
  pred : ∀ v p, s.prev v = some p →
    ∃ w d, leaving proj taken p w v ∧ s.dist p = some d ∧ s.dist v = some (d + w)
  least : ∀ u w v d, v ≠ a → leaving proj taken u w v → s.dist u = some d →
    s.dist v = some (d + w) → ∃ p, s.prev v = some p ∧ p ≤ u
  covers : ∀ v d, s.dist v = some d → (∀ c, s.dist t = some c → d ≤ c) → v ∈ taken

theorem Inv.ended (h : Inv proj a taken (leaving proj taken) floor s) {t : ℕ}
    (hheap : ∀ e ∈ s.heap, ∃ c, s.dist t = some c ∧ c < e.cost) (heap : List (DijkstraEntry K)) :
    Ended proj a t taken { s with heap } where
  source := h.source
  origin := h.origin
  reached := h.reached
  known := h.known
  settled u hu := by
    obtain ⟨d, hd, -⟩ := h.settled u hu
    exact ⟨d, hd⟩
  relaxed u w v hl := by
    obtain ⟨he, -, hle⟩ := h.relaxed u w v hl
    exact ⟨he.2.1, hle⟩
  linked := h.linked
  pred := h.pred
  least := h.least
  covers v d hv hbelow := by
    rcases h.queued v d hv with htaken | hmem
    · exact htaken
    · obtain ⟨c, hc, hlt⟩ := hheap _ hmem
      exact absurd (hbelow c hc) (not_le.2 hlt)

variable [IsOrderedAddMonoid K]

/-- **Every turn of the search.** Without an error it ends, and with what `Ended` says. -/
theorem Inv.search {t turns : ℕ} :
    ∀ {taken : Finset ℕ} {floor : K} {s : Search K} {r : Except (PathfindingError K) (Search K)},
      Inv proj a taken (leaving proj taken) floor s → search proj t turns s = some r →
      ∀ s', r = .ok s' → ∃ taken, Ended proj a t taken s' := by
  induction turns with
  | zero =>
    intro taken floor s r _ hrun
    cases hrun
  | succ turns ih =>
    intro taken floor s r h hrun s' hr
    rw [Dijkstra.search] at hrun
    split at hrun
    · next hnone =>
      obtain rfl := Option.some.inj hrun
      obtain rfl := ok.inj hr
      refine ⟨taken, h.ended (fun e he => ?_) s.heap⟩
      rw [pop_eq_none.1 hnone] at he
      cases he
    · next dense cost rest hpop =>
      split at hrun
      · next hstale =>
        refine ih (h.drop hpop fun d hd => ?_) hrun s' hr
        rw [hd] at hstale
        exact exceeds_some.1 hstale
      · next hfresh =>
        have hdist := h.popped hpop hfresh
        split at hrun
        · next hover =>
          obtain rfl := Option.some.inj hrun
          obtain rfl := ok.inj hr
          refine ⟨taken, h.ended (fun e he => ?_) rest⟩
          cases hc : s.dist t with
          | none =>
            rw [hc] at hover
            cases hover
          | some c =>
            rw [hc, exceeds_some] at hover
            exact ⟨c, rfl, hover.trans_le ((pop_spec hpop).2 e he)⟩
        · split at hrun
          · next e herror =>
            obtain rfl := Option.some.inj hrun
            cases hr
          · next s1 hok =>
            obtain ⟨h₁, -⟩ := (h.take hpop hdist).relaxAll (Finset.mem_insert_self _ _) hdist
              (fun nb hnb => hnb) hok
            rw [leaving_insert] at h₁
            exact ih h₁ hrun s' hr

/-! ## The search ends -/

/-- What is left to do: the entries, and the edges of the nodes not yet popped. -/
def remaining (proj : GraphProjection K) (taken : Finset ℕ) (s : Search K) : ℕ :=
  s.heap.length + ∑ d ∈ Finset.range proj.rowIndex.len \ taken, (proj.outNeighborsDense d).length

theorem Inv.search_returns {t turns : ℕ} :
    ∀ {taken : Finset ℕ} {floor : K} {s : Search K}, Inv proj a taken (leaving proj taken) floor s →
      remaining proj taken s < turns → ∃ r, Dijkstra.search proj t turns s = some r := by
  induction turns with
  | zero =>
    intro taken floor s _ hlt
    exact absurd hlt (Nat.not_lt_zero _)
  | succ turns ih =>
    intro taken floor s h hlt
    rw [Dijkstra.search]
    split
    · exact ⟨_, rfl⟩
    · next dense cost rest hpop =>
      have hlen : s.heap.length = rest.length + 1 := (pop_spec hpop).1.length_eq
      split
      · next hstale =>
        refine ih (h.drop hpop fun d hd => ?_) ?_
        · rw [hd] at hstale
          exact exceeds_some.1 hstale
        · rw [remaining] at hlt ⊢
          dsimp only
          omega
      · next hfresh =>
        have hdist := h.popped hpop hfresh
        split
        · exact ⟨_, rfl⟩
        · split
          · exact ⟨_, rfl⟩
          · next s1 hok =>
            have htake := h.take hpop hdist
            obtain ⟨h₁, hheap⟩ := htake.relaxAll (Finset.mem_insert_self _ _) hdist
              (fun nb hnb => hnb) hok
            rw [leaving_insert] at h₁
            refine ih h₁ ?_
            rw [remaining] at hlt ⊢
            dsimp only at hheap ⊢
            by_cases htaken : dense ∈ taken
            · -- popped again: all its neighbours are known at their distances
              have hsame : s1.heap = rest := by
                refine relaxAll_settled cost (fun nb hnb => ?_) hok
                obtain ⟨-, -, hle⟩ := h.relaxed dense nb.weight nb.dense ⟨htaken, nb, hnb, rfl, rfl⟩
                exact hle cost hdist
              rw [hsame, Finset.insert_eq_of_mem htaken]
              omega
            · have hmem : dense ∈ Finset.range proj.rowIndex.len \ taken :=
                Finset.mem_sdiff.2 ⟨Finset.mem_range.2 (h.known dense cost hdist), htaken⟩
              have hsum := Finset.add_sum_erase _ (fun d => (proj.outNeighborsDense d).length) hmem
              rw [← Finset.sdiff_insert] at hsum
              omega

omit [IsOrderedAddMonoid K] in
theorem search_mono {t turns more : ℕ} {r : Except (PathfindingError K) (Search K)}
    (hle : turns ≤ more) : ∀ {s : Search K}, Dijkstra.search proj t turns s = some r →
      Dijkstra.search proj t more s = some r := by
  induction turns generalizing more with
  | zero =>
    intro s h
    cases h
  | succ turns ih =>
    intro s h
    obtain ⟨more, rfl⟩ := Nat.exists_eq_add_of_le' (Nat.one_le_of_lt hle)
    rw [Dijkstra.search] at h ⊢
    split at h
    · exact h
    · split at h
      · next hstale =>
        rw [if_pos hstale]
        exact ih (by omega) h
      · next hfresh =>
        rw [if_neg hfresh]
        split at h
        · next hover =>
          rw [if_pos hover]
          exact h
        · next hwithin =>
          rw [if_neg hwithin]
          split at h
          · exact h
          · exact ih (by omega) h

/-! ## Distances and predecessors -/

namespace Ended

variable {t : ℕ} {c d dt w : K} {u v p : ℕ}

section

variable (h : Ended proj a t taken s)
include h

theorem bound (hr : Reaches (Edge proj) a v c) :
    (∃ d, s.dist v = some d ∧ d ≤ c) ∨ ∃ dt, s.dist t = some dt ∧ dt < c := by
  induction hr with
  | refl => exact .inl ⟨0, h.source, le_rfl⟩
  | @step u v c w _ he ih =>
    obtain ⟨-, hw, nb, hnb, hv, hweight⟩ := he
    rcases ih with ⟨d, hd, hle⟩ | ⟨dt, hdt, hlt⟩
    · by_cases hbelow : ∀ dt, s.dist t = some dt → d ≤ dt
      · have hu := h.covers u d hd hbelow
        obtain ⟨-, hrel⟩ := h.relaxed u w v ⟨hu, nb, hnb, hweight, hv⟩
        obtain ⟨e, he, hed⟩ := hrel d hd
        exact .inl ⟨e, he, hed.trans (by gcongr)⟩
      · push Not at hbelow
        obtain ⟨dt, hdt, hlt⟩ := hbelow
        exact .inr ⟨dt, hdt, (hlt.trans_le hle).trans_le (le_add_of_nonneg_right hw)⟩
    · exact .inr ⟨dt, hdt, hlt.trans_le (le_add_of_nonneg_right hw)⟩

theorem isDist (hdt : s.dist t = some dt) (hv : s.dist v = some d)
    (hle : d ≤ dt) : IsDist (Edge proj) a v d := by
  refine ⟨h.reached v d hv, fun c hc => ?_⟩
  rcases h.bound hc with ⟨e, he, hec⟩ | ⟨e, he, hec⟩
  · rw [hv] at he
    rwa [Option.some.inj he]
  · rw [hdt] at he
    rw [← Option.some.inj he] at hec
    exact hle.trans hec.le

theorem of_isDist (hdt : s.dist t = some dt)
    (hv : IsDist (Edge proj) a v d) (hle : d ≤ dt) : s.dist v = some d := by
  rcases h.bound hv.1 with ⟨e, he, hed⟩ | ⟨e, he, hed⟩
  · rw [he, le_antisymm hed (hv.2 e (h.reached v e he))]
  · rw [hdt] at he
    rw [← Option.some.inj he] at hed
    exact absurd hle (not_le.2 hed)

/-- **The predecessor** of a node up to the target is the least from which a cheapest walk comes. -/
theorem prev_iff (hdt : s.dist t = some dt) (hv : s.dist v = some d)
    (hle : d ≤ dt) : s.prev v = some p ↔ Back (Edge proj) a v p := by
  have hforward : ∀ p, s.prev v = some p → Back (Edge proj) a v p := by
    intro p hp
    have hva : v ≠ a := by
      rintro rfl
      rw [h.origin] at hp
      cases hp
    obtain ⟨w, dp, hleave, hdp, hvd⟩ := h.pred v p hp
    have hw := (h.relaxed p w v hleave).1
    obtain ⟨hpt, nb, hnb, hweight, hdense⟩ := hleave
    rw [hv] at hvd
    have hd := Option.some.inj hvd
    have hpd : dp ≤ dt := (le_add_of_nonneg_right hw).trans (hd ▸ hle)
    refine ⟨hva, ⟨w, dp, ⟨h.known p dp hdp, hw, nb, hnb, hdense, hweight⟩, h.isDist hdt hdp hpd,
      hd ▸ h.isDist hdt hv hle⟩, ?_⟩
    rintro u ⟨w', du, ⟨-, hw', nb', hnb', hdense', hweight'⟩, hu, hvu⟩
    -- the other predecessor was popped as well
    have hsum : d = du + w' := (h.isDist hdt hv hle).unique hvu
    have hdu : du ≤ dt := (le_add_of_nonneg_right hw').trans (hsum ▸ hle)
    have hdist := h.of_isDist hdt hu hdu
    have hut := h.covers u du hdist fun c hc => by
      rw [hdt] at hc
      rwa [← Option.some.inj hc]
    obtain ⟨q, hq, hqu⟩ := h.least u w' v du hva ⟨hut, nb', hnb', hweight', hdense'⟩ hdist
      (by rw [hv, hsum])
    rw [hp] at hq
    rwa [Option.some.inj hq]
  refine ⟨hforward p, fun hback => ?_⟩
  obtain ⟨q, hq⟩ := h.linked v d hback.1 hv
  rw [hq, (hforward q hq).unique hback]

end

section

variable (h : Ended proj a t taken s)
include h

omit [IsOrderedAddMonoid K] in
theorem prev_dist (hv : s.dist v = some d) (hp : s.prev v = some p) :
    ∃ w e, Edge proj p w v ∧ s.dist p = some e ∧ d = e + w := by
  obtain ⟨w, e, hleave, he, hvd⟩ := h.pred v p hp
  have hw := (h.relaxed p w v hleave).1
  obtain ⟨-, nb, hnb, hweight, hdense⟩ := hleave
  rw [hv] at hvd
  exact ⟨w, e, ⟨h.known p e he, hw, nb, hnb, hdense, hweight⟩, he, Option.some.inj hvd⟩

/-- **A path that is reconstructed** is a walk of the distance, back to the source. -/
theorem reconstruct_sound (hdt : s.dist t = some dt) {turns : ℕ} :
    ∀ {cur : ℕ} {d c : K} {rest l : List ℕ}, s.dist cur = some d → d ≤ dt →
      Joined (Edge proj) (cur :: rest) c →
      reconstruct a s.prev turns cur (cur :: rest) = some l →
      Joined (Edge proj) l (d + c) ∧ l.head? = some a ∧ l.getLast? = (cur :: rest).getLast? ∧
        Relation.ReflTransGen (Back (Edge proj) a) cur a := by
  induction turns with
  | zero =>
    intro cur d c rest l _ _ _ hrun
    cases hrun
  | succ turns ih =>
    intro cur d c rest l hcur hle hjoined hrun
    rw [reconstruct] at hrun
    split at hrun
    · next heq =>
      subst heq
      obtain rfl := Option.some.inj hrun
      rw [h.source] at hcur
      rw [← Option.some.inj hcur, zero_add]
      exact ⟨hjoined, rfl, rfl, .refl⟩
    · split at hrun
      · cases hrun
      · next p hp =>
        obtain ⟨w, e, hedge, he, hsum⟩ := h.prev_dist hcur hp
        have hed : e ≤ dt := (le_add_of_nonneg_right hedge.2.1).trans (hsum ▸ hle)
        obtain ⟨hl, hhead, hlast, hback⟩ := ih he hed (.cons hedge hjoined) hrun
        rw [← add_assoc, ← hsum] at hl
        refine ⟨hl, hhead, hlast, .head ((h.prev_iff hdt hcur hle).1 hp) hback⟩

theorem reconstruct_returns (hdt : s.dist t = some dt)
    (hout : BacksOut (Edge proj) a t) {turns : ℕ} :
    ∀ (visited : Finset ℕ) {cur : ℕ} {path : List ℕ} {d : K},
      visited ⊆ Finset.range proj.rowIndex.len →
      (∀ y ∈ visited, Relation.TransGen (Back (Edge proj) a) y cur) →
      Relation.ReflTransGen (Back (Edge proj) a) t cur → s.dist cur = some d → d ≤ dt →
      proj.rowIndex.len < turns + visited.card →
      ∃ l, reconstruct a s.prev turns cur path = some l := by
  induction turns with
  | zero =>
    intro visited cur path d hsub _ _ _ _ hlt
    have := Finset.card_le_card hsub
    rw [Finset.card_range] at this
    omega
  | succ turns ih =>
    intro visited cur path d hsub hvisited hreach hcur hle hlt
    rw [reconstruct]
    split
    · exact ⟨path, rfl⟩
    · next hne =>
      obtain ⟨p, hp⟩ := h.linked cur d hne hcur
      rw [hp]
      obtain ⟨w, e, hedge, he, hsum⟩ := h.prev_dist hcur hp
      have hed : e ≤ dt := (le_add_of_nonneg_right hedge.2.1).trans (hsum ▸ hle)
      have hback := (h.prev_iff hdt hcur hle).1 hp
      have hfresh : cur ∉ visited := fun hmem => hout cur hreach (hvisited cur hmem)
      refine ih (insert cur visited) ?_ ?_ (hreach.tail hback) he hed ?_
      · exact Finset.insert_subset (Finset.mem_range.2 (h.known cur d hcur)) hsub
      · intro y hy
        rcases Finset.mem_insert.1 hy with rfl | hy
        · exact .single hback
        · exact (hvisited y hy).tail hback
      · rw [Finset.card_insert_of_notMem hfresh]
        omega

omit [IsOrderedAddMonoid K] in
theorem unreachable (ht : s.dist t = none) {E : ℕ → K → ℕ → Prop}
    (hE : ∀ u w v, E u w v → ∃ nb ∈ proj.outNeighborsDense u, nb.weight = w ∧ nb.dense = v) :
    ∀ c, ¬ Reaches E a t c := by
  have hall : ∀ v c, Reaches E a v c → ∃ d, s.dist v = some d := by
    intro v c hr
    induction hr with
    | refl => exact ⟨0, h.source⟩
    | step _ he ih =>
      obtain ⟨d, hd⟩ := ih
      have hu := h.covers _ d hd fun c hc => by
        rw [ht] at hc
        cases hc
      obtain ⟨e, he', -⟩ := (h.relaxed _ _ _ ⟨hu, hE _ _ _ he⟩).2 d hd
      exact ⟨e, he'⟩
  intro c hr
  obtain ⟨d, hd⟩ := hall t c hr
  rw [ht] at hd
  cases hd

end

end Ended

omit [AddCommGroup K] [LinearOrder K] [IsOrderedAddMonoid K] in
theorem reconstruct_mono {prev : ℕ → Option ℕ} {turns more : ℕ} (hle : turns ≤ more) :
    ∀ {cur : ℕ} {path l : List ℕ}, reconstruct a prev turns cur path = some l →
      reconstruct a prev more cur path = some l := by
  induction turns generalizing more with
  | zero =>
    intro cur path l h
    cases h
  | succ turns ih =>
    intro cur path l h
    obtain ⟨more, rfl⟩ := Nat.exists_eq_add_of_le' (Nat.one_le_of_lt hle)
    rw [reconstruct] at h ⊢
    split at h
    · next hcur =>
      rw [if_pos hcur]
      exact h
    · next hcur =>
      rw [if_neg hcur]
      split at h
      · cases h
      · exact ih (by omega) h

theorem search_spec (proj : GraphProjection K) (ha : a < proj.rowIndex.len) (t : ℕ) :
    ∃ turns r, (∀ more, turns ≤ more → Dijkstra.search proj t more (start a) = some r) ∧
      ∀ s, r = .ok s → ∃ taken, Ended proj a t taken s := by
  have hinv := Inv.begin ha
  obtain ⟨r, hr⟩ := hinv.search_returns (t := t) (Nat.lt_succ_self _)
  exact ⟨_, r, fun more hmore => search_mono hmore hr, hinv.search hr⟩

end Dijkstra

/-! ## The result -/

namespace GraphProjection

open Dijkstra

variable {K : Type} [LinearOrder K] [AddCommGroup K] (proj : GraphProjection K)

/-- A projected edge that has no negative weight. -/
def FreeArc (u : NodeId) (w : K) (v : NodeId) : Prop := 0 ≤ w ∧ proj.Arc u w v

/-- A walk along the edges `E`, by its nodes, and its total weight. -/
def IsWalk (E : NodeId → K → NodeId → Prop) (source target : NodeId) (nodes : List NodeId)
    (cost : K) : Prop :=
  proj.contains source = true ∧ nodes.head? = some source ∧ nodes.getLast? = some target ∧
    Joined E nodes cost

/-- What a shortest path search has to return: nothing when the target cannot be reached, and
otherwise a walk of least cost. -/
def Shortest (source target : NodeId) : Option (PathResult K) → Prop
  | none => ∀ nodes cost, ¬ proj.IsWalk proj.Arc source target nodes cost
  | some result => proj.IsWalk proj.Arc source target result.nodes result.cost ∧
      ∀ nodes cost, proj.IsWalk proj.Arc source target nodes cost → result.cost ≤ cost

/-- No walk over a negative weight is cheaper than all walks without one. -/
def NegativeNeverPays (source target : NodeId) : Prop :=
  ∀ nodes cost, proj.IsWalk proj.Arc source target nodes cost →
    ∃ nodes' cost', proj.IsWalk proj.FreeArc source target nodes' cost' ∧ cost' ≤ cost

variable {proj}

omit [LinearOrder K] in
theorem isWalk_iff {E : NodeId → K → NodeId → Prop} {source target : NodeId} {cost : K}
    (hsource : proj.contains source = true) :
    (∃ nodes, proj.IsWalk E source target nodes cost) ↔ Reaches E source target cost := by
  rw [reaches_iff]
  constructor
  · rintro ⟨nodes, -, hhead, hlast, hjoined⟩
    exact ⟨nodes, hjoined, hhead, hlast⟩
  · rintro ⟨nodes, hjoined, hhead, hlast⟩
    exact ⟨nodes, hsource, hhead, hlast, hjoined⟩

theorem embedding : Embedding (Edge proj) proj.FreeArc (· < proj.rowIndex.len)
    proj.rowIndex.nodeIdOf where
  nodes := by
    rintro u w v ⟨hu, -, nb, hnb, rfl, -⟩
    exact ⟨hu, dense_lt hnb⟩
  edge := by
    intro x w y
    rw [FreeArc, arc_iff]
    constructor
    · rintro ⟨hw, u, v, rfl, rfl, hu, hnb⟩
      exact ⟨u, v, rfl, rfl, hu, hw, hnb⟩
    · rintro ⟨u, v, rfl, rfl, hu, hw, hnb⟩
      exact ⟨hw, u, v, rfl, rfl, hu, hnb⟩
  lt := proj.rowIndex.nodeIdOf_lt

omit [LinearOrder K] [AddCommGroup K] in
theorem embedding_all : Embedding (fun u w v => u < proj.rowIndex.len ∧
    ∃ nb ∈ proj.outNeighborsDense u, nb.dense = v ∧ nb.weight = w) proj.Arc (· < proj.rowIndex.len)
    proj.rowIndex.nodeIdOf where
  nodes := by
    rintro u w v ⟨hu, nb, hnb, rfl, -⟩
    exact ⟨hu, dense_lt hnb⟩
  edge := arc_iff
  lt := proj.rowIndex.nodeIdOf_lt

omit [LinearOrder K] [AddCommGroup K] in
theorem Arc.contains {u v : NodeId} {w : K} (h : proj.Arc u w v) :
    proj.contains u = true ∧ proj.contains v = true := by
  obtain ⟨nb, hnb, rfl, -⟩ := h
  unfold outNeighbors at hnb
  split at hnb
  · cases hnb
  · next d hd =>
    refine ⟨by rw [GraphProjection.contains, hd]; rfl, ?_⟩
    rw [GraphProjection.contains, proj.valid d nb hnb]
    rfl

omit [LinearOrder K] in
theorem reaches_start {E : NodeId → K → NodeId → Prop} (hE : ∀ u w v, E u w v → proj.Arc u w v)
    {source x : NodeId} {c : K} (h : Reaches E source x c) :
    x = source ∨ proj.contains source = true ∧ proj.contains x = true := by
  induction h with
  | refl => exact .inl rfl
  | step _ he ih =>
    obtain ⟨hu, hv⟩ := (hE _ _ _ he).contains
    rcases ih with rfl | ih
    · exact .inr ⟨hu, hv⟩
    · exact .inr ⟨ih.1, hv⟩

theorem Back.contains {source u v : NodeId} (h : Back proj.FreeArc source v u) :
    proj.contains source = true ∧ proj.contains v = true := by
  obtain ⟨w, d, he, hd, -⟩ := h.2.1
  refine ⟨?_, he.2.contains.2⟩
  rcases reaches_start (fun _ _ _ he => he.2) hd.1 with rfl | hin
  · exact he.2.contains.1
  · exact hin.1

theorem backsOut_of_not {source target : NodeId}
    (h : ∀ u, ¬ Back proj.FreeArc source target u) : BacksOut proj.FreeArc source target := by
  intro v hv hloop
  rcases Relation.ReflTransGen.cases_head hv with rfl | ⟨x, hx, -⟩
  · obtain ⟨x, hx, -⟩ := Relation.TransGen.head'_iff.1 hloop
    exact h x hx
  · exact h x hx

theorem dijkstra_of_not {source target : NodeId} {turns : ℕ}
    (h : ¬ proj.contains source = true ∨ ¬ proj.contains target = true) :
    dijkstra proj source target turns = some (.ok none) := by
  unfold dijkstra
  split
  · next hsource htarget =>
    rw [GraphProjection.contains, GraphProjection.contains, hsource, htarget] at h
    simp at h
  · rfl

variable [IsOrderedAddMonoid K]

/-- What is returned after the search. -/
def outcome (proj : GraphProjection K) (a t turns : ℕ) :
    Except (PathfindingError K) (Search K) → Option (Except (PathfindingError K) (Option (PathResult K)))
  | .error e => some (.error e)
  | .ok s =>
    match s.dist t with
    | none => some (.ok none)
    | some total =>
      (reconstruct a s.prev turns t [t]).map fun path =>
        .ok (some ⟨path.map proj.rowIndex.nodeIdOf, total⟩)

theorem dijkstra_iff_of_dense {source target : NodeId} {a t : ℕ} (ha : a < proj.rowIndex.len)
    (ht : t < proj.rowIndex.len) (hsource : proj.rowIndex.denseOfNode source = some a)
    (htarget : proj.rowIndex.denseOfNode target = some t) (hne : source ≠ target)
    (h : ∀ turns e, dijkstra proj source target turns ≠ some (.error e)) :
    (∃ turns r, dijkstra proj source target turns = some (.ok r) ∧ proj.Shortest source target r) ↔
      proj.NegativeNeverPays source target ∧ BacksOut proj.FreeArc source target := by
  have hcontains : proj.contains source = true := by
    rw [GraphProjection.contains, hsource]
    rfl
  have hname : proj.rowIndex.nodeIdOf a = source :=
    proj.rowIndex.nodeIdOf_eq (proj.rowIndex.denseOfNode_eq_some.1 hsource)
  have htname : proj.rowIndex.nodeIdOf t = target :=
    proj.rowIndex.nodeIdOf_eq (proj.rowIndex.denseOfNode_eq_some.1 htarget)
  have hback : BacksOut proj.FreeArc source target ↔ BacksOut (Edge proj) a t := by
    rw [← hname, ← htname]
    exact embedding.backsOut ha ht
  have hfree : ∀ c, Reaches proj.FreeArc source target c ↔ Reaches (Edge proj) a t c := by
    intro c
    rw [← hname, ← htname]
    exact embedding.reaches ha ht
  obtain ⟨turns, r, hsearch, hended⟩ := search_spec proj ha t
  -- every run that returns has this search in it
  have hrun : ∀ more, turns ≤ more → dijkstra proj source target more =
      outcome proj a t more r := by
    intro more hmore
    unfold dijkstra
    rw [hsource, htarget]
    dsimp only
    rw [if_neg hne, hsearch more hmore]
    cases r <;> rfl
  cases r with
  | error e => exact absurd (hrun turns le_rfl) (h turns e)
  | ok s =>
    obtain ⟨taken, hend⟩ := hended s rfl
    unfold outcome at hrun
    dsimp only at hrun
    cases hdist : s.dist t with
    | none =>
      rw [hdist] at hrun
      have hun : ∀ c, ¬ Reaches proj.Arc source target c := by
        intro c hc
        rw [← hname, ← htname, embedding_all.reaches ha ht] at hc
        refine hend.unreachable hdist (fun u w v he => ?_) c hc
        obtain ⟨-, nb, hnb, hdense, hweight⟩ := he
        exact ⟨nb, hnb, hweight, hdense⟩
      have hnone : ∀ nodes c, ¬ proj.IsWalk proj.Arc source target nodes c :=
        fun nodes c hw => hun c ((isWalk_iff hcontains).1 ⟨nodes, hw⟩)
      refine iff_of_true ⟨turns, none, hrun turns le_rfl, hnone⟩ ⟨?_, ?_⟩
      · intro nodes c hw
        exact absurd hw (hnone nodes c)
      · refine backsOut_of_not fun u hu => ?_
        obtain ⟨w, d, -, -, hd⟩ := hu.2.1
        exact hun _ (hd.1.mono fun _ _ _ he => he.2)
    | some dt =>
      rw [hdist] at hrun
      have hdt := hend.isDist hdist hdist le_rfl
      rw [hback]
      constructor
      · rintro ⟨turns1, r1, hr1, hshort⟩
        -- the number of turns was enough for the search
        have hpath : ∃ path, reconstruct a s.prev turns1 t [t] = some path ∧
            r1 = some ⟨path.map proj.rowIndex.nodeIdOf, dt⟩ := by
          unfold dijkstra at hr1
          rw [hsource, htarget] at hr1
          dsimp only at hr1
          rw [if_neg hne] at hr1
          cases hs1 : Dijkstra.search proj t turns1 (start a) with
          | none =>
            rw [hs1] at hr1
            cases hr1
          | some r' =>
            have hsame := search_mono (le_max_right turns turns1) hs1
            rw [hsearch _ (le_max_left _ _)] at hsame
            rw [hs1, ← Option.some.inj hsame] at hr1
            dsimp only at hr1
            rw [hdist] at hr1
            obtain ⟨path, hpath, heq⟩ := map_eq_some_iff.1 hr1
            exact ⟨path, hpath, (ok.inj heq).symm⟩
        obtain ⟨path, hpath, rfl⟩ := hpath
        obtain ⟨-, -, -, hchain⟩ := hend.reconstruct_sound hdist hdist le_rfl (.single t) hpath
        refine ⟨fun nodes c hw => ?_, backsOut_of_chain hchain⟩
        obtain ⟨nodes', hw'⟩ := (isWalk_iff hcontains).2 ((hfree dt).2 hdt.1)
        exact ⟨nodes', dt, hw', hshort.2 nodes c hw⟩
      · rintro ⟨hpays, hout⟩
        have hreturns : ∃ path, reconstruct a s.prev (proj.rowIndex.len + 1) t [t] = some path :=
          hend.reconstruct_returns hdist hout ∅ (Finset.empty_subset _)
            (fun y hy => absurd hy (Finset.notMem_empty y)) .refl hdist le_rfl (by simp)
        obtain ⟨path, hpath⟩ := hreturns
        obtain ⟨hjoined, hhead, hlast, -⟩ :=
          hend.reconstruct_sound hdist hdist le_rfl (.single t) hpath
        rw [add_zero] at hjoined
        refine ⟨max turns (proj.rowIndex.len + 1), some ⟨path.map proj.rowIndex.nodeIdOf, dt⟩, ?_, ?_,
          ?_⟩
        · rw [hrun _ (le_max_left _ _)]
          rw [reconstruct_mono (le_max_right _ _) hpath]
          rfl
        · refine ⟨hcontains, ?_, ?_, ?_⟩
          · rw [head?_map, hhead, ← hname]
            rfl
          · rw [getLast?_map, hlast, ← htname]
            rfl
          · have hpositive := embedding.joined hjoined
            exact hpositive.mono fun _ _ _ he => he.2
        · intro nodes c hw
          obtain ⟨nodes', c', hw', hle⟩ := hpays nodes c hw
          exact (hdt.2 c' ((hfree c').1 ((isWalk_iff hcontains).1 ⟨nodes', hw'⟩))).trans hle

/-- **Dijkstra's search.** Where it meets no negative weight, it returns a shortest path, or nothing
when there is none, exactly when no walk over a negative weight is cheaper than all without one and
going back from the target to the least nodes of cheapest walks does not return to a node. -/
theorem dijkstra_shortest_iff (proj : GraphProjection K) (source target : NodeId)
    (h : ∀ turns e, dijkstra proj source target turns ≠ some (.error e)) :
    (∃ turns r, dijkstra proj source target turns = some (.ok r) ∧ proj.Shortest source target r) ↔
      proj.NegativeNeverPays source target ∧ BacksOut proj.FreeArc source target := by
  by_cases hsource : proj.contains source = true
  · by_cases htarget : proj.contains target = true
    · obtain ⟨a, ha, hda, -⟩ := denseOfNode_isSome hsource
      obtain ⟨t, ht, hdt, -⟩ := denseOfNode_isSome htarget
      -- the source alone is answered without a search
      by_cases hne : source = target
      · subst hne
        have hself : proj.IsWalk proj.FreeArc source source [source] 0 :=
          ⟨hsource, rfl, rfl, .single source⟩
        have hrun : ∀ turns, dijkstra proj source source turns = some (.ok (some ⟨[source], 0⟩)) := by
          intro turns
          unfold dijkstra
          rw [hda]
          dsimp only
          rw [if_pos rfl]
        have hout : BacksOut proj.FreeArc source source := backsOut_of_not fun u => not_back_self
        constructor
        · rintro ⟨turns, r, hr, hshort⟩
          rw [hrun] at hr
          obtain rfl := ok.inj (Option.some.inj hr)
          exact ⟨fun nodes c hw => ⟨[source], 0, hself, hshort.2 nodes c hw⟩, hout⟩
        · rintro ⟨hpays, -⟩
          refine ⟨0, _, hrun 0, ⟨hsource, rfl, rfl, .single source⟩, fun nodes c hw => ?_⟩
          obtain ⟨nodes', c', hw', hle⟩ := hpays nodes c hw
          have hreach := (isWalk_iff hsource).1 ⟨nodes', hw'⟩
          exact (hreach.nonneg fun _ _ _ he => he.1).trans hle
      · exact dijkstra_iff_of_dense ha ht hda hdt hne h
    · have hnone : ∀ nodes c, ¬ proj.IsWalk proj.Arc source target nodes c := by
        intro nodes c hw
        rcases reaches_start (fun _ _ _ he => he) ((isWalk_iff hsource).1 ⟨nodes, hw⟩) with rfl | hin
        · exact htarget hsource
        · exact htarget hin.2
      refine iff_of_true ⟨0, none, dijkstra_of_not (.inr htarget), hnone⟩ ⟨?_, ?_⟩
      · exact fun nodes c hw => absurd hw (hnone nodes c)
      · exact backsOut_of_not fun u hu => htarget (Back.contains hu).2
  · refine iff_of_true ⟨0, none, dijkstra_of_not (.inl hsource), fun nodes c hw => hsource hw.1⟩
      ⟨fun nodes c hw => absurd hw.1 hsource, ?_⟩
    exact backsOut_of_not fun u hu => hsource (Back.contains hu).1

omit [IsOrderedAddMonoid K] in
theorem no_error_of_search {source target : NodeId} {a t turns : ℕ} {s : Search K}
    (hsource : proj.rowIndex.denseOfNode source = some a)
    (htarget : proj.rowIndex.denseOfNode target = some t) (hne : source ≠ target)
    (hs : Dijkstra.search proj t turns (start a) = some (.ok s)) (more : ℕ)
    (e : PathfindingError K) : dijkstra proj source target more ≠ some (.error e) := by
  intro hr
  unfold dijkstra at hr
  rw [hsource, htarget] at hr
  dsimp only at hr
  rw [if_neg hne] at hr
  cases hmore : Dijkstra.search proj t more (start a) with
  | none =>
    rw [hmore] at hr
    cases hr
  | some r =>
    have hsame := search_mono (le_max_right turns more) hmore
    rw [search_mono (le_max_left turns more) hs] at hsame
    rw [hmore, ← Option.some.inj hsame] at hr
    dsimp only at hr
    split at hr
    · cases hr
    · obtain ⟨path, -, heq⟩ := map_eq_some_iff.1 hr
      cases heq

end GraphProjection

/-! ## Two samples -/

namespace Sample

open GraphProjection Dijkstra

/-- Nodes 1, 2 and 3, with edges from 3 to 1, from 1 to 2 and from 2 to 1 of the given weights. -/
def triangle (w₁ w₂ w₃ : ℤ) : GraphProjection ℤ where
  rowIndex := ⟨[1, 2, 3], by decide⟩
  outCsr := ⟨[0, 1, 2, 3], [⟨2, 2, w₂, 1⟩, ⟨3, 1, w₃, 0⟩, ⟨1, 1, w₁, 0⟩]⟩
  inCsr := ⟨[0, 2, 3, 3], [⟨3, 2, w₃, 1⟩, ⟨1, 3, w₁, 2⟩, ⟨2, 1, w₂, 0⟩]⟩
  valid d nb hnb := by
    have hmem : nb ∈ [⟨2, 2, w₂, 1⟩, ⟨3, 1, w₃, 0⟩, (⟨1, 1, w₁, 0⟩ : ProjNeighbor ℤ)] := by
      unfold ProjCsr.neighborsOfDense at hnb
      split at hnb
      · cases hnb
      · exact mem_of_mem_take (mem_of_mem_drop hnb)
    simp only [mem_cons, not_mem_nil, or_false] at hmem
    rcases hmem with rfl | rfl | rfl <;> rfl

theorem triangle_arc {w₁ w₂ w₃ w : ℤ} {u v : NodeId} (h : (triangle w₁ w₂ w₃).Arc u w v) :
    w = w₁ ∨ w = w₂ ∨ w = w₃ := by
  obtain ⟨nb, hnb, -, rfl⟩ := h
  have hmem : nb ∈ [⟨2, 2, w₂, 1⟩, ⟨3, 1, w₃, 0⟩, (⟨1, 1, w₁, 0⟩ : ProjNeighbor ℤ)] := by
    unfold outNeighbors at hnb
    split at hnb
    · cases hnb
    · unfold outNeighborsDense ProjCsr.neighborsOfDense at hnb
      split at hnb
      · cases hnb
      · exact mem_of_mem_take (mem_of_mem_drop hnb)
  simp only [mem_cons, not_mem_nil, or_false] at hmem
  rcases hmem with rfl | rfl | rfl
  · exact .inr (.inl rfl)
  · exact .inr (.inr rfl)
  · exact .inl rfl

/-- With two edges of weight zero between 1 and 2 each is the predecessor of the other. -/
theorem tied_search : ∃ s, Dijkstra.search (triangle 1 0 0) 0 9 (start 2) = some (.ok s) ∧
    s.dist 0 = some 1 ∧ s.prev 0 = some 1 ∧ s.prev 1 = some 0 := by
  have hview : ((Dijkstra.search (triangle 1 0 0) 0 9 (start 2)).bind Except.toOption).map
      (fun s => (s.dist 0, s.prev 0, s.prev 1)) = some (some 1, some 1, some 0) := by
    decide
  obtain ⟨s, hs, hview⟩ := map_eq_some_iff.1 hview
  obtain ⟨r, hr, hok⟩ := bind_eq_some_iff.1 hs
  cases r with
  | error e => cases hok
  | ok s' =>
    obtain rfl := Option.some.inj hok
    exact ⟨s', hr, (Prod.mk.inj hview).1, (Prod.mk.inj (Prod.mk.inj hview).2).1,
      (Prod.mk.inj (Prod.mk.inj hview).2).2⟩

/-- **A cycle of weight zero**: from 3 to 1, at distance 1, the path is reconstructed forever. -/
theorem tied_never_returns : (triangle 1 0 0).IsWalk (triangle 1 0 0).Arc 3 1 [3, 1] 1 ∧
    ∀ turns, dijkstra (triangle 1 0 0) 3 1 turns = none := by
  refine ⟨⟨rfl, rfl, rfl, ?_⟩, fun turns => ?_⟩
  · have harc : (triangle 1 0 0).Arc 3 1 1 := ⟨⟨1, 1, 1, 0⟩, mem_cons_self, rfl, rfl⟩
    exact .cons harc (.single 1)
  obtain ⟨s, hs, hdist, h0, h1⟩ := tied_search
  have hloop : ∀ turns path, reconstruct 2 s.prev turns 0 path = none ∧
      reconstruct 2 s.prev turns 1 path = none := by
    intro turns
    induction turns with
    | zero => exact fun path => ⟨rfl, rfl⟩
    | succ turns ih =>
      intro path
      simp only [reconstruct, h0, h1]
      exact ⟨(ih _).2, (ih _).1⟩
  have hsource : (triangle 1 0 0).rowIndex.denseOfNode 3 = some 2 := by decide
  have htarget : (triangle 1 0 0).rowIndex.denseOfNode 1 = some 0 := by decide
  unfold dijkstra
  rw [hsource, htarget]
  dsimp only
  rw [if_neg (by decide)]
  cases hmore : Dijkstra.search (triangle 1 0 0) 0 turns (start 2) with
  | none => rfl
  | some r =>
    have hsame := search_mono (le_max_right 9 turns) hmore
    rw [search_mono (le_max_left 9 turns) hs] at hsame
    rw [← Option.some.inj hsame]
    dsimp only
    rw [hdist]
    dsimp only
    rw [(hloop turns [0]).1]
    rfl

/-- With positive weights the search from 3 to 2 returns a shortest path. -/
theorem dijkstra_shortest_of_positive : ∃ turns r,
    dijkstra (triangle 1 2 2) 3 2 turns = some (.ok r) ∧ (triangle 1 2 2).Shortest 3 2 r := by
  have hpos : ∀ u w v, (triangle 1 2 2).Arc u w v → 0 < w := by
    intro u w v h
    have := triangle_arc h
    omega
  have hview : ((Dijkstra.search (triangle 1 2 2) 1 9 (start 2)).bind Except.toOption).isSome = true := by
    decide
  obtain ⟨s, hs⟩ := isSome_iff_exists.1 hview
  obtain ⟨r, hr, hok⟩ := bind_eq_some_iff.1 hs
  cases r with
  | error e => cases hok
  | ok s' =>
    refine (dijkstra_shortest_iff (triangle 1 2 2) 3 2
      (no_error_of_search (by decide) (by decide) (by decide) hr)).2 ⟨?_, ?_⟩
    · intro nodes cost hw
      refine ⟨nodes, cost, ⟨hw.1, hw.2.1, hw.2.2.1, ?_⟩, le_rfl⟩
      exact hw.2.2.2.mono fun u w v h => ⟨(hpos u w v h).le, h⟩
    · exact backsOut_of_pos fun u w v h => hpos u w v h.2

end Sample

end Selene.Algo
