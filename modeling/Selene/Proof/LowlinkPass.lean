import Selene.Algo.Articulation
import Selene.Base.DepthFirst
import Mathlib.Algebra.Order.BigOperators.Group.Finset

/-!
# The low-link pass

What the loop keeps, turn by turn. The proof adds to the state two things that the code does not
store: when a node is left (`ends`, which is now for a node on the stack) and which of its
neighbours were looked at (`scanned`). `Search` is about times and low links, `Found` about the
results so far, `OnStack` about the frames. At the end `Search` is `DepthFirst.Lowlinks`.
-/

namespace Selene.Algo

open DepthFirst Function List

namespace BiconnState

variable (s : BiconnState)

def Seen (v : ℕ) : Prop := s.disc v ≠ none

/-- When a node was entered. -/
def time (v : ℕ) : ℕ := (s.disc v).getD 0

end BiconnState

namespace Biconn

open Forest

variable {nbr : ℕ → List ℕ} {s : BiconnState} {opened : List ℕ} {ends : ℕ → ℕ}
  {scanned : ℕ → List ℕ} {u v w x y c p : ℕ}

/-- On the stack a node is above its parent, and a root is at the bottom. -/
def Stacked (parent : ℕ → Option ℕ) : List ℕ → Prop
  | [] => True
  | v :: rest => parent v = rest.head? ∧ Stacked parent rest

theorem Stacked.closed {parent : ℕ → Option ℕ} (h : Stacked parent opened) (hv : v ∈ opened)
    (hp : parent v = some p) : p ∈ opened := by
  induction opened with
  | nil => cases hv
  | cons w rest ih =>
    rcases mem_cons.1 hv with rfl | hv
    · exact mem_cons_of_mem _ (mem_of_head? (h.1.symm.trans hp))
    · exact mem_cons_of_mem _ (ih h.2 hv)

theorem Stacked.congr {parent parent' : ℕ → Option ℕ} (h : Stacked parent opened)
    (heq : ∀ v ∈ opened, parent' v = parent v) : Stacked parent' opened := by
  induction opened with
  | nil => trivial
  | cons w rest ih =>
    refine ⟨(heq w mem_cons_self).trans h.1, ih h.2 fun v hv => ?_⟩
    exact heq v (mem_cons_of_mem _ hv)

/-- Times and low links of a search whose stack has the nodes `opened`. -/
structure Search (nbr : ℕ → List ℕ) (n : ℕ) (s : BiconnState) (opened : List ℕ) (ends : ℕ → ℕ)
    (scanned : ℕ → List ℕ) : Prop extends Forest nbr s.Seen s.time ends s.parent where
  bound : ∀ {v}, s.Seen v → v < n
  endsLe : ∀ {v}, s.Seen v → ends v ≤ s.timer
  seen : ∀ {v}, v ∈ opened → s.Seen v
  endsEq : ∀ {v}, v ∈ opened → ends v = s.timer
  sorted : opened.Pairwise fun v p => s.time p < s.time v
  stacked : Stacked s.parent opened
  child : ∀ {v}, s.parent v ≠ none → s.Seen v
  scannedPart : ∀ {v}, s.Seen v → scanned v <+: nbr v
  full : ∀ {v}, s.Seen v → v ∉ opened → scanned v = nbr v
  nested : ∀ {y x}, s.Seen y → x ∈ scanned y →
    Below s.Seen s.time ends y x ∨ Below s.Seen s.time ends x y
  lowTime : ∀ {v}, s.Seen v → s.low v ≤ s.time v
  lowSome : ∀ {v}, s.Seen v → ∃ x, s.Seen x ∧ s.low v = s.time x ∧ (x = v ∨
    ∃ y, Below s.Seen s.time ends v y ∧ x ∈ nbr y ∧
      (s.parent y ≠ some x ∨ 2 ≤ (nbr y).count x))
  lowLe : ∀ {y x}, s.Seen y → x ∈ scanned y →
    (s.parent y ≠ some x ∨ 2 ≤ (scanned y).count x) → s.low y ≤ s.time x
  lowUp : ∀ {v p}, s.Seen v → v ∉ opened → s.parent v = some p → s.low p ≤ s.low v

/-- **At the end.** With nothing on the stack and every node seen, the low links are those of the
whole graph. -/
theorem Search.lowlinks {n : ℕ} (h : Search nbr n s [] ends scanned)
    (hall : ∀ v, v < n → s.Seen v) (hsym : ∀ u v, (nbr u).count v = (nbr v).count u)
    (hdom : ∀ y x, x ∈ nbr y → y < n) :
    Lowlinks nbr s.Seen s.time ends s.parent s.low where
  toForest := h.toForest
  sym := hsym
  dom hx := hall _ (hdom _ _ hx)
  nested hy hx := h.nested hy (h.full hy not_mem_nil ▸ hx)
  lowSome := h.lowSome
  lowLe := by
    intro v y x hy hx hcount
    -- the low link of a node is at most those of the nodes below it
    have hle : s.low v ≤ s.low y := by
      refine h.induction_up (Q := fun y => s.low v ≤ s.low y) le_rfl (fun y p hy hp _ hQ => ?_) hy
      exact hQ.trans (h.lowUp hy.2.1 not_mem_nil hp)
    have hfull := h.full hy.2.1 not_mem_nil
    exact hle.trans (h.lowLe hy.2.1 (hfull ▸ hx) (hfull ▸ hcount))

theorem Search.time_lt {n : ℕ} (h : Search nbr n s opened ends scanned) (hv : s.Seen v) :
    s.time v < s.timer :=
  (h.lt hv).trans_le (h.endsLe hv)

theorem Search.time_le_top {n : ℕ} (h : Search nbr n s (u :: opened) ends scanned)
    (hv : v ∈ u :: opened) : s.time v ≤ s.time u := by
  rcases mem_cons.1 hv with rfl | hv
  · exact le_rfl
  · exact (rel_of_pairwise_cons h.sorted hv).le

/-! ### Entering a node -/

section Enter

/-- A node is entered from the top of the stack. -/
def enterFrom (s : BiconnState) (opened : List ℕ) (v : ℕ) : BiconnState :=
  enter { s with parent := update s.parent v opened.head? } v

theorem enterFrom_seen : (enterFrom s opened v).Seen w ↔ w = v ∨ s.Seen w := by
  unfold BiconnState.Seen enterFrom enter
  by_cases hw : w = v
  · simp [hw]
  · simp [hw]

theorem enterFrom_time_self : (enterFrom s opened v).time v = s.timer := by
  simp [BiconnState.time, enterFrom, enter]

theorem enterFrom_time (hw : w ≠ v) : (enterFrom s opened v).time w = s.time w := by
  simp [BiconnState.time, enterFrom, enter, update_of_ne hw]

theorem enterFrom_low_self : (enterFrom s opened v).low v = s.timer := update_self ..

theorem enterFrom_low (hw : w ≠ v) : (enterFrom s opened v).low w = s.low w := update_of_ne hw ..

theorem enterFrom_parent_self : (enterFrom s opened v).parent v = opened.head? := update_self ..

theorem enterFrom_parent (hw : w ≠ v) : (enterFrom s opened v).parent w = s.parent w :=
  update_of_ne hw ..

theorem ne_new (hv : ¬ s.Seen v) (hw : s.Seen w) : w ≠ v := fun heq => hv (heq ▸ hw)

/-- The nodes on the stack are left later. -/
def endsLater (s : BiconnState) (opened : List ℕ) (ends : ℕ → ℕ) (v w : ℕ) : ℕ :=
  if w ∈ v :: opened then s.timer + 1 else ends w

section

variable {n : ℕ} (h : Search nbr n s opened ends scanned)
include h

theorem Search.le_endsLater (hw : s.Seen w) :
    ends w ≤ endsLater s opened ends v w := by
  have := h.endsLe hw
  unfold endsLater
  split <;> omega

theorem Search.enter_forest (hv : ¬ s.Seen v)
    (hadj : ∀ p, opened.head? = some p → v ∈ nbr p) :
    Forest nbr (enterFrom s opened v).Seen (enterFrom s opened v).time (endsLater s opened ends v)
      (enterFrom s opened v).parent where
  lt := by
    intro w hw
    rcases enterFrom_seen.1 hw with rfl | hw
    · rw [enterFrom_time_self, endsLater, if_pos mem_cons_self]
      omega
    · rw [enterFrom_time (ne_new hv hw)]
      exact (h.lt hw).trans_le (h.le_endsLater hw)
  inj := by
    intro u w hu hw heq
    rcases enterFrom_seen.1 hu with hu' | hu' <;> rcases enterFrom_seen.1 hw with hw' | hw'
    · rw [hu', hw']
    · rw [hu', enterFrom_time_self, enterFrom_time (ne_new hv hw')] at heq
      have := h.time_lt hw'
      omega
    · rw [hw', enterFrom_time_self, enterFrom_time (ne_new hv hu')] at heq
      have := h.time_lt hu'
      omega
    · rw [enterFrom_time (ne_new hv hu'), enterFrom_time (ne_new hv hw')] at heq
      exact h.inj hu' hw' heq
  up := by
    intro w p hw hp
    rcases enterFrom_seen.1 hw with rfl | hw
    · rw [enterFrom_parent_self] at hp
      have hmem := mem_of_head? hp
      have hseen := h.seen hmem
      refine ⟨enterFrom_seen.2 (.inr hseen), hadj p hp, ?_, ?_⟩
      · rw [enterFrom_time (ne_new hv hseen), enterFrom_time_self]
        exact h.time_lt hseen
      · rw [endsLater, endsLater, if_pos mem_cons_self, if_pos (mem_cons_of_mem _ hmem)]
    · have hnw := ne_new hv hw
      rw [enterFrom_parent hnw] at hp
      obtain ⟨hseen, hmem, hlt, hle⟩ := h.up hw hp
      refine ⟨enterFrom_seen.2 (.inr hseen), hmem, ?_, ?_⟩
      · rwa [enterFrom_time (ne_new hv hseen), enterFrom_time hnw]
      · by_cases hopen : w ∈ opened
        · have hp' := h.stacked.closed hopen hp
          rw [endsLater, endsLater, if_pos (mem_cons_of_mem _ hopen),
            if_pos (mem_cons_of_mem _ hp')]
        · have : endsLater s opened ends v w = ends w :=
            if_neg fun hin => (mem_cons.1 hin).elim hnw hopen
          rw [this]
          exact hle.trans (h.le_endsLater hseen)
  within := by
    intro a b ha hb hlt hends
    rcases enterFrom_seen.1 hb with rfl | hb
    · -- only the nodes on the stack are not left yet
      rcases enterFrom_seen.1 ha with rfl | ha
      · omega
      · have hne := ne_new hv ha
        rw [enterFrom_time_self, endsLater] at hends
        have hopen : a ∈ opened := by
          by_contra hnot
          rw [if_neg fun hin => (mem_cons.1 hin).elim hne hnot] at hends
          have := h.endsLe ha
          omega
        obtain ⟨p, rest, rfl⟩ := exists_cons_of_ne_nil (ne_nil_of_mem hopen)
        refine ⟨p, enterFrom_parent_self, ?_⟩
        rw [enterFrom_time hne, enterFrom_time (ne_new hv (h.seen mem_cons_self))]
        exact h.time_le_top hopen
    · have hnb := ne_new hv hb
      have hbt := h.time_lt hb
      rw [enterFrom_time hnb] at hlt hends
      rcases enterFrom_seen.1 ha with rfl | ha
      · rw [enterFrom_time_self] at hlt
        omega
      · have hna := ne_new hv ha
        rw [enterFrom_time hna] at hlt
        have hends' : s.time b < ends a := by
          by_cases hopen : a ∈ opened
          · rwa [h.endsEq hopen]
          · rwa [endsLater, if_neg fun hin => (mem_cons.1 hin).elim hna hopen] at hends
        obtain ⟨p, hp, hle⟩ := h.within ha hb hlt hends'
        refine ⟨p, ?_, ?_⟩
        · rwa [enterFrom_parent hnb]
        · rwa [enterFrom_time hna, enterFrom_time (ne_new hv ((h.up hb hp).1))]

theorem Search.enter (hv : ¬ s.Seen v)
    (hn : v < n) (hadj : ∀ p, opened.head? = some p → v ∈ nbr p) :
    Search nbr n (enterFrom s opened v) (v :: opened) (endsLater s opened ends v)
      (update scanned v []) := by
  have hne : ∀ {w}, s.Seen w → w ≠ v := fun hw heq => hv (heq ▸ hw)
  have hbelow : ∀ {a b}, Below s.Seen s.time ends a b → Below (enterFrom s opened v).Seen
      (enterFrom s opened v).time (endsLater s opened ends v) a b := fun hab =>
    hab.mono (fun hw => enterFrom_seen.2 (.inr hw)) (fun hw => enterFrom_time (hne hw))
      fun hw => h.le_endsLater hw
  -- what was seen keeps its times; the new node is on top, with no neighbour scanned
  refine {
    toForest := h.enter_forest hv hadj
    bound := ?_, endsLe := ?_, seen := ?_, endsEq := ?_, sorted := ?_, stacked := ?_, child := ?_
    scannedPart := ?_, full := ?_, nested := ?_, lowTime := ?_, lowSome := ?_, lowLe := ?_
    lowUp := ?_ }
  · intro w hw
    rcases enterFrom_seen.1 hw with rfl | hw
    · exact hn
    · exact h.bound hw
  · intro w hw
    unfold endsLater
    split
    · exact le_rfl
    · next hnot =>
      have hw' := (enterFrom_seen.1 hw).resolve_left fun heq => hnot (heq ▸ mem_cons_self)
      exact (h.endsLe hw').trans (Nat.le_succ _)
  · intro w hw
    rcases mem_cons.1 hw with rfl | hw
    · exact enterFrom_seen.2 (.inl rfl)
    · exact enterFrom_seen.2 (.inr (h.seen hw))
  · intro w hw
    exact if_pos hw
  · refine pairwise_cons.2 ⟨fun p hp => ?_, ?_⟩
    · rw [enterFrom_time_self, enterFrom_time (hne (h.seen hp))]
      exact h.time_lt (h.seen hp)
    · refine h.sorted.imp_of_mem fun {a b} ha hb hab => ?_
      rwa [enterFrom_time (hne (h.seen ha)), enterFrom_time (hne (h.seen hb))]
  · refine ⟨enterFrom_parent_self, h.stacked.congr fun w hw => ?_⟩
    exact enterFrom_parent (hne (h.seen hw))
  · intro w hw
    by_cases hwv : w = v
    · exact enterFrom_seen.2 (.inl hwv)
    · rw [enterFrom_parent hwv] at hw
      exact enterFrom_seen.2 (.inr (h.child hw))
  · intro w hw
    rcases enterFrom_seen.1 hw with rfl | hw
    · rw [update_self]
      exact nil_prefix
    · rw [update_of_ne (hne hw)]
      exact h.scannedPart hw
  · intro w hw hnot
    have hwv : w ≠ v := fun heq => hnot (heq ▸ mem_cons_self)
    rw [update_of_ne hwv]
    exact h.full ((enterFrom_seen.1 hw).resolve_left hwv) fun hin =>
      hnot (mem_cons_of_mem _ hin)
  · intro y x hy hx
    rcases enterFrom_seen.1 hy with rfl | hy
    · rw [update_self] at hx
      cases hx
    · rw [update_of_ne (hne hy)] at hx
      exact (h.nested hy hx).imp hbelow hbelow
  · intro w hw
    rcases enterFrom_seen.1 hw with rfl | hw
    · rw [enterFrom_low_self, enterFrom_time_self]
    · rw [enterFrom_low (hne hw), enterFrom_time (hne hw)]
      exact h.lowTime hw
  · intro w hw
    rcases enterFrom_seen.1 hw with rfl | hw
    · exact ⟨w, hw, by rw [enterFrom_low_self, enterFrom_time_self], .inl rfl⟩
    · obtain ⟨x, hx, hlow, hcase⟩ := h.lowSome hw
      refine ⟨x, enterFrom_seen.2 (.inr hx), ?_, hcase.imp_right ?_⟩
      · rwa [enterFrom_low (hne hw), enterFrom_time (hne hx)]
      · rintro ⟨y, hy, hmem, hcount⟩
        refine ⟨y, hbelow hy, hmem, ?_⟩
        rwa [enterFrom_parent (hne hy.2.1)]
  · intro y x hy hx hcount
    rcases enterFrom_seen.1 hy with rfl | hy
    · rw [update_self] at hx
      cases hx
    · rw [update_of_ne (hne hy)] at hx hcount
      rw [enterFrom_parent (hne hy)] at hcount
      have hxs : s.Seen x := (h.nested hy hx).elim (·.2.1) (·.1)
      rw [enterFrom_low (hne hy), enterFrom_time (hne hxs)]
      exact h.lowLe hy hx hcount
  · intro w p hw hnot hp
    have hwv : w ≠ v := fun heq => hnot (heq ▸ mem_cons_self)
    have hws := (enterFrom_seen.1 hw).resolve_left hwv
    rw [enterFrom_parent hwv] at hp
    rw [enterFrom_low hwv, enterFrom_low (hne (h.up hws hp).1)]
    exact h.lowUp hws (fun hin => hnot (mem_cons_of_mem _ hin)) hp

end

end Enter

/-! ### The other steps -/

section Steps

variable {n : ℕ}

theorem Search.scan (h : Search nbr n s opened ends scanned) (hu : u ∈ opened)
    (hpart : scanned u ++ [x] <+: nbr u)
    (hnested : Below s.Seen s.time ends u x ∨ Below s.Seen s.time ends x u)
    (hlow : s.parent u ≠ some x ∨ 2 ≤ (scanned u ++ [x]).count x → s.low u ≤ s.time x) :
    Search nbr n s opened ends (update scanned u (scanned u ++ [x])) := by
  refine { h with scannedPart := ?_, full := ?_, nested := ?_, lowLe := ?_ }
  · intro w hw
    by_cases hwu : w = u
    · rw [hwu, update_self]
      exact hpart
    · rw [update_of_ne hwu]
      exact h.scannedPart hw
  · intro w hw hnot
    have hwu : w ≠ u := fun heq => hnot (heq ▸ hu)
    rw [update_of_ne hwu]
    exact h.full hw hnot
  · intro y z hy hz
    by_cases hyu : y = u
    · rw [hyu, update_self] at hz
      rcases mem_append.1 hz with hz | hz
      · exact hyu ▸ h.nested (hyu ▸ hy) hz
      · rw [mem_singleton.1 hz, hyu]
        exact hnested
    · rw [update_of_ne hyu] at hz
      exact h.nested hy hz
  · intro y z hy hz hcount
    by_cases hyu : y = u
    · subst hyu
      rw [update_self] at hz hcount
      by_cases hzx : z = x
      · subst hzx
        exact hlow hcount
      · have hz' : z ∈ scanned y := (mem_append.1 hz).resolve_right fun hin =>
          hzx (mem_singleton.1 hin)
        rw [count_append, count_singleton, if_neg (by simpa using Ne.symm hzx), add_zero] at hcount
        exact h.lowLe hy hz' hcount
    · rw [update_of_ne hyu] at hz hcount
      exact h.lowLe hy hz hcount

/-- The state with a lower low link. -/
def lower (s : BiconnState) (u t : ℕ) : BiconnState :=
  { s with low := update s.low u (min (s.low u) t) }

theorem lower_le : (lower s u x).low w ≤ s.low w := by
  unfold lower
  dsimp only
  by_cases hw : w = u
  · rw [hw, update_self]
    exact min_le_left ..
  · rw [update_of_ne hw]

theorem Search.lower (h : Search nbr n s opened ends scanned) (hu : u ∈ opened) {t : ℕ}
    (ht : s.low u ≤ t ∨ ∃ x, s.Seen x ∧ t = s.time x ∧ ∃ y, Below s.Seen s.time ends u y ∧
      x ∈ nbr y ∧ (s.parent y ≠ some x ∨ 2 ≤ (nbr y).count x)) :
    Search nbr n (lower s u t) opened ends scanned := by
  refine { h with lowTime := ?_, lowSome := ?_, lowLe := ?_, lowUp := ?_ }
  · intro w hw
    exact lower_le.trans (h.lowTime hw)
  · intro w hw
    by_cases hwu : w = u
    · subst hwu
      have hself : (Biconn.lower s w t).low w = min (s.low w) t := update_self ..
      rcases le_total (s.low w) t with hle | hle
      · rw [hself, min_eq_left hle]
        exact h.lowSome hw
      · rw [hself, min_eq_right hle]
        rcases ht with ht | ⟨x, hx, rfl, hy⟩
        · rw [le_antisymm hle ht]
          exact h.lowSome hw
        · exact ⟨x, hx, rfl, .inr hy⟩
    · rw [show (Biconn.lower s u t).low w = s.low w from update_of_ne hwu ..]
      exact h.lowSome hw
  · intro y x hy hx hcount
    exact lower_le.trans (h.lowLe hy hx hcount)
  · intro w p hw hnot hp
    have hwu : w ≠ u := fun heq => hnot (heq ▸ hu)
    rw [show (Biconn.lower s u t).low w = s.low w from update_of_ne hwu ..]
    exact lower_le.trans (h.lowUp hw hnot hp)

theorem Search.pop (h : Search nbr n s (c :: opened) ends scanned) (hfull : scanned c = nbr c)
    (hlow : ∀ p, s.parent c = some p → s.low p ≤ s.low c) : Search nbr n s opened ends scanned := by
  refine { h with
    seen := ?_, endsEq := ?_, sorted := ?_, stacked := ?_, full := ?_, lowUp := ?_ }
  · intro v hv
    exact h.seen (mem_cons_of_mem _ hv)
  · intro v hv
    exact h.endsEq (mem_cons_of_mem _ hv)
  · exact h.sorted.of_cons
  · exact h.stacked.2
  · intro v hv hnot
    by_cases hvc : v = c
    · rw [hvc, hfull]
    · exact h.full hv fun hin => (mem_cons.1 hin).elim hvc hnot
  · intro v p hv hnot hp
    by_cases hvc : v = c
    · subst hvc
      exact hlow p hp
    · exact h.lowUp hv (fun hin => (mem_cons.1 hin).elim hvc hnot) hp

theorem Search.nested_seen (h : Search nbr n s (u :: opened) ends scanned)
    (hsym : ∀ u v, (nbr u).count v = (nbr v).count u) (hv : s.Seen v) (huv : v ∈ nbr u) :
    Below s.Seen s.time ends u v ∨ Below s.Seen s.time ends v u := by
  have hu := h.seen mem_cons_self
  by_cases hopen : v ∈ u :: opened
  · right
    refine ⟨hv, hu, h.time_le_top hopen, ?_⟩
    rw [h.endsEq hopen]
    exact h.time_lt hu
  · -- it is complete, and the top of the stack is one of its neighbours
    have hvu : u ∈ nbr v := by
      rw [← count_pos_iff] at huv ⊢
      rwa [hsym]
    rw [← h.full hv hopen] at hvu
    exact (h.nested hv hvu).symm

end Steps

/-! ### The results so far -/

/-- A node that was popped. -/
def Done (s : BiconnState) (opened : List ℕ) (v : ℕ) : Prop := s.Seen v ∧ v ∉ opened

/-- The results follow the nodes that are complete. -/
structure Found (s : BiconnState) (opened : List ℕ) : Prop where
  nodup : s.bridges.Nodup
  bridges : ∀ {e}, e ∈ s.bridges ↔ ∃ v p, Done s opened v ∧ s.parent v = some p ∧
    s.time p < s.low v ∧ e = (min p v, max p v)
  ap : ∀ {a}, a ∈ s.ap ↔
    (s.parent a ≠ none ∧ ∃ c, Done s opened c ∧ s.parent c = some a ∧ s.time a ≤ s.low c) ∨
    (Done s opened a ∧ s.parent a = none ∧
      ∃ c c', c ≠ c' ∧ s.parent c = some a ∧ s.parent c' = some a)

theorem Found.congr {s' : BiconnState} {opened' : List ℕ} (h : Found s opened)
    (hbridges : s'.bridges = s.bridges) (hap : s'.ap = s.ap)
    (hdone : ∀ v, Done s' opened' v ↔ Done s opened v)
    (hparent : ∀ v, s.Seen v → s'.parent v = s.parent v)
    (htime : ∀ v p, s.Seen v → s.parent v = some p → s'.time p = s.time p)
    (hlow : ∀ v, Done s opened v → s'.low v = s.low v)
    (htop : ∀ v p, s.Seen v → s.parent v = some p → s'.parent p = s.parent p)
    (hchild : ∀ a c, Done s opened a → (s'.parent c = some a ↔ s.parent c = some a)) :
    Found s' opened' where
  nodup := hbridges ▸ h.nodup
  bridges := by
    intro e
    rw [hbridges, h.bridges]
    refine exists_congr fun v => exists_congr fun p => ?_
    rw [hdone v]
    refine and_congr_right fun hv => ?_
    rw [hparent v hv.1, hlow v hv]
    refine and_congr_right fun hp => ?_
    rw [htime v p hv.1 hp]
  ap := by
    intro a
    rw [hap, h.ap]
    refine or_congr ?_ ?_
    · constructor
      · rintro ⟨hroot, c, hc, hca, hle⟩
        rw [← htop c a hc.1 hca] at hroot
        rw [← htime c a hc.1 hca, ← hlow c hc] at hle
        exact ⟨hroot, c, (hdone c).2 hc, (hparent c hc.1).trans hca, hle⟩
      · rintro ⟨hroot, c, hc, hca, hle⟩
        rw [hdone c] at hc
        rw [hparent c hc.1] at hca
        rw [htop c a hc.1 hca] at hroot
        rw [htime c a hc.1 hca, hlow c hc] at hle
        exact ⟨hroot, c, hc, hca, hle⟩
    · rw [hdone a]
      refine and_congr_right fun ha => ?_
      simp only [hparent a ha.1, hchild a _ ha]

theorem Found.enter {n : ℕ} (h : Found s opened) (hs : Search nbr n s opened ends scanned)
    (hv : ¬ s.Seen v) : Found (enterFrom s opened v) (v :: opened) := by
  have hne : ∀ {w}, s.Seen w → w ≠ v := fun hw heq => hv (heq ▸ hw)
  refine h.congr rfl rfl ?_ ?_ ?_ ?_ ?_ ?_
  · intro w
    rw [Done, Done, enterFrom_seen, mem_cons, not_or]
    constructor
    · rintro ⟨hw, hwv, hnot⟩
      exact ⟨hw.resolve_left hwv, hnot⟩
    · rintro ⟨hw, hnot⟩
      exact ⟨.inr hw, hne hw, hnot⟩
  · intro w hw
    exact enterFrom_parent (hne hw)
  · intro w p hw hp
    exact enterFrom_time (hne (hs.up hw hp).1)
  · intro w hw
    exact enterFrom_low (hne hw.1)
  · intro w p hw hp
    exact enterFrom_parent (hne (hs.up hw hp).1)
  · intro a c ha
    by_cases hcv : c = v
    · -- the new node is the child of a node on the stack
      rw [hcv, enterFrom_parent_self]
      refine iff_of_false (fun hhead => ha.2 (mem_of_head? hhead)) fun hp => ?_
      exact hv (hs.child (Option.ne_none_iff_exists'.2 ⟨a, hp⟩))
    · rw [enterFrom_parent hcv]

theorem Found.lower (h : Found s opened) (hu : u ∈ opened) (t : ℕ) :
    Found (lower s u t) opened := by
  refine h.congr rfl rfl (fun _ => .rfl) (fun _ _ => rfl) (fun _ _ _ _ => rfl) ?_
    (fun _ _ _ _ => rfl) fun _ _ _ => .rfl
  intro v hv
  have hvu : v ≠ u := fun heq => hv.2 (heq ▸ hu)
  exact update_of_ne hvu ..

theorem done_pop {n : ℕ} (hs : Search nbr n s (c :: opened) ends scanned) :
    Done s opened v ↔ v = c ∨ Done s (c :: opened) v := by
  have hc : c ∉ opened := fun hin => lt_irrefl _ (rel_of_pairwise_cons hs.sorted hin)
  unfold Done
  rw [mem_cons, not_or]
  constructor
  · rintro ⟨hv, hnot⟩
    by_cases hvc : v = c
    · exact .inl hvc
    · exact .inr ⟨hv, hvc, hnot⟩
  · rintro (rfl | ⟨hv, -, hnot⟩)
    · exact ⟨hs.seen mem_cons_self, hc⟩
    · exact ⟨hv, hnot⟩

theorem Found.pop_root {n : ℕ} (h : Found s [c]) (hs : Search nbr n s [c] ends scanned)
    {two : Prop} [Decidable two]
    (htwo : two ↔ ∃ a b, a ≠ b ∧ s.parent a = some c ∧ s.parent b = some c) :
    Found { s with ap := if s.parent c = none ∧ two then insert c s.ap else s.ap } [] := by
  have hroot : s.parent c = none := hs.stacked.1
  have hdone : ∀ v, Done { s with ap := if s.parent c = none ∧ two then insert c s.ap else s.ap } [] v
      ↔ v = c ∨ Done s [c] v := fun v => show Done s [] v ↔ _ from done_pop hs
  have hne : ∀ {v p}, s.parent v = some p → v ≠ c := by
    rintro v p hp rfl
    rw [hroot] at hp
    cases hp
  refine ⟨h.nodup, ?_, ?_⟩
  · intro e
    refine h.bridges.trans (exists_congr fun v => exists_congr fun p => ?_)
    rw [hdone]
    constructor
    · rintro ⟨hv, hrest⟩
      exact ⟨.inr hv, hrest⟩
    · rintro ⟨hv, hp, hrest⟩
      exact ⟨hv.resolve_left (hne hp), hp, hrest⟩
  · intro a
    have hap : a ∈ (if s.parent c = none ∧ two then insert c s.ap else s.ap) ↔
        a ∈ s.ap ∨ a = c ∧ two := by
      by_cases hcase : two
      · rw [if_pos ⟨hroot, hcase⟩, Finset.mem_insert]
        tauto
      · rw [if_neg fun hin => hcase hin.2]
        tauto
    refine hap.trans ?_
    rw [h.ap, or_assoc]
    refine or_congr ?_ ?_
    · refine and_congr_right fun _ => exists_congr fun d => ?_
      rw [hdone]
      constructor
      · rintro ⟨hd, hrest⟩
        exact ⟨.inr hd, hrest⟩
      · rintro ⟨hd, hda, hrest⟩
        exact ⟨hd.resolve_left (hne hda), hda, hrest⟩
    · rw [hdone]
      constructor
      · rintro (⟨ha, hrest⟩ | ⟨rfl, hrest⟩)
        · exact ⟨.inr ha, hrest⟩
        · exact ⟨.inl rfl, hroot, htwo.1 hrest⟩
      · rintro ⟨rfl | ha, hroot, hrest⟩
        · exact .inr ⟨rfl, htwo.2 hrest⟩
        · exact .inl ⟨ha, hroot, hrest⟩

theorem Found.pop_child {n : ℕ} (h : Found s (c :: p :: opened))
    (hs : Search nbr n s (c :: p :: opened) ends scanned) :
    Found (propagate s c p) (p :: opened) := by
  have hcp : s.parent c = some p := hs.stacked.1
  have hp : s.Seen p := hs.seen (mem_cons_of_mem _ mem_cons_self)
  have hdisc : (s.disc p).getD u32Max = s.time p := by
    obtain ⟨d, hd⟩ := Option.ne_none_iff_exists'.1 hp
    rw [BiconnState.time, hd]
    rfl
  have hdone : ∀ v, Done (propagate s c p) (p :: opened) v ↔
      v = c ∨ Done s (c :: p :: opened) v := fun v =>
    show Done s (p :: opened) v ↔ _ from done_pop hs
  have hlow : ∀ v, Done (propagate s c p) (p :: opened) v → (propagate s c p).low v = s.low v := by
    intro v hv
    have hvp : v ≠ p := fun heq => hv.2 (heq ▸ mem_cons_self)
    exact update_of_ne hvp ..
  have hbridges : ∀ e, e ∈ (propagate s c p).bridges ↔
      e ∈ s.bridges ∨ s.time p < s.low c ∧ e = (min p c, max p c) := by
    intro e
    unfold propagate
    dsimp only
    rw [hdisc]
    split
    · next hlt => simp [hlt]
    · next hlt => simp [hlt]
  have hap : ∀ a, a ∈ (propagate s c p).ap ↔
      a ∈ s.ap ∨ a = p ∧ s.parent p ≠ none ∧ s.time p ≤ s.low c := by
    intro a
    unfold propagate
    dsimp only
    rw [hdisc]
    split
    · next hcase =>
      rw [Finset.mem_insert]
      tauto
    · next hcase => tauto
  refine ⟨?_, ?_, ?_⟩
  · -- a pair of a popped node and its parent is not found again
    have hnew : (min p c, max p c) ∉ s.bridges := by
      intro hin
      obtain ⟨v, q, hv, hvq, -, heq⟩ := h.bridges.1 hin
      obtain ⟨hmin, hmax⟩ := Prod.mk.inj heq
      have hvc : v ≠ c := fun heq => hv.2 (heq ▸ mem_cons_self)
      have hvp : v ≠ p := fun heq => hv.2 (heq ▸ mem_cons_of_mem _ mem_cons_self)
      omega
    unfold propagate
    dsimp only
    split
    · rw [nodup_append]
      refine ⟨h.nodup, nodup_singleton _, fun a ha b hb heq => hnew ?_⟩
      rwa [← mem_singleton.1 hb, ← heq]
    · exact h.nodup
  · intro e
    rw [hbridges, h.bridges]
    constructor
    · rintro (⟨v, q, hv, hvq, hlt, rfl⟩ | ⟨hlt, rfl⟩)
      · have hv' := (hdone v).2 (.inr hv)
        refine ⟨v, q, hv', hvq, ?_, rfl⟩
        rw [hlow v hv']
        exact hlt
      · have hc' := (hdone c).2 (.inl rfl)
        refine ⟨c, p, hc', hcp, ?_, rfl⟩
        rw [hlow c hc']
        exact hlt
    · rintro ⟨v, q, hv, hvq, hlt, rfl⟩
      rw [hlow v hv] at hlt
      rcases (hdone v).1 hv with rfl | hv'
      · obtain rfl : p = q := Option.mem_unique hcp hvq
        exact .inr ⟨hlt, rfl⟩
      · exact .inl ⟨v, q, hv', hvq, hlt, rfl⟩
  · intro a
    rw [hap, h.ap]
    constructor
    · rintro ((⟨hroot, d, hd, hda, hle⟩ | ⟨ha, hroot, hrest⟩) | ⟨rfl, hroot, hle⟩)
      · have hd' := (hdone d).2 (.inr hd)
        refine .inl ⟨hroot, d, hd', hda, ?_⟩
        rw [hlow d hd']
        exact hle
      · exact .inr ⟨(hdone a).2 (.inr ha), hroot, hrest⟩
      · have hc' := (hdone c).2 (.inl rfl)
        refine .inl ⟨hroot, c, hc', hcp, ?_⟩
        rw [hlow c hc']
        exact hle
    · rintro (⟨hroot, d, hd, hda, hle⟩ | ⟨ha, hroot, hrest⟩)
      · rw [hlow d hd] at hle
        rcases (hdone d).1 hd with rfl | hd'
        · obtain rfl : p = a := Option.mem_unique hcp hda
          exact .inr ⟨rfl, hroot, hle⟩
        · exact .inl (.inl ⟨hroot, d, hd', hda, hle⟩)
      · rcases (hdone a).1 ha with rfl | ha'
        · exact absurd (hcp.symm.trans hroot) (Option.some_ne_none p)
        · exact .inl (.inr ⟨ha', hroot, hrest⟩)

/-! ### The loop -/

/-- What a frame says about its node. -/
structure OnStack (nbr : ℕ → List ℕ) (s : BiconnState) (scanned : ℕ → List ℕ) (f : Frame) :
    Prop where
  looked : scanned f.dense = (nbr f.dense).take f.next
  consumed : f.parentConsumed = true ↔ ∃ p, s.parent f.dense = some p ∧ p ∈ scanned f.dense
  children : ∃ l : Finset ℕ, (∀ c, c ∈ l ↔ s.parent c = some f.dense) ∧ l.card = f.children

/-- The invariant of the loop. -/
def Inv (nbr : ℕ → List ℕ) (n : ℕ) (s : BiconnState) (stack : List Frame) : Prop :=
  ∃ ends scanned, Search nbr n s (stack.map (·.dense)) ends scanned ∧
    Found s (stack.map (·.dense)) ∧ ∀ f ∈ stack, OnStack nbr s scanned f

section Loop

variable {n : ℕ} {f : Frame} {rest stack : List Frame}

theorem OnStack.congr {s' : BiconnState} {scanned' : ℕ → List ℕ} (h : OnStack nbr s scanned f)
    (hscanned : scanned' f.dense = scanned f.dense)
    (hparent : s'.parent f.dense = s.parent f.dense)
    (hchildren : ∀ c, s'.parent c = some f.dense ↔ s.parent c = some f.dense) :
    OnStack nbr s' scanned' f where
  looked := hscanned.trans h.looked
  consumed := by
    rw [hscanned, hparent]
    exact h.consumed
  children := by
    obtain ⟨l, hl, hcard⟩ := h.children
    exact ⟨l, fun c => (hl c).trans (hchildren c).symm, hcard⟩

theorem enter_onStack (hs : Search nbr n s opened ends scanned) (hv : ¬ s.Seen v) :
    OnStack nbr (enterFrom s opened v) (update scanned v []) ⟨v, 0, 0, false⟩ where
  looked := update_self ..
  consumed := by
    rw [update_self]
    simp
  children := by
    refine ⟨∅, fun c => iff_of_false (Finset.notMem_empty c) fun hc => ?_, Finset.card_empty⟩
    by_cases hcv : c = v
    · rw [hcv, enterFrom_parent_self] at hc
      exact hv (hs.seen (mem_of_head? hc))
    · rw [enterFrom_parent hcv] at hc
      have hcs := hs.child (Option.ne_none_iff_exists'.2 ⟨v, hc⟩)
      exact hv (hs.up hcs hc).1

theorem Search.dense_ne (h : Search nbr n s (u :: opened) ends scanned) (hv : v ∈ opened) : v ≠ u := by
  rintro rfl
  exact lt_irrefl _ (rel_of_pairwise_cons h.sorted hv)

theorem take_next {l : List ℕ} {i : ℕ} (h : l[i]? = some v) : l.take (i + 1) = l.take i ++ [v] := by
  rw [take_add_one, h]
  rfl

theorem Search.rest_ne (hs : Search nbr n s ((f :: rest).map (·.dense)) ends scanned) :
    ∀ g ∈ rest, g.dense ≠ f.dense :=
  fun _ hg => hs.dense_ne (mem_map_of_mem hg)

theorem OnStack.part (hf : OnStack nbr s scanned f) (hnext : (nbr f.dense)[f.next]? = some v) :
    scanned f.dense ++ [v] <+: nbr f.dense := by
  rw [hf.looked, ← take_next hnext]
  exact take_prefix ..

theorem Inv.visit_new (hbound : ∀ u v, v ∈ nbr u → v < n) (h : Inv nbr n s (f :: rest))
    (hnext : (nbr f.dense)[f.next]? = some v) (hnew : ¬ s.Seen v) :
    Inv nbr n (enterFrom s ((f :: rest).map (·.dense)) v) (⟨v, 0, 0, false⟩ ::
      { f with next := f.next + 1, children := f.children + 1 } :: rest) := by
  obtain ⟨ends, scanned, hs, hfound, hframes⟩ := h
  have hf := hframes f mem_cons_self
  have hfs : s.Seen f.dense := hs.seen mem_cons_self
  have hmem : v ∈ nbr f.dense := mem_of_getElem? hnext
  have hfv : f.dense ≠ v := fun heq => hnew (heq ▸ hfs)
  have hs' := hs.enter hnew (hbound _ _ hmem) (by
    rintro p hp
    rw [← Option.some.inj hp]
    exact hmem)
  have hvf : (enterFrom s ((f :: rest).map (·.dense)) v).parent v = some f.dense :=
    enterFrom_parent_self
  have hup := hs'.up (hs'.seen mem_cons_self) hvf
  -- the neighbour is entered first, and scanned by the node below it then
  have hscan := hs'.scan (u := f.dense) (x := v) (mem_cons_of_mem _ mem_cons_self)
    (by
      rw [update_of_ne hfv]
      exact hf.part hnext)
    (.inl (hs'.below_parent (hs'.seen mem_cons_self) hvf))
    fun _ => (hs'.lowTime hup.1).trans hup.2.2.1.le
  rw [update_of_ne hfv] at hscan
  refine ⟨_, _, hscan, hfound.enter hs hnew, fun g hg => ?_⟩
  -- the new frame, the frame below it, and those whose nodes are untouched
  rcases mem_cons.1 hg with rfl | hg
  · exact (enter_onStack hs hnew).congr (update_of_ne hfv.symm ..) rfl fun _ => .rfl
  · rcases mem_cons.1 hg with rfl | hg
    · refine ⟨?_, ?_, ?_⟩ <;> dsimp only
      · rw [update_self, hf.looked, take_next hnext]
      · rw [update_self, enterFrom_parent hfv, hf.consumed]
        refine exists_congr fun p => and_congr_right fun hp => ?_
        have hpv : p ≠ v := fun heq => hnew (heq ▸ (hs.up hfs hp).1)
        simp [hpv]
      · obtain ⟨l, hl, hcard⟩ := hf.children
        have hvl : v ∉ l := fun hin =>
          hnew (hs.child (Option.ne_none_iff_exists'.2 ⟨_, (hl v).1 hin⟩))
        refine ⟨insert v l, fun c => ?_, ?_⟩
        · rw [Finset.mem_insert, hl]
          by_cases hcv : c = v
          · exact iff_of_true (.inl hcv) (hcv ▸ hvf)
          · rw [enterFrom_parent hcv]
            simp [hcv]
        · rw [Finset.card_insert_of_notMem hvl, hcard]
    · have hgs : s.Seen g.dense := hs.seen (mem_cons_of_mem _ (mem_map_of_mem hg))
      have hgv : g.dense ≠ v := fun heq => hnew (heq ▸ hgs)
      refine (hframes g (mem_cons_of_mem _ hg)).congr ?_ (enterFrom_parent hgv) fun c => ?_
      · rw [update_of_ne (hs.rest_ne g hg), update_of_ne hgv]
      · by_cases hcv : c = v
        · rw [hcv, hvf]
          refine iff_of_false (fun heq => hs.rest_ne g hg (Option.some.inj heq).symm) fun hp => ?_
          exact hnew (hs.child (Option.ne_none_iff_exists'.2 ⟨_, hp⟩))
        · rw [enterFrom_parent hcv]

section Known

variable (hsym : ∀ u v, (nbr u).count v = (nbr v).count u) (h : Inv nbr n s (f :: rest))
  (hnext : (nbr f.dense)[f.next]? = some v) (hseen : s.Seen v)

include hsym h hnext hseen

theorem Inv.visit_parent (hp : s.parent f.dense = some v) (hno : f.parentConsumed = false) :
    Inv nbr n s ({ f with next := f.next + 1, parentConsumed := true } :: rest) := by
  obtain ⟨ends, scanned, hs, hfound, hframes⟩ := h
  have hf := hframes f mem_cons_self
  have hnested := hs.nested_seen hsym hseen (mem_of_getElem? hnext)
  have hnot : v ∉ scanned f.dense := by
    intro hin
    have := hf.consumed.2 ⟨v, hp, hin⟩
    rw [hno] at this
    cases this
  have hscan := hs.scan mem_cons_self (hf.part hnext) hnested (by
    rintro (hne | htwo)
    · exact absurd hp hne
    · rw [count_append, count_eq_zero.2 hnot, count_singleton_self] at htwo
      omega)
  refine ⟨_, _, hscan, hfound, fun g hg => ?_⟩
  rcases mem_cons.1 hg with rfl | hg
  · refine ⟨?_, ?_, hf.children⟩ <;> dsimp only
    · rw [update_self, hf.looked, take_next hnext]
    · rw [update_self]
      exact iff_of_true rfl ⟨v, hp, mem_append_right _ mem_cons_self⟩
  · exact (hframes g (mem_cons_of_mem _ hg)).congr
      (update_of_ne (hs.rest_ne g hg) ..) rfl fun _ => .rfl

theorem Inv.visit_back (hskip : ¬ (s.parent f.dense = some v ∧ f.parentConsumed = false)) :
    Inv nbr n (lower s f.dense (s.time v)) ({ f with next := f.next + 1 } :: rest) := by
  obtain ⟨ends, scanned, hs, hfound, hframes⟩ := h
  have hf := hframes f mem_cons_self
  have hmem := mem_of_getElem? hnext
  have hnested := hs.nested_seen hsym hseen hmem
  have hfs : s.Seen f.dense := hs.seen mem_cons_self
  have hagain : s.parent f.dense = some v → v ∈ scanned f.dense := by
    intro hp
    have hconsumed : f.parentConsumed = true := by
      by_contra hno
      exact hskip ⟨hp, Bool.eq_false_iff.2 hno⟩
    obtain ⟨q, hq, hin⟩ := hf.consumed.1 hconsumed
    rwa [Option.mem_unique hp hq]
  have hcount : s.parent f.dense ≠ some v ∨ 2 ≤ (nbr f.dense).count v := by
    by_cases hp : s.parent f.dense = some v
    · right
      have hle := (hf.part hnext).sublist.count_le v
      rw [count_append, count_singleton_self] at hle
      have := count_pos_iff.2 (hagain hp)
      omega
    · exact .inl hp
  have hlower := hs.lower (u := f.dense) mem_cons_self
    (.inr ⟨v, hseen, rfl, f.dense, hs.below_self hfs, hmem, hcount⟩)
  have hscan := hlower.scan mem_cons_self (hf.part hnext) hnested fun _ => by
    rw [show (lower s f.dense (s.time v)).low f.dense = min (s.low f.dense) (s.time v) from
      update_self ..]
    exact min_le_right ..
  refine ⟨_, _, hscan, hfound.lower mem_cons_self _, fun g hg => ?_⟩
  rcases mem_cons.1 hg with rfl | hg
  · refine ⟨?_, ?_, hf.children⟩ <;> dsimp only
    · rw [update_self, hf.looked, take_next hnext]
    · rw [update_self]
      refine hf.consumed.trans (exists_congr fun p => and_congr_right fun hp => ?_)
      rw [mem_append, mem_singleton]
      refine ⟨.inl, fun hin => hin.elim id fun heq => ?_⟩
      rw [heq] at hp ⊢
      exact hagain hp
  · exact (hframes g (mem_cons_of_mem _ hg)).congr
      (update_of_ne (hs.rest_ne g hg) ..) rfl fun _ => .rfl

end Known

theorem Inv.visit (hsym : ∀ u v, (nbr u).count v = (nbr v).count u)
    (hbound : ∀ u v, v ∈ nbr u → v < n) (h : Inv nbr n s (f :: rest))
    (hnext : (nbr f.dense)[f.next]? = some v) :
    Inv nbr n (visit s f rest v).1 (visit s f rest v).2 := by
  unfold Biconn.visit
  cases hv : s.disc v with
  | none => exact h.visit_new hbound hnext fun hseen => hseen hv
  | some d =>
    have hseen : s.Seen v := by
      rw [BiconnState.Seen, hv]
      exact Option.some_ne_none d
    have hd : s.time v = d := by rw [BiconnState.time, hv, Option.getD_some]
    by_cases hskip : s.parent f.dense = some v ∧ f.parentConsumed = false
    · simp only [if_pos hskip]
      exact h.visit_parent hsym hnext hseen hskip.1 hskip.2
    · simp only [if_neg hskip]
      exact hd ▸ h.visit_back hsym hnext hseen hskip

/-- **A turn that pops the stack.** -/
theorem Inv.finish (h : Inv nbr n s (f :: rest)) (hnext : (nbr f.dense)[f.next]? = none) :
    Inv nbr n (finish s f rest) rest := by
  obtain ⟨ends, scanned, hs, hfound, hframes⟩ := h
  have hf := hframes f mem_cons_self
  have hfs : s.Seen f.dense := hs.seen mem_cons_self
  have hfull : scanned f.dense = nbr f.dense := by
    rw [hf.looked, take_of_length_le (getElem?_eq_none_iff.1 hnext)]
  have hothers : ∀ g ∈ rest, OnStack nbr s scanned g := fun g hg =>
    hframes g (mem_cons_of_mem _ hg)
  cases rest with
  | nil =>
    obtain ⟨l, hl, hcard⟩ := hf.children
    have htwo : 1 < f.children ↔
        ∃ a b, a ≠ b ∧ s.parent a = some f.dense ∧ s.parent b = some f.dense := by
      rw [← hcard, Finset.one_lt_card]
      simp only [hl]
      constructor
      · rintro ⟨a, ha, b, hb, hab⟩
        exact ⟨a, b, hab, ha, hb⟩
      · rintro ⟨a, b, hab, ha, hb⟩
        exact ⟨a, ha, b, hb, hab⟩
    have hroot : s.parent f.dense = none := hs.stacked.1
    have hpop := hs.pop hfull fun p hp => by
      rw [hroot] at hp
      cases hp
    exact ⟨ends, scanned, { hpop with }, hfound.pop_root hs htwo, fun g hg => by cases hg⟩
  | cons below rest =>
    have hcp : s.parent f.dense = some below.dense := hs.stacked.1
    have hsame : Biconn.finish s f (below :: rest) = propagate s f.dense below.dense := by
      unfold Biconn.finish
      dsimp only
      rw [if_neg fun hin => ?_]
      rw [show (propagate s f.dense below.dense).parent f.dense = s.parent f.dense from rfl] at hin
      rw [hcp] at hin
      cases hin.1
    rw [hsame]
    have hup := hs.up hfs hcp
    -- the low link of the node counts for its parent, unless it is the node itself
    have hlower := hs.lower (u := below.dense) (t := s.low f.dense)
      (mem_cons_of_mem _ mem_cons_self) (by
        obtain ⟨x, hx, hlow, hcase⟩ := hs.lowSome hfs
        rcases hcase with rfl | ⟨y, hy, hmem, hcount⟩
        · left
          rw [hlow]
          exact (hs.lowTime hup.1).trans hup.2.2.1.le
        · exact .inr ⟨x, hx, hlow, y, hs.below_trans hy (hs.below_parent hfs hcp), hmem, hcount⟩)
    have hpop := hlower.pop hfull fun p hp => by
      obtain rfl : below.dense = p := Option.mem_unique hcp hp
      have hne : f.dense ≠ below.dense := (hs.rest_ne below mem_cons_self).symm
      rw [show (lower s below.dense (s.low f.dense)).low f.dense = s.low f.dense from
        update_of_ne hne ..]
      rw [show (lower s below.dense (s.low f.dense)).low below.dense =
        min (s.low below.dense) (s.low f.dense) from update_self ..]
      exact min_le_right ..
    exact ⟨ends, scanned, { hpop with }, hfound.pop_child hs,
      fun g hg => (hothers g hg).congr rfl rfl fun _ => .rfl⟩

/-! ### How many turns -/

/-- The turns left: one for every neighbour not looked at, and one to pop every node. -/
def work (nbr : ℕ → List ℕ) (n : ℕ) (s : BiconnState) (stack : List Frame) : ℕ :=
  ∑ v ∈ (Finset.range n).filter (fun v => s.disc v = none), ((nbr v).length + 1) +
    (stack.map fun f => (nbr f.dense).length - f.next + 1).sum

theorem work_enter (hv : ¬ s.Seen v) (hn : v < n) :
    work nbr n (enterFrom s opened v) (⟨v, 0, 0, false⟩ :: stack) = work nbr n s stack := by
  have hmem : v ∈ (Finset.range n).filter fun v => s.disc v = none :=
    Finset.mem_filter.2 ⟨Finset.mem_range.2 hn, not_not.1 hv⟩
  have herase : (Finset.range n).filter (fun w => (enterFrom s opened v).disc w = none) =
      ((Finset.range n).filter fun v => s.disc v = none).erase v := by
    ext w
    have hseen : (enterFrom s opened v).disc w = none ↔ w ≠ v ∧ s.disc w = none := by
      refine not_not.symm.trans ((not_congr enterFrom_seen).trans ?_)
      rw [not_or, BiconnState.Seen, not_not]
    simp only [Finset.mem_filter, Finset.mem_erase, hseen]
    tauto
  unfold work
  rw [herase, ← Finset.add_sum_erase _ _ hmem, map_cons, sum_cons]
  dsimp only
  omega

theorem work_visit (hbound : ∀ u v, v ∈ nbr u → v < n) (hnext : (nbr f.dense)[f.next]? = some v) :
    work nbr n (visit s f rest v).1 (visit s f rest v).2 + 1 = work nbr n s (f :: rest) := by
  have hlt := (List.getElem?_eq_some_iff.1 hnext).1
  unfold Biconn.visit
  cases hv : s.disc v with
  | none =>
    have hmem := hbound _ _ (mem_of_getElem? hnext)
    let g : Frame := { f with next := f.next + 1, children := f.children + 1 }
    have henter : work nbr n (enterFrom s [f.dense] v) (⟨v, 0, 0, false⟩ :: g :: rest) =
      work nbr n s (g :: rest) := work_enter (fun hseen => hseen hv) hmem
    refine (congrArg (· + 1) henter).trans ?_
    simp only [work, map_cons, sum_cons, g]
    omega
  | some d =>
    by_cases hskip : s.parent f.dense = some v ∧ f.parentConsumed = false
    · simp only [if_pos hskip, work, map_cons, sum_cons]
      omega
    · simp only [if_neg hskip, work, map_cons, sum_cons]
      omega

theorem finish_disc : (finish s f rest).disc = s.disc := by
  cases rest <;> rfl

theorem work_finish : work nbr n (finish s f rest) rest < work nbr n s (f :: rest) := by
  simp only [work, finish_disc, map_cons, sum_cons]
  omega

theorem visit_seen (hw : s.Seen w) : (visit s f rest v).1.Seen w := by
  unfold Biconn.visit
  cases hv : s.disc v with
  | none => exact show (enterFrom s [f.dense] v).Seen w from enterFrom_seen.2 (.inr hw)
  | some d =>
    dsimp only
    split <;> exact hw

section

variable (hsym : ∀ u v, (nbr u).count v = (nbr v).count u)
include hsym

section

variable (hbound : ∀ u v, v ∈ nbr u → v < n)
include hbound

theorem run_ok {turns : ℕ} (h : Inv nbr n s stack) (hwork : work nbr n s stack ≤ turns) :
    ∃ s', run nbr turns s stack = some s' ∧ Inv nbr n s' [] ∧ ∀ v, s.Seen v → s'.Seen v := by
  induction turns generalizing s stack with
  | zero =>
    cases stack with
    | nil => exact ⟨s, rfl, h, fun _ => id⟩
    | cons f rest =>
      simp only [work, map_cons, sum_cons] at hwork
      omega
  | succ turns ih =>
    cases stack with
    | nil => exact ⟨s, rfl, h, fun _ => id⟩
    | cons f rest =>
      rw [run]
      cases hnext : (nbr f.dense)[f.next]? with
      | none =>
        have hless : work nbr n (Biconn.finish s f rest) rest < work nbr n s (f :: rest) := work_finish
        obtain ⟨s', hrun, hinv, hseen⟩ := ih (h.finish hnext) (by omega)
        refine ⟨s', hrun, hinv, fun v hv => hseen v ?_⟩
        unfold BiconnState.Seen
        rwa [finish_disc]
      | some v =>
        have hless : work nbr n (Biconn.visit s f rest v).1 (Biconn.visit s f rest v).2 + 1 =
          work nbr n s (f :: rest) := work_visit hbound hnext
        obtain ⟨s', hrun, hinv, hseen⟩ := ih (h.visit hsym hbound hnext) (by omega)
        exact ⟨s', hrun, hinv, fun w hw => hseen w (visit_seen hw)⟩

omit hbound in
omit hsym in
theorem Inv.new : Inv nbr n .new [] := by
  refine ⟨fun _ => 0, fun _ => [], ?_, ?_, fun f hf => by cases hf⟩
  · have hno : ∀ v, ¬ BiconnState.new.Seen v := fun v hv => hv rfl
    exact {
      lt := fun hv => absurd hv (hno _)
      inj := fun hv => absurd hv (hno _)
      up := fun hv => absurd hv (hno _)
      within := fun hv => absurd hv (hno _)
      bound := fun hv => absurd hv (hno _)
      endsLe := fun hv => absurd hv (hno _)
      seen := fun hv => by cases hv
      endsEq := fun hv => by cases hv
      sorted := .nil
      stacked := trivial
      child := fun hv => absurd rfl hv
      scannedPart := fun hv => absurd hv (hno _)
      full := fun hv => absurd hv (hno _)
      nested := fun hv => absurd hv (hno _)
      lowTime := fun hv => absurd hv (hno _)
      lowSome := fun hv => absurd hv (hno _)
      lowLe := fun hv => absurd hv (hno _)
      lowUp := fun hv => absurd hv (hno _) }
  · refine ⟨.nil, fun {e} => iff_of_false not_mem_nil ?_,
      fun {a} => iff_of_false (Finset.notMem_empty a) ?_⟩
    · rintro ⟨v, p, hv, -⟩
      exact hv.1 rfl
    · rintro (⟨hroot, -⟩ | ⟨ha, -⟩)
      · exact hroot rfl
      · exact ha.1 rfl

theorem dfs_ok {turns : ℕ} (h : Inv nbr n s []) (hv : ¬ s.Seen v)
    (hn : v < n) (hwork : ∑ v ∈ Finset.range n, ((nbr v).length + 1) ≤ turns) :
    ∃ s', dfs nbr turns s v = some s' ∧ Inv nbr n s' [] ∧ s'.Seen v ∧
      ∀ w, s.Seen w → s'.Seen w := by
  have hsame : Biconn.enter s v = enterFrom s [] v := by
    obtain ⟨ends, scanned, hs, -⟩ := h
    have hp : s.parent v = none := by
      by_contra hp
      exact hv (hs.child hp)
    unfold enterFrom
    rw [head?_nil, ← hp, update_eq_self]
  have hinv : Inv nbr n (enterFrom s [] v) [⟨v, 0, 0, false⟩] := by
    obtain ⟨ends, scanned, hs, hfound, -⟩ := h
    have hs' := hs.enter hv hn fun p hp => absurd hp (Option.some_ne_none p).symm
    refine ⟨_, _, hs', hfound.enter hs hv, fun g hg => ?_⟩
    rw [mem_singleton.1 hg]
    exact enter_onStack hs hv
  have hle : work nbr n (enterFrom s [] v) [⟨v, 0, 0, false⟩] ≤ turns := by
    rw [work_enter hv hn, work, map_nil, sum_nil, add_zero]
    refine le_trans ?_ hwork
    exact Finset.sum_le_sum_of_subset (Finset.filter_subset ..)
  obtain ⟨s', hrun, hinv', hseen⟩ := run_ok hsym hbound hinv hle
  refine ⟨s', ?_, hinv', hseen v (enterFrom_seen.2 (.inl rfl)), fun w hw => ?_⟩
  · rw [dfs, hsame]
    exact hrun
  · exact hseen w (enterFrom_seen.2 (.inr hw))

section

variable {turns : ℕ} (hwork : ∑ v ∈ Finset.range n, ((nbr v).length + 1) ≤ turns)
include hwork

theorem pass_ok :
    ∃ s, pass nbr turns n = some s ∧ Inv nbr n s [] ∧ ∀ v, v < n → s.Seen v := by
  have hloop : ∀ m ≤ n, ∃ s, (List.range m).foldlM (fun s d =>
      if s.disc d = none then dfs nbr turns s d else some s) BiconnState.new = some s ∧
      Inv nbr n s [] ∧ ∀ v, v < m → s.Seen v := by
    intro m
    induction m with
    | zero => exact fun _ => ⟨_, rfl, Inv.new, fun v hv => absurd hv (Nat.not_lt_zero v)⟩
    | succ m ih =>
      intro hm
      obtain ⟨s, hs, hinv, hseen⟩ := ih (by omega)
      have hstep : ∃ s', (if s.disc m = none then dfs nbr turns s m else some s) = some s' ∧
          Inv nbr n s' [] ∧ s'.Seen m ∧ ∀ v, s.Seen v → s'.Seen v := by
        by_cases hnew : s.disc m = none
        · rw [if_pos hnew]
          exact dfs_ok hsym hbound hinv (fun hin => hin hnew) (by omega) hwork
        · rw [if_neg hnew]
          exact ⟨s, rfl, hinv, hnew, fun _ => id⟩
      obtain ⟨s', hs', hinv', hm', hmono⟩ := hstep
      refine ⟨s', ?_, hinv', fun v hv => ?_⟩
      · rw [range_succ, foldlM_append, hs, Option.bind_eq_bind, Option.bind_some, foldlM_cons, hs']
        rfl
      · rcases Nat.lt_succ_iff_lt_or_eq.1 hv with hlt | rfl
        · exact hmono v (hseen v hlt)
        · exact hm'
  exact hloop n le_rfl

/-- **The pass is exact**: it finds the bridges and the cut nodes of its neighbour lists. -/
theorem pass_exact : ∃ s, pass nbr turns n = some s ∧ s.bridges.Nodup ∧
      (∀ a b, (a, b) ∈ s.bridges ↔ a < b ∧ Bridge nbr a b) ∧ ∀ a, a ∈ s.ap ↔ Cut nbr a := by
  obtain ⟨s, hs, ⟨ends, scanned, hsearch, hfound, -⟩, hall⟩ := pass_ok hsym hbound hwork
  have hdom : ∀ y x, x ∈ nbr y → y < n := by
    intro y x hx
    refine hbound x y ?_
    rw [← count_pos_iff] at hx ⊢
    rwa [hsym]
  have hlow := hsearch.lowlinks hall hsym hdom
  have hdone : ∀ v, Done s [] v ↔ s.Seen v := fun v => and_iff_left not_mem_nil
  have hfound : Found s [] := hfound
  refine ⟨s, hs, hfound.nodup, fun a b => ?_, fun a => ?_⟩
  · rw [hfound.bridges]
    constructor
    · rintro ⟨v, p, hv, hp, hlt, heq⟩
      obtain ⟨rfl, rfl⟩ := Prod.mk.inj heq
      have hbridge := (hlow.bridge_iff hv.1 hp).1 hlt
      have htime := (hlow.up hv.1 hp).2.2.1
      have hne : p ≠ v := by
        rintro rfl
        exact lt_irrefl _ htime
      rcases lt_or_gt_of_ne hne with hpv | hpv
      · rw [min_eq_left hpv.le, max_eq_right hpv.le]
        exact ⟨hpv, hbridge.symm hsym⟩
      · rw [min_eq_right hpv.le, max_eq_left hpv.le]
        exact ⟨hpv, hbridge⟩
    · rintro ⟨hab, hbridge⟩
      have hmem : b ∈ nbr a := count_pos_iff.1 (hbridge.1 ▸ Nat.one_pos)
      have ha := hall a (hdom a b hmem)
      have hb := hall b (hbound a b hmem)
      by_cases hpb : s.parent b = some a
      · refine ⟨b, a, (hdone b).2 hb, hpb, (hlow.bridge_iff hb hpb).2 (hbridge.symm hsym), ?_⟩
        rw [min_eq_left hab.le, max_eq_right hab.le]
      · by_cases hpa : s.parent a = some b
        · refine ⟨a, b, (hdone a).2 ha, hpa, (hlow.bridge_iff ha hpa).2 hbridge, ?_⟩
          rw [min_eq_right hab.le, max_eq_left hab.le]
        · exact absurd hbridge (hlow.not_bridge hmem hpb hpa)
  · rw [hfound.ap]
    by_cases ha : s.Seen a
    · rw [hlow.cut_iff ha, or_comm]
      simp only [hdone]
      have hchild : ∀ {c}, s.parent c = some a → s.Seen c := fun hc =>
        hsearch.child (Option.ne_none_iff_exists'.2 ⟨a, hc⟩)
      refine or_congr ?_ .rfl
      constructor
      · rintro ⟨-, hroot, c, c', hne, hc, hc'⟩
        exact ⟨hroot, c, c', hne, hchild hc, hchild hc', hc, hc'⟩
      · rintro ⟨hroot, c, c', hne, -, -, hc, hc'⟩
        exact ⟨ha, hroot, c, c', hne, hc, hc'⟩
    · refine iff_of_false ?_ fun hcut => ?_
      · rintro (⟨hroot, -⟩ | ⟨hdone', -⟩)
        · exact ha (hsearch.child hroot)
        · exact ha hdone'.1
      · obtain ⟨x, -, hx, -⟩ := hcut.neighbors fun _ _ => hlow.adj_symm
        exact ha (hall a (hdom a x hx))

end

end

end

end Loop

end Biconn

end Selene.Algo
