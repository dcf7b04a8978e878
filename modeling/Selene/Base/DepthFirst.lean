import Mathlib.Data.List.Count
import Mathlib.Algebra.Order.Group.Nat

/-!
# Depth-first forests and low links

A depth-first search gives every node the time it was entered and the time it was left; the times
of the nodes below a node lie between its own (`below`). Where the edges only join nodes of which one
is below the other, low links tell the bridges and the cut nodes.

* `Forest.ends_le`, `Forest.laminar`: times are nested.
* `Lowlinks.bridge_iff`: a tree edge is a bridge when the low link of its lower node is above the
  upper one.
* `Lowlinks.cut_iff`: a root is a cut node with two children, another node when no low link of one
  of its children is above it.
-/

namespace DepthFirst

open Relation

section Graph

variable (nbr : ℕ → List ℕ)

/-- Adjacent. -/
def Adj (u v : ℕ) : Prop := v ∈ nbr u

/-- Adjacent, and not the pair `a`, `b`. -/
def AdjNot (a b u v : ℕ) : Prop := v ∈ nbr u ∧ ¬ (u = a ∧ v = b ∨ u = b ∧ v = a)

/-- Adjacent, and neither is `w`. -/
def AdjOff (w u v : ℕ) : Prop := v ∈ nbr u ∧ u ≠ w ∧ v ≠ w

/-- The only edge between two nodes, and no other way from one to the other. -/
def Bridge (a b : ℕ) : Prop := (nbr a).count b = 1 ∧ ¬ ReflTransGen (AdjNot nbr a b) a b

/-- Two other nodes are joined, but not without `w`. -/
def Cut (w : ℕ) : Prop :=
  ∃ x y, x ≠ w ∧ y ≠ w ∧ ReflTransGen (Adj nbr) x y ∧ ¬ ReflTransGen (AdjOff nbr w) x y

variable {nbr}

theorem turned {r r' : ℕ → ℕ → Prop} (hr : ∀ u v, r u v → r' v u) {x y : ℕ}
    (h : ReflTransGen r x y) : ReflTransGen r' y x := by
  induction h with
  | refl => exact .refl
  | tail _ hyz ih => exact .head (hr _ _ hyz) ih

theorem Bridge.symm {a b : ℕ} (hsym : ∀ u v, (nbr u).count v = (nbr v).count u)
    (h : Bridge nbr a b) : Bridge nbr b a := by
  refine ⟨(hsym b a).trans h.1, fun hway => h.2 (turned (fun u v huv => ?_) hway)⟩
  obtain ⟨hmem, hnot⟩ := huv
  refine ⟨?_, by tauto⟩
  rw [← List.count_pos_iff] at hmem ⊢
  rwa [hsym]

theorem Cut.neighbors {w : ℕ} (h : Cut nbr w) (hsym : ∀ u v, Adj nbr u v → Adj nbr v u) :
    ∃ a b, a ∈ nbr w ∧ b ∈ nbr w ∧ a ≠ w ∧ b ≠ w ∧ ¬ ReflTransGen (AdjOff nbr w) a b := by
  obtain ⟨x, y, hx, hy, hway, hnot⟩ := h
  by_contra hall
  push Not at hall
  have hsame : ∀ z, ReflTransGen (Adj nbr) x z → (z ≠ w → ReflTransGen (AdjOff nbr w) x z) ∧
      (z = w → ∃ a ∈ nbr w, a ≠ w ∧ ReflTransGen (AdjOff nbr w) x a) := by
    intro z hz
    induction hz with
    | refl => exact ⟨fun _ => .refl, fun h => absurd h hx⟩
    | @tail u v _ huv ih =>
      by_cases hu : u = w
      · obtain ⟨a, ha, haw, hxa⟩ := ih.2 hu
        subst hu
        exact ⟨fun hv => hxa.trans (hall a v ha huv haw hv), fun _ => ⟨a, ha, haw, hxa⟩⟩
      · have hxu := ih.1 hu
        refine ⟨fun hv => hxu.tail ⟨huv, hu, hv⟩, fun hv => ?_⟩
        exact ⟨u, hv ▸ hsym _ _ huv, hu, hxu⟩
  exact hnot ((hsame y hway).1 hy)

theorem exists_step_out {r : ℕ → ℕ → Prop} {S : ℕ → Prop} {x y : ℕ} (h : ReflTransGen r x y)
    (hx : S x) (hy : ¬ S y) : ∃ u v, S u ∧ ¬ S v ∧ r u v := by
  induction h with
  | refl => exact absurd hx hy
  | @tail u v _ huv ih =>
    by_cases hu : S u
    · exact ⟨u, v, hu, hy, huv⟩
    · exact ih hu

end Graph

/-- Times and parents of the nodes `P`. -/
structure Forest (nbr : ℕ → List ℕ) (P : ℕ → Prop) (disc ends : ℕ → ℕ) (parent : ℕ → Option ℕ) :
    Prop where
  lt : ∀ {v}, P v → disc v < ends v
  inj : ∀ {u v}, P u → P v → disc u = disc v → u = v
  up : ∀ {v p}, P v → parent v = some p → P p ∧ v ∈ nbr p ∧ disc p < disc v ∧ ends v ≤ ends p
  within : ∀ {v y}, P v → P y → disc v < disc y → disc y < ends v →
    ∃ p, parent y = some p ∧ disc v ≤ disc p

namespace Forest

variable {nbr : ℕ → List ℕ} {P : ℕ → Prop} {disc ends : ℕ → ℕ} {parent : ℕ → Option ℕ}

/-- Entered between the times of `v`. -/
def Below (P : ℕ → Prop) (disc ends : ℕ → ℕ) (v y : ℕ) : Prop :=
  P v ∧ P y ∧ disc v ≤ disc y ∧ disc y < ends v

variable {u v y c p : ℕ}

theorem Below.mono {P' : ℕ → Prop} {disc' ends' : ℕ → ℕ} (h : Below P disc ends v y)
    (hP : ∀ {w}, P w → P' w) (hdisc : ∀ {w}, P w → disc' w = disc w)
    (hends : ∀ {w}, P w → ends w ≤ ends' w) : Below P' disc' ends' v y := by
  obtain ⟨hv, hy, hle, hlt⟩ := h
  have := hends hv
  refine ⟨hP hv, hP hy, ?_, ?_⟩
  · rwa [hdisc hv, hdisc hy]
  · rw [hdisc hy]
    omega

theorem laminar (hu : Below P disc ends u y) (hv : Below P disc ends v y) :
    Below P disc ends u v ∨ Below P disc ends v u := by
  rcases le_total (disc u) (disc v) with hle | hle
  · exact .inl ⟨hu.1, hv.1, hle, hv.2.2.1.trans_lt hu.2.2.2⟩
  · exact .inr ⟨hv.1, hu.1, hle, hu.2.2.1.trans_lt hv.2.2.2⟩

variable (h : Forest nbr P disc ends parent)

include h

theorem below_self (hv : P v) : Below P disc ends v v := ⟨hv, hv, le_rfl, h.lt hv⟩

theorem below_parent (hv : P v) (hp : parent v = some p) : Below P disc ends p v := by
  obtain ⟨hP, -, hlt, hends⟩ := h.up hv hp
  exact ⟨hP, hv, hlt.le, (h.lt hv).trans_le hends⟩

theorem parent_below (hy : Below P disc ends v y) (hne : y ≠ v) :
    ∃ p, parent y = some p ∧ Below P disc ends v p := by
  obtain ⟨hv, hP, hle, hlt⟩ := hy
  have hdisc : disc v < disc y := lt_of_le_of_ne hle fun heq => hne (h.inj hP hv heq.symm)
  obtain ⟨p, hp, hvp⟩ := h.within hv hP hdisc hlt
  obtain ⟨hPp, -, hpy, -⟩ := h.up hP hp
  exact ⟨p, hp, hv, hPp, hvp, hpy.trans hlt⟩

/-- **Induction up to a node**: from a node below `v`, parent by parent. -/
theorem induction_up {Q : ℕ → Prop} (hself : Q v)
    (hstep : ∀ y p, Below P disc ends v y → parent y = some p → Below P disc ends v p → Q p → Q y)
    (hy : Below P disc ends v y) : Q y := by
  induction hn : disc y using Nat.strong_induction_on generalizing y with
  | _ n ih =>
    by_cases hne : y = v
    · rwa [hne]
    · obtain ⟨p, hp, hbelow⟩ := h.parent_below hy hne
      have hlt := (h.up hy.2.1 hp).2.2.1
      exact hstep y p hy hp hbelow (ih (disc p) (by omega) hbelow rfl)

theorem ends_le (hy : Below P disc ends v y) : ends y ≤ ends v := by
  refine h.induction_up (Q := fun y => ends y ≤ ends v) le_rfl (fun y p hy hp _ hle => ?_) hy
  exact (h.up hy.2.1 hp).2.2.2.trans hle

theorem below_trans (huy : Below P disc ends u y)
    (hvu : Below P disc ends v u) : Below P disc ends v y := by
  refine ⟨hvu.1, huy.2.1, hvu.2.2.1.trans huy.2.2.1, ?_⟩
  exact huy.2.2.2.trans_le (h.ends_le hvu)

theorem child_above (hy : Below P disc ends v y) (hne : y ≠ v) :
    ∃ c, P c ∧ parent c = some v ∧ Below P disc ends c y := by
  have hall : y = v ∨ ∃ c, P c ∧ parent c = some v ∧ Below P disc ends c y := by
    refine h.induction_up (Q := fun y => y = v ∨ ∃ c, P c ∧ parent c = some v ∧ Below P disc ends c y)
      (.inl rfl) (fun y p hy hp _ hQ => .inr ?_) hy
    have hyp := h.below_parent hy.2.1 hp
    rcases hQ with rfl | ⟨c, hc, hcv, hpc⟩
    · exact ⟨y, hy.2.1, hp, h.below_self hy.2.1⟩
    · exact ⟨c, hc, hcv, h.below_trans hyp hpc⟩
  exact hall.resolve_left hne

theorem not_below_child (hc : P c) (hcv : parent c = some v) : ¬ Below P disc ends c v := by
  intro hbelow
  have := (h.up hc hcv).2.2.1
  exact absurd hbelow.2.2.1 (not_le.2 this)

/-- A node between another and one below it, in time, that has the parent of the latter above. -/
theorem below_of_parent (hcv : parent c = some v)
    (hx : Below P disc ends u c) (hne : u ≠ c) : Below P disc ends u v := by
  obtain ⟨p, hp, hbelow⟩ := h.parent_below hx (Ne.symm hne)
  rw [hcv] at hp
  rwa [Option.some.inj hp]

end Forest

/-- A search that is complete: all edges join nodes of which one is below the other, and the low
links are known. An edge counts for a low link unless it is the only one to the parent. -/
structure Lowlinks (nbr : ℕ → List ℕ) (P : ℕ → Prop) (disc ends : ℕ → ℕ) (parent : ℕ → Option ℕ)
    (low : ℕ → ℕ) : Prop extends Forest nbr P disc ends parent where
  sym : ∀ u v, (nbr u).count v = (nbr v).count u
  dom : ∀ {y x}, x ∈ nbr y → P y
  nested : ∀ {y x}, P y → x ∈ nbr y →
    Forest.Below P disc ends y x ∨ Forest.Below P disc ends x y
  lowSome : ∀ {v}, P v → ∃ x, P x ∧ low v = disc x ∧ (x = v ∨
    ∃ y, Forest.Below P disc ends v y ∧ x ∈ nbr y ∧ (parent y ≠ some x ∨ 2 ≤ (nbr y).count x))
  lowLe : ∀ {v y x}, Forest.Below P disc ends v y → x ∈ nbr y →
    (parent y ≠ some x ∨ 2 ≤ (nbr y).count x) → low v ≤ disc x

namespace Lowlinks

open Forest

variable {nbr : ℕ → List ℕ} {P : ℕ → Prop} {disc ends low : ℕ → ℕ} {parent : ℕ → Option ℕ}
  (h : Lowlinks nbr P disc ends parent low) {u v x y c p : ℕ}

include h

theorem adj_symm (huv : Adj nbr u v) : Adj nbr v u := by
  unfold Adj at huv ⊢
  rw [← List.count_pos_iff] at huv ⊢
  rwa [h.sym]

theorem way_up (hy : Below P disc ends v y) : ReflTransGen
    (fun a b => b ∈ nbr a ∧ Below P disc ends v a ∧ Below P disc ends v b) y v := by
  refine h.induction_up (Q := fun y => ReflTransGen
    (fun a b => b ∈ nbr a ∧ Below P disc ends v a ∧ Below P disc ends v b) y v) .refl
    (fun y p hy hp hpv hQ => ?_) hy
  exact .head ⟨h.adj_symm (h.up hy.2.1 hp).2.1, hy, hpv⟩ hQ

theorem way_up_early (hy : Below P disc ends v y) : ReflTransGen
    (fun a b => b ∈ nbr a ∧ parent a = some b ∧ disc b < disc a ∧ disc a ≤ disc y) y v := by
  have hall : ∀ t, disc y ≤ t → ReflTransGen
      (fun a b => b ∈ nbr a ∧ parent a = some b ∧ disc b < disc a ∧ disc a ≤ t) y v := by
    refine h.induction_up (Q := fun y => ∀ t, disc y ≤ t → ReflTransGen
      (fun a b => b ∈ nbr a ∧ parent a = some b ∧ disc b < disc a ∧ disc a ≤ t) y v)
      (fun t _ => .refl) (fun y p hy hp hpv hQ t ht => ?_) hy
    obtain ⟨-, hadj, hlt, -⟩ := h.up hy.2.1 hp
    exact .head ⟨h.adj_symm hadj, hp, hlt, ht⟩ (hQ t (by omega))
  exact hall _ le_rfl

/-- An edge out of the nodes below `c` goes to a node above the parent of `c`. -/
theorem edge_out (hcp : parent c = some p) (hy : Below P disc ends c y) (hx : x ∈ nbr y)
    (hout : ¬ Below P disc ends c x) : Below P disc ends x p ∧ Below P disc ends x y := by
  have hxy : Below P disc ends x y := by
    rcases h.nested hy.2.1 hx with hin | hin
    · exact absurd (h.below_trans hin hy) hout
    · exact hin
  have hxc : Below P disc ends x c := by
    rcases laminar hxy hy with hin | hin
    · exact hin
    · exact absurd hin hout
  refine ⟨h.below_of_parent hcp hxc ?_, hxy⟩
  rintro rfl
  exact hout (h.below_self hy.1)

/-- Such an edge is passed over only as the edge from `c` to its parent. -/
theorem edge_out_parent (hy : Below P disc ends c y) (hout : ¬ Below P disc ends c x)
    (hp : parent y = some x) : y = c := by
  by_contra hne
  obtain ⟨q, hq, hbelow⟩ := h.parent_below hy hne
  rw [hp] at hq
  rw [Option.some.inj hq] at hout
  exact hout hbelow

/-- A low link above the parent: nothing but the edge to the parent leads out. -/
theorem closed_of_low (hcp : parent c = some p) (hlow : disc p < low c)
    (hy : Below P disc ends c y) (hx : x ∈ nbr y) (hout : ¬ Below P disc ends c x) :
    y = c ∧ x = p ∧ (nbr c).count p = 1 := by
  obtain ⟨hxp, -⟩ := h.edge_out hcp hy hx hout
  have hnot : ¬ (parent y ≠ some x ∨ 2 ≤ (nbr y).count x) := by
    intro hcount
    have := h.lowLe hy hx hcount
    have := hxp.2.2.1
    omega
  push Not at hnot
  obtain rfl := h.edge_out_parent hy hout hnot.1
  rw [hcp] at hnot
  obtain rfl := Option.some.inj hnot.1
  have hpos := List.count_pos_iff.2 hx
  exact ⟨rfl, rfl, by omega⟩

/-- The other case: an edge, not the one to the parent, leads above the parent. -/
theorem edge_of_low (hc : P c) (hcp : parent c = some p) (hlow : low c ≤ disc p) :
    ∃ y x, Below P disc ends c y ∧ x ∈ nbr y ∧ ¬ Below P disc ends c x ∧ low c = disc x ∧
      (parent y ≠ some x ∨ 2 ≤ (nbr y).count x) := by
  have hpc := (h.up hc hcp).2.2.1
  obtain ⟨x, hx, hlowx, hcase⟩ := h.lowSome hc
  have hout : ¬ Below P disc ends c x := by
    intro hin
    have := hin.2.2.1
    omega
  rcases hcase with rfl | ⟨y, hy, hxy, hcount⟩
  · omega
  · exact ⟨y, x, hy, hxy, hout, hlowx, hcount⟩

theorem bridge_iff (hc : P c) (hcp : parent c = some p) : disc p < low c ↔ Bridge nbr c p := by
  have hup := h.up hc hcp
  have hnotp := h.not_below_child hc hcp
  constructor
  · intro hlow
    have hadj : p ∈ nbr c := h.adj_symm hup.2.1
    refine ⟨(h.closed_of_low hcp hlow (h.below_self hc) hadj hnotp).2.2, fun hway => ?_⟩
    obtain ⟨y, x, hy, hx, hyx, hpair⟩ :=
      exists_step_out hway (S := Below P disc ends c) (h.below_self hc) hnotp
    obtain ⟨rfl, rfl, -⟩ := h.closed_of_low hcp hlow hy hyx hx
    exact hpair (.inl ⟨rfl, rfl⟩)
  · rintro ⟨hone, hway⟩
    by_contra hlow
    obtain ⟨y, x, hy, hxy, hout, hlowx, hcount⟩ := h.edge_of_low hc hcp (not_lt.1 hlow)
    refine hway ?_
    -- down to `y`, over to `x`, and up from the parent to `x`, backwards
    have hdown : ReflTransGen (AdjNot nbr c p) c y := by
      refine turned (fun a b hab => ⟨h.adj_symm hab.1, ?_⟩) (h.way_up hy)
      rintro (⟨rfl, rfl⟩ | ⟨rfl, rfl⟩)
      · exact hnotp hab.2.1
      · exact hnotp hab.2.2
    have hover : AdjNot nbr c p y x := by
      refine ⟨hxy, ?_⟩
      rintro (⟨rfl, rfl⟩ | ⟨rfl, rfl⟩)
      · rcases hcount with hne | htwo
        · exact hne hcp
        · omega
      · exact hnotp hy
    have hxp := (h.edge_out hcp hy hxy hout).1
    have hback : ReflTransGen (AdjNot nbr c p) x p := by
      refine turned (fun a b hab => ⟨h.adj_symm hab.1, ?_⟩) (h.way_up_early hxp)
      have hpc := hup.2.2.1
      have hab' := hab.2.2
      rintro (⟨rfl, rfl⟩ | ⟨rfl, rfl⟩) <;> omega
    exact (hdown.tail hover).trans hback

theorem not_bridge (hxy : x ∈ nbr y) (hx : parent x ≠ some y) (hy : parent y ≠ some x) :
    ¬ Bridge nbr y x := by
  rintro ⟨-, hway⟩
  have hpair : ∀ {a b : ℕ}, parent a = some b → ¬ (a = y ∧ b = x ∨ a = x ∧ b = y) := by
    rintro a b hab (⟨rfl, rfl⟩ | ⟨rfl, rfl⟩)
    · exact hy hab
    · exact hx hab
  rcases h.nested (h.dom hxy) hxy with hin | hin
  · refine hway (turned (fun a b hab => ⟨h.adj_symm hab.1, ?_⟩) (h.way_up_early hin))
    have := hpair hab.2.1
    tauto
  · exact hway (ReflTransGen.mono (fun a b hab => ⟨hab.1, hpair hab.2.1⟩) _ _ (h.way_up_early hin))

theorem joined_child (hc : P c) (hcv : parent c = some v) (hy : Below P disc ends c y) :
    ReflTransGen (AdjOff nbr v) y c := by
  have hnot := h.not_below_child hc hcv
  refine ReflTransGen.mono (fun a b hab => ⟨hab.1, ?_, ?_⟩) _ _ (h.way_up hy)
  · rintro rfl
    exact hnot hab.2.1
  · rintro rfl
    exact hnot hab.2.2

theorem joined_above (hv : P v) (hvp : parent v = some p) (hx : Below P disc ends x v) (hne : x ≠ v) :
    ReflTransGen (AdjOff nbr v) p x := by
  have hxp := h.below_of_parent hvp hx hne
  have hlt := (h.up hv hvp).2.2.1
  refine ReflTransGen.mono (fun a b hab => ⟨hab.1, ?_, ?_⟩) _ _ (h.way_up_early hxp)
  · rintro rfl
    omega
  · rintro rfl
    omega

theorem adjOff_symm (huv : AdjOff nbr c u v) : AdjOff nbr c v u :=
  ⟨h.adj_symm huv.1, huv.2.2, huv.2.1⟩

theorem cut_of_closed (hc : P c) (hcv : parent c = some v) (hy : y ∈ nbr v) (hyv : y ≠ v)
    (hout : ¬ Below P disc ends c y)
    (hclosed : ∀ {a b}, Below P disc ends c a → b ∈ nbr a → ¬ Below P disc ends c b → b = v) :
    Cut nbr v := by
  obtain ⟨-, hadj, hlt, -⟩ := h.up hc hcv
  have hne : c ≠ v := by
    rintro rfl
    omega
  refine ⟨c, y, hne, hyv, .tail (.single (h.adj_symm hadj)) hy, fun hway => ?_⟩
  obtain ⟨a, b, ha, hb, hab, -, hbv⟩ :=
    exists_step_out hway (S := Below P disc ends c) (h.below_self hc) hout
  exact hbv (hclosed ha hab hb)

theorem cut_iff (hv : P v) : Cut nbr v ↔
    (parent v = none ∧ ∃ c c', c ≠ c' ∧ P c ∧ P c' ∧ parent c = some v ∧ parent c' = some v) ∨
    (parent v ≠ none ∧ ∃ c, P c ∧ parent c = some v ∧ disc v ≤ low c) := by
  constructor
  · intro hcut
    obtain ⟨a, b, ha, hb, hav, hbv, hnot⟩ := hcut.neighbors fun _ _ => h.adj_symm
    cases hp : parent v with
    | none =>
      left
      refine ⟨rfl, ?_⟩
      -- nothing is above a root
      have hbelow : ∀ {a}, a ∈ nbr v → a ≠ v → Below P disc ends v a := by
        intro a ha hav
        rcases h.nested hv ha with hin | hin
        · exact hin
        · obtain ⟨q, hq, -⟩ := h.parent_below hin hav.symm
          rw [hp] at hq
          cases hq
      obtain ⟨c, hc, hcv, hac⟩ := h.child_above (hbelow ha hav) hav
      obtain ⟨c', hc', hcv', hbc⟩ := h.child_above (hbelow hb hbv) hbv
      refine ⟨c, c', ?_, hc, hc', hcv, hcv'⟩
      rintro rfl
      refine hnot ((h.joined_child hc hcv hac).trans ?_)
      exact turned (fun _ _ => h.adjOff_symm) (h.joined_child hc hcv hbc)
    | some p =>
      right
      refine ⟨Option.some_ne_none p, ?_⟩
      by_contra hall
      push Not at hall
      -- every neighbour is joined with the parent
      have hup : ∀ {a}, a ∈ nbr v → a ≠ v → ReflTransGen (AdjOff nbr v) a p := by
        intro a ha hav
        have habove : ∀ {x}, Below P disc ends x v → x ≠ v → ReflTransGen (AdjOff nbr v) x p :=
          fun hx hne => turned (fun _ _ => h.adjOff_symm) (h.joined_above hv hp hx hne)
        rcases h.nested hv ha with hin | hin
        · obtain ⟨c, hc, hcv, hac⟩ := h.child_above hin hav
          have hlow := hall c hc hcv
          obtain ⟨y, x, hy, hxy, hout, hlowx, -⟩ := h.edge_of_low hc hcv hlow.le
          have hxv := (h.edge_out hcv hy hxy hout).1
          have hne : x ≠ v := by
            rintro rfl
            omega
          have hyv : y ≠ v := by
            rintro rfl
            exact h.not_below_child hc hcv hy
          have hcy : ReflTransGen (AdjOff nbr v) c y :=
            turned (fun _ _ => h.adjOff_symm) (h.joined_child hc hcv hy)
          exact ((h.joined_child hc hcv hac).trans (hcy.tail ⟨hxy, hyv, hne⟩)).trans (habove hxv hne)
        · exact habove hin hav
      exact hnot ((hup ha hav).trans (turned (fun _ _ => h.adjOff_symm) (hup hb hbv)))
  · rintro (⟨hroot, c, c', hne, hc, hc', hcv, hcv'⟩ | ⟨hroot, c, hc, hcv, hlow⟩)
    · obtain ⟨-, hadj, hlt, -⟩ := h.up hc' hcv'
      refine h.cut_of_closed hc hcv hadj ?_ ?_ ?_
      · rintro rfl
        omega
      · intro hin
        obtain ⟨q, hq, hqc⟩ := h.parent_below hin hne.symm
        rw [hcv'] at hq
        rw [← Option.some.inj hq] at hqc
        exact h.not_below_child hc hcv hqc
      · intro a b ha hab hout
        by_contra hbv
        obtain ⟨q, hq, -⟩ := h.parent_below (h.edge_out hcv ha hab hout).1 (Ne.symm hbv)
        rw [hroot] at hq
        cases hq
    · obtain ⟨p, hp⟩ := Option.ne_none_iff_exists'.1 hroot
      obtain ⟨-, hadj, hlt, -⟩ := h.up hv hp
      have hcv' := (h.up hc hcv).2.2.1
      refine h.cut_of_closed hc hcv (h.adj_symm hadj) ?_ ?_ ?_
      · rintro rfl
        omega
      · intro hin
        have := hin.2.2.1
        omega
      · intro a b ha hab hout
        by_contra hbv
        have hbelow := (h.edge_out hcv ha hab hout).1
        have hdisc : disc b ≠ disc v := fun heq => hbv (h.inj hbelow.1 hv heq)
        have hle := hbelow.2.2.1
        have hcount : parent a ≠ some b := by
          intro hpar
          obtain rfl := h.edge_out_parent ha hout hpar
          rw [hcv] at hpar
          exact hbv (Option.some.inj hpar).symm
        have := h.lowLe ha hab (.inl hcount)
        omega

end Lowlinks

end DepthFirst
