import Mathlib.Algebra.Order.Group.Defs
import Mathlib.Data.List.Basic

/-!
# Walks with a cost

A relation `E u w v` says that an edge of weight `w` leads from `u` to `v`. `Reaches` counts the cost
of a walk from its end, `Joined` lists its nodes; `reaches_iff` relates the two. `Back` leads from a
node to the least of the nodes a cheapest walk can come from.

* `Reaches.nonneg`: without negative weights no walk has a negative cost.
* `Joined.snoc`, `reaches_iff`: a walk by its nodes.
* `Back.unique`, `backsOut_of_chain`: going back is a partial function, and it does not return to a
  node when it comes to the start.
* `Embedding`: the same graph under other names.
-/

namespace Walk

variable {V K : Type}

section Cost

variable [AddCommMonoid K] {E : V → K → V → Prop} {s u v : V} {c w : K}

/-- A walk of cost `c` from `s`. -/
inductive Reaches (E : V → K → V → Prop) (s : V) : V → K → Prop
  | refl : Reaches E s s 0
  | step {u v : V} {c w : K} : Reaches E s u c → E u w v → Reaches E s v (c + w)

/-- Nodes that are joined each to the next, and the sum of the weights. -/
inductive Joined (E : V → K → V → Prop) : List V → K → Prop
  | single (v : V) : Joined E [v] 0
  | cons {u v : V} {w c : K} {l : List V} :
    E u w v → Joined E (v :: l) c → Joined E (u :: v :: l) (w + c)

theorem Reaches.mono {F : V → K → V → Prop} (h : Reaches E s v c)
    (hF : ∀ u w v, E u w v → F u w v) : Reaches F s v c := by
  induction h with
  | refl => exact .refl
  | step _ he ih => exact ih.step (hF _ _ _ he)

theorem Joined.mono {F : V → K → V → Prop} {l : List V} (h : Joined E l c)
    (hF : ∀ u w v, E u w v → F u w v) : Joined F l c := by
  induction h with
  | single v => exact .single v
  | cons he _ ih => exact .cons (hF _ _ _ he) ih

theorem Joined.snoc {l : List V} (h : Joined E l c) (hu : l.getLast? = some u) (he : E u w v) :
    Joined E (l ++ [v]) (c + w) := by
  induction h with
  | single x =>
    cases hu
    rw [zero_add]
    have := Joined.cons he (.single v)
    rwa [add_zero] at this
  | cons hxy _ ih =>
    rw [add_assoc]
    exact .cons hxy (ih hu)

theorem Joined.reaches {l : List V} {x : V} (h : Joined E (x :: l) c) {a : K}
    (hx : Reaches E s x a) : Reaches E s ((x :: l).getLast (List.cons_ne_nil x l)) (a + c) := by
  induction l generalizing x a c with
  | nil =>
    cases h
    rwa [add_zero]
  | cons y l ih =>
    cases h with
    | cons hxy htail =>
      rw [List.getLast_cons (List.cons_ne_nil y l), ← add_assoc]
      exact ih htail (hx.step hxy)

theorem reaches_iff : Reaches E s v c ↔
    ∃ l, Joined E l c ∧ l.head? = some s ∧ l.getLast? = some v := by
  constructor
  · intro h
    induction h with
    | refl => exact ⟨[s], .single s, rfl, rfl⟩
    | step _ he ih =>
      obtain ⟨l, hl, hhead, hlast⟩ := ih
      refine ⟨l ++ [_], hl.snoc hlast he, ?_, List.getLast?_concat⟩
      rw [List.head?_append, hhead]
      rfl
  · rintro ⟨l, hl, hhead, hlast⟩
    cases l with
    | nil => cases hhead
    | cons x l =>
      cases hhead
      have h := hl.reaches (Reaches.refl (E := E))
      rw [List.getLast?_eq_some_getLast (List.cons_ne_nil s l)] at hlast
      rwa [Option.some.inj hlast, zero_add] at h

end Cost

section Distance

variable [AddCommMonoid K] [LinearOrder K] {E : V → K → V → Prop} {s t u v : V} {c d : K}

/-- The cost of a cheapest walk. -/
def IsDist (E : V → K → V → Prop) (s v : V) (d : K) : Prop :=
  Reaches E s v d ∧ ∀ c, Reaches E s v c → d ≤ c

theorem IsDist.unique (h : IsDist E s v c) (h' : IsDist E s v d) : c = d :=
  le_antisymm (h.2 d h'.1) (h'.2 c h.1)

theorem Reaches.nonneg [IsOrderedAddMonoid K] (hE : ∀ u w v, E u w v → 0 ≤ w) (h : Reaches E s v c) : 0 ≤ c := by
  induction h with
  | refl => exact le_rfl
  | step _ he ih => exact add_nonneg ih (hE _ _ _ he)

/-- The edge ends a cheapest walk. -/
def Tight (E : V → K → V → Prop) (s u v : V) : Prop :=
  ∃ w d, E u w v ∧ IsDist E s u d ∧ IsDist E s v (d + w)

variable [LinearOrder V]

/-- The least node from which a cheapest walk comes to `v`. -/
def Back (E : V → K → V → Prop) (s v u : V) : Prop :=
  v ≠ s ∧ Tight E s u v ∧ ∀ u', Tight E s u' v → u ≤ u'

/-- Going back from `t` does not come to any node twice. -/
def BacksOut (E : V → K → V → Prop) (s t : V) : Prop :=
  ∀ v, Relation.ReflTransGen (Back E s) t v → ¬ Relation.TransGen (Back E s) v v

theorem Back.unique (h : Back E s v u) (h' : Back E s v t) : u = t :=
  le_antisymm (h.2.2 t h'.2.1) (h'.2.2 u h.2.1)

theorem not_back_self : ¬ Back E s s u := fun h => h.1 rfl

theorem backsOut_of_chain (h : Relation.ReflTransGen (Back E s) t s) : BacksOut E s t := by
  -- the end of the chain: no node on it returns to itself
  have hends : ∀ v, Relation.ReflTransGen (Back E s) v s →
      ¬ Relation.TransGen (Back E s) v v := by
    intro v hv
    induction hv using Relation.ReflTransGen.head_induction_on with
    | refl =>
      intro hloop
      obtain ⟨x, hx, -⟩ := Relation.TransGen.head'_iff.1 hloop
      exact not_back_self hx
    | head hvx _ ih =>
      intro hloop
      obtain ⟨y, hy, hyv⟩ := Relation.TransGen.head'_iff.1 hloop
      obtain rfl := hvx.unique hy
      exact ih (Relation.TransGen.tail' hyv hvx)
  intro v hv
  refine hends v ?_
  induction hv with
  | refl => exact h
  | tail _ hxy ih =>
    rcases Relation.ReflTransGen.cases_head ih with rfl | ⟨z, hz, hzs⟩
    · exact absurd hxy not_back_self
    · rwa [hxy.unique hz]

theorem backsOut_of_pos [IsOrderedCancelAddMonoid K] (hE : ∀ u w v, E u w v → 0 < w) :
    BacksOut E s t := by
  have hnear : ∀ {v u}, Relation.TransGen (Back E s) v u →
      ∃ d e, IsDist E s v d ∧ IsDist E s u e ∧ e < d := by
    intro v u h
    induction h with
    | single hvu =>
      obtain ⟨w, e, he, hu, hv⟩ := hvu.2.1
      exact ⟨e + w, e, hv, hu, lt_add_of_pos_right e (hE _ _ _ he)⟩
    | tail _ hxu ih =>
      obtain ⟨d, e, hv, hx, hlt⟩ := ih
      obtain ⟨w, f, he, hu, hx'⟩ := hxu.2.1
      rw [hx.unique hx'] at hlt
      exact ⟨d, f, hv, hu, (lt_add_of_pos_right f (hE _ _ _ he)).trans hlt⟩
  intro v _ hloop
  obtain ⟨d, e, hd, he, hlt⟩ := hnear hloop
  exact absurd (hd.unique he) hlt.ne'

end Distance

/-! ## The same graph under other names -/

section Embedding

variable {V' : Type} [LinearOrder V] [LinearOrder V']

/-- The graph `E` on the nodes `S`, under the names `name` that keep the order. -/
structure Embedding (E : V → K → V → Prop) (E' : V' → K → V' → Prop) (S : V → Prop) (name : V → V') :
    Prop where
  nodes : ∀ {u w v}, E u w v → S u ∧ S v
  edge : ∀ {x w y}, E' x w y ↔ ∃ u v, x = name u ∧ y = name v ∧ E u w v
  lt : ∀ {u v}, S u → S v → (name u < name v ↔ u < v)

namespace Embedding

variable {E : V → K → V → Prop} {E' : V' → K → V' → Prop} {S : V → Prop} {name : V → V'}
  (h : Embedding E E' S name) {s u v : V} {c d : K}

include h

theorem eq_of_name (hu : S u) (hv : S v) (heq : name u = name v) : u = v := by
  rcases lt_trichotomy u v with hlt | rfl | hlt
  · exact absurd heq (ne_of_lt ((h.lt hu hv).2 hlt))
  · rfl
  · exact absurd heq.symm (ne_of_lt ((h.lt hv hu).2 hlt))

theorem le_iff (hu : S u) (hv : S v) : name u ≤ name v ↔ u ≤ v := by
  rw [← not_lt, ← not_lt, h.lt hv hu]

variable [AddCommMonoid K]

theorem lift (hs : S s) {y : V'} (hy : Reaches E' (name s) y c) :
    ∃ v, S v ∧ y = name v ∧ Reaches E s v c := by
  induction hy with
  | refl => exact ⟨s, hs, rfl, .refl⟩
  | step _ he ih =>
    obtain ⟨u, hu, rfl, hru⟩ := ih
    obtain ⟨u', v, huu, rfl, huv⟩ := h.edge.1 he
    obtain rfl := h.eq_of_name hu (h.nodes huv).1 huu
    exact ⟨v, (h.nodes huv).2, rfl, hru.step huv⟩

theorem joined {l : List V} (hl : Joined E l c) : Joined E' (l.map name) c := by
  induction hl with
  | single v => exact .single (name v)
  | cons he _ ih => exact .cons (h.edge.2 ⟨_, _, rfl, rfl, he⟩) ih

theorem reaches (hs : S s) (hv : S v) : Reaches E' (name s) (name v) c ↔ Reaches E s v c := by
  constructor
  · intro hr
    obtain ⟨v', hv', heq, hr'⟩ := h.lift hs hr
    rwa [h.eq_of_name hv hv' heq]
  · intro hr
    induction hr with
    | refl => exact .refl
    | step hr he ih => exact (ih (h.nodes he).1).step (h.edge.2 ⟨_, _, rfl, rfl, he⟩)

variable [LinearOrder K]

section

variable (hs : S s) (hv : S v)
include hs hv

theorem isDist : IsDist E' (name s) (name v) d ↔ IsDist E s v d := by
  rw [IsDist, IsDist, h.reaches hs hv]
  simp only [h.reaches hs hv]

theorem tight {x : V'} : Tight E' (name s) x (name v) ↔
    ∃ u, S u ∧ x = name u ∧ Tight E s u v := by
  constructor
  · rintro ⟨w, d, he, hd, hdv⟩
    obtain ⟨u, v', rfl, hvv, he⟩ := h.edge.1 he
    obtain rfl := h.eq_of_name hv (h.nodes he).2 hvv
    have hu := (h.nodes he).1
    exact ⟨u, hu, rfl, w, d, he, (h.isDist hs hu).1 hd, (h.isDist hs hv).1 hdv⟩
  · rintro ⟨u, hu, rfl, w, d, he, hd, hdv⟩
    exact ⟨w, d, h.edge.2 ⟨u, v, rfl, rfl, he⟩, (h.isDist hs hu).2 hd, (h.isDist hs hv).2 hdv⟩

theorem back {x : V'} : Back E' (name s) (name v) x ↔
    ∃ u, S u ∧ x = name u ∧ Back E s v u := by
  constructor
  · rintro ⟨hne, ht, hleast⟩
    obtain ⟨u, hu, rfl, hut⟩ := (h.tight hs hv).1 ht
    refine ⟨u, hu, rfl, fun heq => hne (by rw [heq]), hut, fun u' hu' => ?_⟩
    have hSu' : S u' := by
      obtain ⟨w, d, he, -, -⟩ := hu'
      exact (h.nodes he).1
    exact (h.le_iff hu hSu').1 (hleast _ ((h.tight hs hv).2 ⟨u', hSu', rfl, hu'⟩))
  · rintro ⟨u, hu, rfl, hne, ht, hleast⟩
    refine ⟨fun heq => hne (h.eq_of_name hv hs heq), (h.tight hs hv).2 ⟨u, hu, rfl, ht⟩, ?_⟩
    intro x hx
    obtain ⟨u', hu', rfl, ht'⟩ := (h.tight hs hv).1 hx
    exact (h.le_iff hu hu').2 (hleast u' ht')

theorem backs {x : V'} : Relation.ReflTransGen (Back E' (name s)) (name v) x ↔
    ∃ u, S u ∧ x = name u ∧ Relation.ReflTransGen (Back E s) v u := by
  constructor
  · intro hx
    induction hx with
    | refl => exact ⟨v, hv, rfl, .refl⟩
    | tail _ hxy ih =>
      obtain ⟨u, hu, rfl, hvu⟩ := ih
      obtain ⟨u', hu', rfl, huu'⟩ := (h.back hs hu).1 hxy
      exact ⟨u', hu', rfl, hvu.tail huu'⟩
  · rintro ⟨u, hu, rfl, hvu⟩
    induction hvu with
    | refl => exact .refl
    | tail hvx hxu ih =>
      obtain ⟨w, d, he, -, -⟩ := hxu.2.1
      have hx := (h.nodes he).2
      exact (ih hx).tail ((h.back hs hx).2 ⟨_, hu, rfl, hxu⟩)

theorem backsOut : BacksOut E' (name s) (name v) ↔ BacksOut E s v := by
  constructor
  · intro hout u hvu hloop
    obtain ⟨x, hux, hxu⟩ := Relation.TransGen.head'_iff.1 hloop
    obtain ⟨w, d, he, -, -⟩ := hux.2.1
    have hu := (h.nodes he).2
    refine hout (name u) ((h.backs hs hv).2 ⟨u, hu, rfl, hvu⟩) ?_
    have hx := (h.nodes he).1
    exact Relation.TransGen.head' ((h.back hs hu).2 ⟨x, hx, rfl, hux⟩)
      ((h.backs hs hx).2 ⟨u, hu, rfl, hxu⟩)
  · intro hout y hy hloop
    obtain ⟨u, hu, rfl, hvu⟩ := (h.backs hs hv).1 hy
    obtain ⟨y, huy, hyu⟩ := Relation.TransGen.head'_iff.1 hloop
    obtain ⟨x, hx, rfl, hux⟩ := (h.back hs hu).1 huy
    obtain ⟨u', hu', heq, hxu⟩ := (h.backs hs hx).1 hyu
    obtain rfl := h.eq_of_name hu hu' heq
    exact hout u hvu (Relation.TransGen.head' hux hxu)

end

end Embedding

end Embedding

end Walk
