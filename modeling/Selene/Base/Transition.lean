import Mathlib.Data.List.Basic
import Mathlib.Order.Basic

/-!
# Labelled transition systems

A system is a partial step function `step : σ → α → Option σ`: `none` is "not
enabled". `run` iterates it along a list of labels. The rules below are the only
inductions over runs that the rest of the development needs:

* `run_invariant`: what every step keeps, every run keeps;
* `run_rel`: a reflexive and transitive relation kept by every step holds between
  the two ends of a run;
* `run_bounded`: a measure that every step lowers bounds the length of a run.
-/

namespace Transition

variable {σ α : Type*}

/-- The state after the labels `as`, or `none` when one of them is not enabled. -/
def run (step : σ → α → Option σ) : σ → List α → Option σ
  | s, [] => some s
  | s, a :: as => (step s a).bind fun s' => run step s' as

variable {step : σ → α → Option σ}

@[simp] theorem run_nil (s : σ) : run step s [] = some s := rfl

theorem run_cons {s s' : σ} {a : α} {as : List α} :
    run step s (a :: as) = some s' ↔ ∃ t, step s a = some t ∧ run step t as = some s' := by
  simp [run, Option.bind_eq_some_iff]

theorem run_rel {R : σ → σ → Prop} (hrefl : ∀ s, R s s) (htrans : ∀ {s t u}, R s t → R t u → R s u)
    (hstep : ∀ {s a t}, step s a = some t → R s t) :
    ∀ {as : List α} {s t : σ}, run step s as = some t → R s t := by
  intro as
  induction as with
  | nil => intro s t h; cases h; exact hrefl _
  | cons a as ih =>
    intro s t h
    obtain ⟨u, hu, hr⟩ := run_cons.1 h
    exact htrans (hstep hu) (ih hr)

theorem run_invariant {I : σ → Prop} (hstep : ∀ {s a t}, step s a = some t → I s → I t)
    {as : List α} {s t : σ} (h : run step s as = some t) (hs : I s) : I t :=
  run_rel (R := fun s t => I s → I t) (fun _ => id) (fun h1 h2 => h2 ∘ h1) hstep h hs

/-- Labels in `P` only, each lowering `μ`: the run is no longer than `μ` of its first state. -/
theorem run_bounded {I : σ → Prop} {P : α → Prop} {μ : σ → ℕ}
    (hI : ∀ {s a t}, step s a = some t → I s → I t)
    (hμ : ∀ {s a t}, I s → P a → step s a = some t → μ t < μ s) :
    ∀ {as : List α} {s t : σ}, I s → (∀ a ∈ as, P a) → run step s as = some t →
      as.length + μ t ≤ μ s := by
  intro as
  induction as with
  | nil => intro s t _ _ h; cases h; simp
  | cons a as ih =>
    intro s t hs hP h
    obtain ⟨u, hu, hr⟩ := run_cons.1 h
    have h1 := hμ hs (hP a (by simp)) hu
    have h2 := ih (hI hu hs) (fun b hb => hP b (by simp [hb])) hr
    simp only [List.length_cons]; omega

end Transition
