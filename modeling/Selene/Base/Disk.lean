import Mathlib.Data.List.Basic

/-!
# Programs over a disk that may fail

A program changes a state of type `σ` by operations, and a list of faults answers them
in turn: an operation succeeds, reports an error, or the process dies in it. An error or
a death may come before, after or in the middle of the operation's effect. An error can be
handled by the program, a death cannot. When the list is used up nothing fails any more.

`Spec P m Q` says where a program may end, whatever fails: it has one postcondition for
a result, one for an error and one for a death. `Runs` is the run in which nothing fails.
-/

namespace Disk

/-- The answer to one operation; the number says how far it had got. -/
inductive Fault where
  | ok
  | fail (extent : ℕ)
  | crash (extent : ℕ)

inductive Ending (ε α : Type) where
  | done (a : α)
  | error (e : ε)
  | crashed
deriving DecidableEq

def Prog (σ ε α : Type) : Type := σ → List Fault → Ending ε α × σ × List Fault

variable {σ ε α β : Type}

instance : Monad (Prog σ ε) where
  pure a := fun s fs => (.done a, s, fs)
  bind m f := fun s fs =>
    match m s fs with
    | (.done a, s', fs') => f a s' fs'
    | (.error e, s', fs') => (.error e, s', fs')
    | (.crashed, s', fs') => (.crashed, s', fs')

namespace Prog

def throw (e : ε) : Prog σ ε α := fun s fs => (.error e, s, fs)

/-- Turn an error into a value; a death passes through. -/
def attempt (m : Prog σ ε α) : Prog σ ε (Except ε α) := fun s fs =>
  match m s fs with
  | (.done a, s', fs') => (.done (.ok a), s', fs')
  | (.error e, s', fs') => (.done (.error e), s', fs')
  | (.crashed, s', fs') => (.crashed, s', fs')

def lift : Except ε α → Prog σ ε α
  | .ok a => pure a
  | .error e => throw e

/-- One operation: `step` is its full effect, `part n` what is left when it stops early, and `io`
the error it then reports. -/
def op (io : ε) (part : ℕ → σ → σ) (step : σ → Except ε (α × σ)) : Prog σ ε α := fun s fs =>
  match fs with
  | .fail n :: fs => (.error io, part n s, fs)
  | .crash n :: fs => (.crashed, part n s, fs)
  | .ok :: fs =>
    match step s with
    | .ok (a, s') => (.done a, s', fs)
    | .error e => (.error e, s, fs)
  | [] =>
    match step s with
    | .ok (a, s') => (.done a, s', [])
    | .error e => (.error e, s, [])

/-- An operation whose effect is all or nothing. -/
def atomic (io : ε) (step : σ → Except ε (α × σ)) : Prog σ ε α :=
  op io (fun n s => if n = 0 then s else match step s with | .ok (_, s') => s' | .error _ => s) step

/-- An operation that only reads. -/
def look (io : ε) (read : σ → Except ε α) : Prog σ ε α :=
  op io (fun _ s => s) (fun s => (read s).map fun a => (a, s))

end Prog

open Prog

variable {m : Prog σ ε α} {f : α → Prog σ ε β}

theorem bind_apply (s : σ) (fs : List Fault) : (m >>= f) s fs =
      match m s fs with
      | (.done a, s', fs') => f a s' fs'
      | (.error e, s', fs') => (.error e, s', fs')
      | (.crashed, s', fs') => (.crashed, s', fs') := rfl

/-! ## Whatever fails -/

structure Post (σ ε α : Type) where
  done : α → σ → Prop
  error : ε → σ → Prop
  crashed : σ → Prop

def Post.Holds (Q : Post σ ε α) : Ending ε α × σ × List Fault → Prop
  | (.done a, s, _) => Q.done a s
  | (.error e, s, _) => Q.error e s
  | (.crashed, s, _) => Q.crashed s

/-- The same condition at every ending. -/
def Post.always (I : σ → Prop) : Post σ ε α := ⟨fun _ => I, fun _ => I, I⟩

theorem Post.holds_always {I : σ → Prop} {r : Ending ε α × σ × List Fault} :
    (Post.always I).Holds r ↔ I r.2.1 := by
  rcases r with ⟨_ | _ | _, s, fs⟩ <;> exact Iff.rfl

def Spec (P : σ → Prop) (m : Prog σ ε α) (Q : Post σ ε α) : Prop :=
  ∀ s fs, P s → Q.Holds (m s fs)

variable {P : σ → Prop} {E : ε → σ → Prop} {C : σ → Prop}

theorem Spec.mono {P' : σ → Prop} {Q Q' : Post σ ε α} (h : Spec P m Q) (hP : ∀ s, P' s → P s)
    (hd : ∀ a s, Q.done a s → Q'.done a s) (he : ∀ e s, Q.error e s → Q'.error e s)
    (hc : ∀ s, Q.crashed s → Q'.crashed s) : Spec P' m Q' := by
  intro s fs hs
  have := h s fs (hP s hs)
  rcases hm : m s fs with ⟨a | e | _, s', fs'⟩ <;> rw [hm] at this
  · exact hd _ _ this
  · exact he _ _ this
  · exact hc _ this

/-- A program that fails and one that crashes leave what holds wherever it may stop. -/
theorem Spec.stops {done : α → σ → Prop} {S T : σ → Prop} (h : Spec P m ⟨done, fun _ => S, S⟩)
    (hS : ∀ s, S s → T s) : Spec P m ⟨done, fun _ => T, T⟩ :=
  h.mono (fun _ h => h) (fun _ _ h => h) (fun _ => hS) hS

theorem Spec.of_eq {Q : Post σ ε α} (h : ∀ s, P s → Spec (· = s) m Q) : Spec P m Q :=
  fun s fs hs => h s hs s fs rfl

theorem Spec.fact {Q : Post σ ε α} {φ : Prop} (h : φ → Spec P m Q) : Spec (fun s => φ ∧ P s) m Q :=
  fun s fs hs => h hs.1 s fs hs.2

theorem Spec.or {P' : σ → Prop} {Q : Post σ ε α} (h : Spec P m Q) (h' : Spec P' m Q) :
    Spec (fun s => P s ∨ P' s) m Q :=
  fun s fs hs => hs.elim (h s fs) (h' s fs)

theorem spec_pure {Q : α → σ → Prop} {a : α} (h : ∀ s, P s → Q a s) :
    Spec P (pure a : Prog σ ε α) ⟨Q, E, C⟩ := fun s _ hs => h s hs

theorem spec_throw {Q : α → σ → Prop} {e : ε} (h : ∀ s, P s → E e s) :
    Spec P (throw e : Prog σ ε α) ⟨Q, E, C⟩ := fun s _ hs => h s hs

theorem spec_bind {R : α → σ → Prop} {Q : β → σ → Prop} (hm : Spec P m ⟨R, E, C⟩)
    (hf : ∀ a, Spec (R a) (f a) ⟨Q, E, C⟩) : Spec P (m >>= f) ⟨Q, E, C⟩ := by
  intro s fs hs
  have h1 := hm s fs hs
  rw [bind_apply]
  rcases hm : m s fs with ⟨a | e | _, s', fs'⟩ <;> rw [hm] at h1
  · exact hf a s' fs' h1
  · exact h1
  · exact h1

/-- What is known of an attempt's value. -/
def Settled (R : α → σ → Prop) (E : ε → σ → Prop) : Except ε α → σ → Prop
  | .ok a => R a
  | .error e => E e

theorem spec_attempt {R : α → σ → Prop} {E' : ε → σ → Prop} (hm : Spec P m ⟨R, E', C⟩) :
    Spec P (attempt m) ⟨Settled R E', E, C⟩ := by
  intro s fs hs
  have h1 := hm s fs hs
  unfold attempt
  rcases hm : m s fs with ⟨a | e | _, s', fs'⟩ <;> rw [hm] at h1 <;> exact h1

variable {Q : α → σ → Prop}

theorem spec_lift {x : Except ε α} (hok : ∀ a s, x = .ok a → P s → Q a s)
    (herr : ∀ e s, x = .error e → P s → E e s) : Spec P (lift x) ⟨Q, E, C⟩ := by
  cases x with
  | ok a => exact spec_pure fun s hs => hok a s rfl hs
  | error e => exact spec_throw fun s hs => herr e s rfl hs

variable {io : ε} {part : ℕ → σ → σ} {step : σ → Except ε (α × σ)}

theorem spec_op
    (hok : ∀ s a s', P s → step s = .ok (a, s') → Q a s') (herr : ∀ s e, P s → step s = .error e → E e s)
    (hfail : ∀ s n, P s → E io (part n s)) (hcrash : ∀ s n, P s → C (part n s)) :
    Spec P (op io part step) ⟨Q, E, C⟩ := by
  intro s fs hs
  have hstep : ∀ fs', Post.Holds ⟨Q, E, C⟩
      (match step s with | .ok (a, s') => (.done a, s', fs') | .error e => (.error e, s, fs')) := by
    intro fs'
    rcases h : step s with e | ⟨a, s'⟩
    · exact herr s e hs h
    · exact hok s a s' hs h
  rcases fs with _ | ⟨_ | n | n, fs⟩
  · exact hstep []
  · exact hstep fs
  · exact hfail s n hs
  · exact hcrash s n hs

theorem spec_atomic {io : ε} {step : σ → Except ε (α × σ)}
    (hok : ∀ s a s', P s → step s = .ok (a, s') → Q a s' ∧ E io s' ∧ C s')
    (herr : ∀ s e, P s → step s = .error e → E e s) (hstay : ∀ s, P s → E io s ∧ C s) :
    Spec P (atomic io step) ⟨Q, E, C⟩ := by
  have hpart : ∀ s (n : ℕ), P s → E io (if n = 0 then s else match step s with | .ok (_, s') => s' | .error _ => s) ∧
      C (if n = 0 then s else match step s with | .ok (_, s') => s' | .error _ => s) := by
    intro s n hs
    split
    · exact hstay s hs
    · rcases h : step s with e | ⟨a, s'⟩
      · exact hstay s hs
      · exact (hok s a s' hs h).2
  exact spec_op (fun s a s' hs h => (hok s a s' hs h).1) herr (fun s n hs => (hpart s n hs).1)
    fun s n hs => (hpart s n hs).2

theorem spec_look {io : ε} {read : σ → Except ε α}
    (hok : ∀ s a, P s → read s = .ok a → Q a s) (herr : ∀ s e, P s → E e s) (hcrash : ∀ s, P s → C s) :
    Spec P (look io read) ⟨Q, E, C⟩ := by
  refine spec_op (fun s a s' hs h => ?_) (fun s e hs _ => herr s e hs) (fun s _ hs => herr s io hs)
    (fun s _ hs => hcrash s hs)
  rcases hr : read s with e | b
  · rw [hr] at h; cases h
  · rw [hr] at h; cases h; exact hok s a hs hr

/-! ## Nothing fails -/

/-- Without faults the program ends with `a` in the state `t`. -/
def Runs (m : Prog σ ε α) (s : σ) (a : α) (t : σ) : Prop := m s [] = (.done a, t, [])

theorem runs_pure (a : α) (s : σ) : Runs (pure a : Prog σ ε α) s a s := rfl

theorem Runs.bind {s t u : σ} {a : α} {b : β} (h1 : Runs m s a t) (h2 : Runs (f a) t b u) :
    Runs (m >>= f) s b u := by
  unfold Runs at h1 ⊢
  rw [bind_apply, h1]
  exact h2

theorem runs_lift {x : Except ε α} {a : α} (h : x = .ok a) (s : σ) : Runs (lift x) s a s := by
  rw [h]; rfl

theorem Runs.attempt {s t : σ} {a : α} (h : Runs m s a t) : Runs (attempt m) s (.ok a) t := by
  unfold Runs at h ⊢
  rw [Prog.attempt, h]

theorem runs_op {s t : σ} {a : α}
    (h : step s = .ok (a, t)) : Runs (op io part step) s a t := by
  show (match step s with | .ok (a, s') => (Ending.done a, s', []) | .error e => (.error e, s, [])) = _
  rw [h]

theorem runs_look {io : ε} {read : σ → Except ε α} {s : σ} {a : α} (h : read s = .ok a) :
    Runs (look io read) s a s := by
  apply runs_op
  rw [h]; rfl

end Disk
