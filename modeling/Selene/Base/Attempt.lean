import Mathlib.Data.List.Forall2

/-!
# Computations that keep their state when they refuse

An `Attempt σ ε α` runs on a state of type `σ` and either returns a value or refuses with an
error. Unlike `Except ε (α × σ)` it has a state to show in both cases: what was written before
a refusal stays written. A run is taken apart with `bind_ok` and `bind_error`, and a loop with
`each_ok`.
-/

def Attempt (σ ε α : Type) : Type := σ → Except ε α × σ

namespace Attempt

variable {σ τ ε α β : Type}

instance : Monad (Attempt σ ε) where
  pure a := fun s => (.ok a, s)
  bind m f := fun s =>
    match m s with
    | (.ok a, s') => f a s'
    | (.error e, s') => (.error e, s')

/-- A test of the state; nothing is written. -/
def check (f : σ → Except ε α) : Attempt σ ε α := fun s => (f s, s)

/-- A write that cannot be refused. -/
def change (f : σ → σ) : Attempt σ ε Unit := fun s => (.ok (), f s)

/-- A computation on one part of the state. -/
def within (get : σ → τ) (put : τ → σ → σ) (m : Attempt τ ε α) : Attempt σ ε α := fun s =>
  ((m (get s)).1, put (m (get s)).2 s)

/-- The loop over a list; it stops at the first refusal. -/
def each (f : β → Attempt σ ε Unit) : List β → Attempt σ ε Unit
  | [] => pure ()
  | b :: bs => do f b; each f bs

variable {m : Attempt σ ε α} {f : α → Attempt σ ε β} {s t : σ} {e : ε} {b : β}

@[simp] theorem pure_apply (a : α) (s : σ) : (pure a : Attempt σ ε α) s = (.ok a, s) := rfl

@[simp] theorem check_apply (g : σ → Except ε α) (s : σ) : check g s = (g s, s) := rfl

@[simp] theorem change_apply (g : σ → σ) (s : σ) :
    (change g : Attempt σ ε Unit) s = (.ok (), g s) := rfl

theorem bind_apply (s : σ) : (m >>= f) s =
      match m s with
      | (.ok a, s') => f a s'
      | (.error e, s') => (.error e, s') := rfl

theorem bind_ok : (m >>= f) s = (.ok b, t) ↔ ∃ a s', m s = (.ok a, s') ∧ f a s' = (.ok b, t) := by
  rw [bind_apply]
  rcases h : m s with ⟨e | a, s'⟩ <;> simp

/-- A computation that refuses has returned at every step before the one that refused. -/
theorem bind_error : (m >>= f) s = (.error e, t) ↔
    m s = (.error e, t) ∨ ∃ a s', m s = (.ok a, s') ∧ f a s' = (.error e, t) := by
  rw [bind_apply]
  rcases h : m s with ⟨e | a, s'⟩ <;> simp

theorem bind_of_ok {a : α} {s' : σ} (h : m s = (.ok a, s')) : (m >>= f) s = f a s' := by
  rw [bind_apply, h]

theorem bind_bind {γ : Type} (g : β → Attempt σ ε γ) :
    (m >>= f) >>= g = m >>= fun a => f a >>= g := by
  funext s
  simp only [bind_apply]
  rcases m s with ⟨e | a, s'⟩ <;> rfl

theorem check_ok {g : σ → Except ε α} {a : α} : check g s = (.ok a, t) ↔ g s = .ok a ∧ t = s := by
  simp only [check_apply, Prod.mk.injEq, eq_comm]

theorem except_bind_ok {x : Except ε α} {k : α → Except ε β} :
    x >>= k = .ok b ↔ ∃ a, x = .ok a ∧ k a = .ok b := by
  cases x <;> simp [bind, Except.bind]

theorem except_forM_ok {α ε : Type} {l : List α} {f : α → Except ε Unit} :
    l.forM f = .ok () ↔ ∀ a ∈ l, f a = .ok () := by
  induction l with
  | nil => simp [pure, Except.pure]
  | cons a l ih =>
    rw [List.forall_mem_cons, ← ih]
    refine except_bind_ok.trans ⟨?_, ?_⟩
    · rintro ⟨⟨⟩, ha, hl⟩
      exact ⟨ha, hl⟩
    · rintro ⟨ha, hl⟩
      exact ⟨(), ha, hl⟩

section

variable {α β ε : Type} {step : β → α → Except ε β}

theorem except_foldlM_ok {f : β → α → β} {l : List α}
    (h : ∀ b, ∀ a ∈ l, step b a = .ok (f b a)) (b : β) : l.foldlM step b = .ok (l.foldl f b) := by
  induction l generalizing b with
  | nil => rfl
  | cons a l ih =>
    rw [List.foldlM_cons, h b a List.mem_cons_self]
    exact ih (fun b a ha => h b a (List.mem_cons_of_mem _ ha)) (f b a)

theorem except_foldlM_turn {l : List α} {b c : β}
    (h : l.foldlM step b = .ok c) {a : α} (ha : a ∈ l) : ∃ b0 b1, step b0 a = .ok b1 := by
  induction l generalizing b with
  | nil => simp at ha
  | cons a' l ih =>
    rw [List.foldlM_cons, except_bind_ok] at h
    obtain ⟨b1, hfirst, hrest⟩ := h
    rcases List.mem_cons.1 ha with rfl | ha
    · exact ⟨b, b1, hfirst⟩
    · exact ih hrest ha

theorem except_foldlM_error {l : List α} {b : β} {e : ε}
    (h : l.foldlM step b = .error e) : ∃ a ∈ l, ∃ b0, step b0 a = .error e := by
  induction l generalizing b with
  | nil => cases h
  | cons a l ih =>
    rw [List.foldlM_cons] at h
    cases hfirst : step b a with
    | error e' =>
      rw [hfirst] at h
      cases h
      exact ⟨a, List.mem_cons_self, b, hfirst⟩
    | ok b1 =>
      rw [hfirst] at h
      obtain ⟨a', ha', b0, hturn⟩ := ih h
      exact ⟨a', List.mem_cons_of_mem a ha', b0, hturn⟩

end

theorem except_mapError_ok {α ε ε' : Type} {f : ε → ε'} {x : Except ε α} {a : α} :
    x.mapError f = .ok a ↔ x = .ok a := by
  cases x <;> simp [Except.mapError]

theorem except_foldlM_mapError_ok {α β ε ε' : Type} {f : ε → ε'} {step : β → α → Except ε β}
    {l : List α} {b c : β} : l.foldlM (fun b a => (step b a).mapError f) b = .ok c ↔
      l.foldlM step b = .ok c := by
  induction l generalizing b with
  | nil => simp [pure, Except.pure]
  | cons a l ih =>
    rw [List.foldlM_cons, List.foldlM_cons, except_bind_ok, except_bind_ok]
    simp only [except_mapError_ok, ih]

theorem check_bind_ok {g : σ → Except ε α} :
    (check g >>= f) s = (.ok b, t) ↔ ∃ a, g s = .ok a ∧ f a s = (.ok b, t) := by
  rw [bind_apply, check_apply]
  cases g s <;> simp

theorem check_bind_error {g : σ → Except ε α} : (check g >>= f) s = (.error e, t) ↔
      g s = .error e ∧ t = s ∨ ∃ a, g s = .ok a ∧ f a s = (.error e, t) := by
  rw [bind_apply, check_apply]
  cases g s <;> simp [eq_comm]

@[simp] theorem each_nil (f : β → Attempt σ ε Unit) (s : σ) : each f [] s = (.ok (), s) := rfl

theorem each_cons (f : β → Attempt σ ε Unit) (b : β) (bs : List β) :
    each f (b :: bs) = (do f b; each f bs) := rfl

/-- **The loop rule.** What every turn keeps holds at the end; the invariant may depend on the
turns that are left. -/
theorem each_ok {f : β → Attempt σ ε Unit} {I : List β → σ → Prop}
    (hstep : ∀ b bs s t, I (b :: bs) s → f b s = (.ok (), t) → I bs t) :
    ∀ {bs : List β} {s t : σ}, I bs s → each f bs s = (.ok (), t) → I [] t := by
  intro bs
  induction bs with
  | nil =>
    intro s t hI h
    cases h
    exact hI
  | cons b bs ih =>
    intro s t hI h
    obtain ⟨⟨⟩, s', hb, hbs⟩ := bind_ok.1 h
    exact ih (hstep b bs s s' hI hb) hbs

theorem each_error {f : β → Attempt σ ε Unit} :
    ∀ {bs : List β} {s t : σ}, each f bs s = (.error e, t) →
      ∃ pre c post u, bs = pre ++ c :: post ∧ each f pre s = (.ok (), u) ∧ f c u = (.error e, t) := by
  intro bs
  induction bs with
  | nil => intro s t h; cases h
  | cons b bs ih =>
    intro s t h
    rcases bind_error.1 h with hb | ⟨⟨⟩, s', hb, hbs⟩
    · exact ⟨[], b, bs, s, rfl, rfl, hb⟩
    · obtain ⟨pre, c, post, u, rfl, hpre, hc⟩ := ih hbs
      exact ⟨b :: pre, c, post, u, rfl, by rw [each_cons, bind_of_ok hb]; exact hpre, hc⟩

/-! ## What holds whether a computation returns or is refused -/

/-- `R` holds between the states before and after, on every outcome. -/
def Keeps (R : σ → σ → Prop) (m : Attempt σ ε α) : Prop := ∀ s, R s (m s).2

section Keeps

variable {R : σ → σ → Prop}

theorem Keeps.check (hrefl : ∀ s, R s s) (g : σ → Except ε α) : Keeps R (check g) := hrefl

theorem Keeps.bind (htrans : ∀ {s t u}, R s t → R t u → R s u) (hm : Keeps R m)
    (hf : ∀ a, Keeps R (f a)) : Keeps R (m >>= f) := by
  intro s
  have hs := hm s
  rw [bind_apply]
  rcases h : m s with ⟨e | a, s'⟩ <;> rw [h] at hs
  · exact hs
  · exact htrans hs (hf a s')

theorem Keeps.each (hrefl : ∀ s, R s s) (htrans : ∀ {s t u}, R s t → R t u → R s u)
    {f : β → Attempt σ ε Unit} (hf : ∀ b, Keeps R (f b)) : ∀ bs, Keeps R (each f bs)
  | [] => hrefl
  | b :: bs => Keeps.bind htrans (hf b) fun _ => Keeps.each hrefl htrans hf bs

end Keeps

end Attempt

theorem mapM_eq_some_iff {α β : Type} {f : α → Option β} {l : List α} {m : List β} :
    l.mapM f = some m ↔ List.Forall₂ (fun a b => f a = some b) l m := by
  induction l generalizing m with
  | nil => simp [eq_comm]
  | cons a l ih =>
    rw [List.mapM_cons, List.forall₂_cons_left_iff]
    simp only [Option.bind_eq_bind, Option.bind_eq_some_iff, Option.pure_def, Option.some.injEq, ih]
    constructor
    · rintro ⟨b, hb, m', hm, rfl⟩
      exact ⟨b, m', hb, hm, rfl⟩
    · rintro ⟨b, m', hb, hm, rfl⟩
      exact ⟨b, hb, m', hm, rfl⟩
