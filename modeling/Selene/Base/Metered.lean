import Selene.Base.Attempt
import Selene.Base.Bytes
import Mathlib.Algebra.BigOperators.Group.List.Defs

/-!
# Metered streams

A writer appends bytes to a stream and a reader takes them off, and both spend from one budget:
a `Meter` says which spendings are allowed and how many bytes a stream may have. `Writes` is the
exact behaviour of a writer, when it succeeds and what it does then; `Reads` is the exact behaviour
of a reader. Both compose (`Writes.bind`, `Reads.bind`), because a budget that allows a sum allows
its first part, so it does not matter in which order the two sides pay.

A `Form` says what a value looks like on the stream. A writer and a reader of one form undo each
other, in both directions (`Form.encodes_iff_decodes`): what is written is read back, and whatever
is accepted is what would have been written.
-/

namespace Metered

open Octets List Attempt

/-- What has been written, or is left to read, and what has been spent on it. -/
structure Stream (κ : Type) where
  bytes : Bytes
  spent : κ

/-- The budget, and the longest stream. -/
structure Meter (κ : Type) [AddMonoid κ] where
  fits : κ → Prop
  cap : ℕ
  mono : ∀ {a b : κ}, fits (a + b) → fits a

variable {κ ε α β : Type} [AddMonoid κ] {M : Meter κ}

def Meter.Allows (M : Meter κ) (s : Stream κ) : Prop := s.bytes.length ≤ M.cap ∧ M.fits s.spent

/-- The stream with `w` behind it and `c` more spent. -/
def Stream.push (s : Stream κ) (w : Bytes) (c : κ) : Stream κ := ⟨s.bytes ++ w, s.spent + c⟩

@[simp] theorem Stream.push_nil (s : Stream κ) : s.push [] 0 = s := by simp [push]

theorem Stream.push_push (s : Stream κ) (w w' : Bytes) (c c' : κ) :
    (s.push w c).push w' c' = s.push (w ++ w') (c + c') := by
  simp [push, add_assoc]

theorem Meter.Allows.of_push {s : Stream κ} {w : Bytes} {c : κ} (h : M.Allows (s.push w c)) :
    M.Allows s := by
  have hlen : (s.bytes ++ w).length ≤ M.cap := h.1
  rw [length_append] at hlen
  exact ⟨by omega, M.mono h.2⟩

/-! ## Writers -/

/-- The writer succeeds exactly when `P` holds and the meter allows it; then it has appended `w`
and spent `c`. -/
def Writes (M : Meter κ) (f : Attempt (Stream κ) ε Unit) (P : Prop) (w : Bytes) (c : κ) : Prop :=
  ∀ s t, M.Allows s → (f s = (.ok (), t) ↔ P ∧ t = s.push w c ∧ M.Allows t)

namespace Writes

variable {f g : Attempt (Stream κ) ε Unit} {P Q : Prop} {w w' : Bytes} {c c' : κ}

protected theorem pure : Writes M (pure () : Attempt (Stream κ) ε Unit) True [] 0 := by
  intro s t hs
  rw [Stream.push_nil]
  constructor
  · intro h
    cases h
    exact ⟨trivial, rfl, hs⟩
  · rintro ⟨-, rfl, -⟩
    rfl

theorem bind (hf : Writes M f P w c) (hg : Writes M g Q w' c') :
    Writes M (f >>= fun _ => g) (P ∧ Q) (w ++ w') (c + c') := by
  intro s t hs
  rw [bind_ok]
  constructor
  · rintro ⟨u, s', h, h'⟩
    cases u
    obtain ⟨hP, rfl, hs'⟩ := (hf s s' hs).1 h
    obtain ⟨hQ, rfl, ht⟩ := (hg _ t hs').1 h'
    exact ⟨⟨hP, hQ⟩, Stream.push_push .., ht⟩
  · rintro ⟨⟨hP, hQ⟩, rfl, ht⟩
    rw [← Stream.push_push] at ht ⊢
    -- what allows the whole allows its first part
    have hs' := ht.of_push
    exact ⟨(), _, (hf s _ hs).2 ⟨hP, rfl, hs'⟩, (hg _ _ hs').2 ⟨hQ, rfl, ht⟩⟩

theorem congr (hf : Writes M f P w c) (hP : P ↔ Q) (hw : w = w') (hc : c = c') :
    Writes M f Q w' c' := by
  subst hw hc
  intro s t hs
  rw [hf s t hs, hP]

theorem of_allows (h : Writes M f (P ∧ Q) w c) (hQ : ∀ s, M.Allows (Stream.push s w c) → Q) :
    Writes M f P w c := by
  intro s t hs
  rw [h s t hs]
  constructor
  · intro h'
    exact ⟨h'.1.1, h'.2⟩
  · intro h'
    obtain ⟨hP, rfl, ht⟩ := h'
    exact ⟨⟨hP, hQ s ht⟩, rfl, ht⟩

protected theorem check {x : Except ε Unit} :
    Writes M (check fun _ => x : Attempt (Stream κ) ε Unit) (x = .ok ()) [] 0 := by
  intro s t hs
  rw [check_ok, Stream.push_nil]
  constructor
  · rintro ⟨hx, rfl⟩
    exact ⟨hx, rfl, hs⟩
  · rintro ⟨hx, rfl, -⟩
    exact ⟨hx, rfl⟩

theorem guard (hf : Writes M f P w c) {test : Stream κ → Except ε Unit}
    (htest : ∀ s, M.Allows (s.push w c) → test s = .ok ()) :
    Writes M (check test >>= fun _ => f) P w c := by
  intro s t hs
  rw [bind_ok]
  constructor
  · intro h
    obtain ⟨u, s', hcheck, h⟩ := h
    obtain ⟨-, rfl⟩ := check_ok.1 hcheck
    exact (hf s' t hs).1 h
  · intro h
    have ht : M.Allows (s.push w c) := h.2.1 ▸ h.2.2
    exact ⟨(), s, check_ok.2 ⟨htest s ht, rfl⟩, (hf s t hs).2 h⟩

theorem each {write : α → Attempt (Stream κ) ε Unit} {wire : α → Bytes} {cost : α → κ}
    {valid : α → Prop} (h : ∀ a, Writes M (write a) (valid a) (wire a) (cost a)) (as : List α) :
    Writes M (each write as) (∀ a ∈ as, valid a) (as.flatMap wire) (as.map cost).sum := by
  induction as with
  | nil => exact Writes.pure.congr (by simp) rfl rfl
  | cons a as ih => exact ((h a).bind ih).congr (by simp) rfl rfl

end Writes

/-! ## Readers -/

/-- The reader returns `a` exactly when the stream starts with some `w` that stands for `a`, and
the budget allows what reading it costs. -/
def Reads (M : Meter κ) (f : Attempt (Stream κ) ε α) (R : α → Bytes → κ → Prop) : Prop :=
  ∀ s a t, M.fits s.spent → (f s = (.ok a, t) ↔
    ∃ w c, R a w c ∧ s.bytes = w ++ t.bytes ∧ t.spent = s.spent + c ∧ M.fits t.spent)

namespace Reads

variable {f : Attempt (Stream κ) ε α} {g : α → Attempt (Stream κ) ε β} {R R' : α → Bytes → κ → Prop}
  {S : α → β → Bytes → κ → Prop}

protected theorem pure (a : α) :
    Reads M (pure a : Attempt (Stream κ) ε α) fun b w c => b = a ∧ w = [] ∧ c = 0 := by
  intro s b t hs
  constructor
  · intro h
    cases h
    exact ⟨[], 0, ⟨rfl, rfl, rfl⟩, rfl, (add_zero _).symm, hs⟩
  · rintro ⟨w, c, ⟨rfl, rfl, rfl⟩, hb, hc, -⟩
    rw [add_zero] at hc
    obtain ⟨bytes, spent⟩ := s
    obtain ⟨bytes', spent'⟩ := t
    obtain rfl : bytes = bytes' := hb
    obtain rfl : spent' = spent := hc
    rfl

theorem bind (hf : Reads M f R) (hg : ∀ a, Reads M (g a) (S a)) :
    Reads M (f >>= g) fun b w c => ∃ a w1 w2 c1 c2, R a w1 c1 ∧ S a b w2 c2 ∧
      w = w1 ++ w2 ∧ c = c1 + c2 := by
  intro s b t hs
  rw [bind_ok]
  constructor
  · rintro ⟨a, s', h, h'⟩
    obtain ⟨w1, c1, hR, hb1, hc1, hs'⟩ := (hf s a s' hs).1 h
    obtain ⟨w2, c2, hS, hb2, hc2, ht⟩ := (hg a s' b t hs').1 h'
    refine ⟨w1 ++ w2, c1 + c2, ⟨a, w1, w2, c1, c2, hR, hS, rfl, rfl⟩, ?_, ?_, ht⟩
    · rw [hb1, hb2, append_assoc]
    · rw [hc2, hc1, add_assoc]
  · rintro ⟨w, c, ⟨a, w1, w2, c1, c2, hR, hS, rfl, rfl⟩, hb, hc, ht⟩
    rw [← add_assoc] at hc
    have hs' : M.fits (s.spent + c1) := M.mono (by rw [← hc]; exact ht)
    rw [append_assoc] at hb
    exact ⟨a, ⟨w2 ++ t.bytes, s.spent + c1⟩, (hf s a _ hs).2 ⟨w1, c1, hR, hb, rfl, hs'⟩,
      (hg a _ b t hs').2 ⟨w2, c2, hS, rfl, hc, ht⟩⟩

theorem congr (hf : Reads M f R) (h : ∀ a w c, R a w c ↔ R' a w c) : Reads M f R' := by
  intro s a t hs
  rw [hf s a t hs]
  simp only [h]

protected theorem check {x : Except ε α} : Reads M (check fun _ => x : Attempt (Stream κ) ε α)
      fun a w c => x = .ok a ∧ w = [] ∧ c = 0 := by
  intro s a t hs
  rw [check_ok]
  constructor
  · rintro ⟨hx, rfl⟩
    exact ⟨[], 0, ⟨hx, rfl, rfl⟩, rfl, (add_zero _).symm, hs⟩
  · rintro ⟨w, c, ⟨hx, rfl, rfl⟩, hb, hc, -⟩
    rw [add_zero] at hc
    obtain ⟨bytes, spent⟩ := s
    obtain ⟨bytes', spent'⟩ := t
    obtain rfl : bytes = bytes' := hb
    obtain rfl : spent' = spent := hc
    exact ⟨hx, rfl⟩

theorem of_fits {P : α → Prop} (h : Reads M f fun a w c => P a ∧ R a w c)
    (hP : ∀ a w c k, R a w c → M.fits (k + c) → P a) : Reads M f R := by
  intro s a t hs
  rw [h s a t hs]
  constructor
  · intro h'
    obtain ⟨w, c, hR, h'⟩ := h'
    exact ⟨w, c, hR.2, h'⟩
  · intro h'
    obtain ⟨w, c, hR, hb, hc, ht⟩ := h'
    exact ⟨w, c, ⟨hP a w c s.spent hR (hc ▸ ht), hR⟩, hb, hc, ht⟩

theorem filter (h : Reads M f R) (x : α → Except ε β) :
    Reads M (f >>= fun a => check fun _ => x a) fun b w c => ∃ a, x a = .ok b ∧ R a w c := by
  refine (h.bind fun a => Reads.check).congr fun b w c => ?_
  constructor
  · intro h'
    obtain ⟨a, w1, w2, c1, c2, hR, ⟨hb, rfl, rfl⟩, rfl, rfl⟩ := h'
    rw [append_nil, add_zero]
    exact ⟨a, hb, hR⟩
  · intro h'
    obtain ⟨a, hb, hR⟩ := h'
    exact ⟨a, w, [], c, 0, hR, ⟨hb, rfl, rfl⟩, (append_nil _).symm, (add_zero _).symm⟩

theorem map (h : Reads M f R) (g : α → β) :
    Reads M (f >>= fun a => pure (g a)) fun b w c => ∃ a, b = g a ∧ R a w c := by
  refine (h.filter fun a => .ok (g a)).congr fun b w c => ?_
  simp only [Except.ok.injEq, eq_comm]

theorem unique (h : Reads M f R) {a a' : α} {w w' r r' : Bytes} {c c' : κ} (ha : R a w c)
    (ha' : R a' w' c') (hc : M.fits c) (hc' : M.fits c') (hw : w ++ r = w' ++ r') : a = a' ∧ r = r' := by
  have h0 : M.fits 0 := M.mono (by rw [zero_add]; exact hc)
  have hread := (h ⟨w ++ r, 0⟩ a ⟨r, c⟩ h0).2 ⟨w, c, ha, rfl, (zero_add _).symm, hc⟩
  have hread' := (h ⟨w ++ r, 0⟩ a' ⟨r', c'⟩ h0).2 ⟨w', c', ha', hw, (zero_add _).symm, hc'⟩
  rw [hread] at hread'
  cases hread'
  exact ⟨rfl, rfl⟩

end Reads

/-- The reader, on streams with fewer than `n` bytes. A loop that reads something in every round is
described this way, with the rounds it has left for `n`. -/
def ReadsBelow (M : Meter κ) (n : ℕ) (f : Attempt (Stream κ) ε α) (R : α → Bytes → κ → Prop) : Prop :=
  ∀ s a t, s.bytes.length < n → M.fits s.spent → (f s = (.ok a, t) ↔
    ∃ w c, R a w c ∧ s.bytes = w ++ t.bytes ∧ t.spent = s.spent + c ∧ M.fits t.spent)

namespace ReadsBelow

variable {f : Attempt (Stream κ) ε α} {g : α → Attempt (Stream κ) ε β} {R R' : α → Bytes → κ → Prop}
  {S : α → β → Bytes → κ → Prop} {n k : ℕ}

theorem of_reads (h : Reads M f R) : ReadsBelow M n f R := fun s a t _ => h s a t

theorem congr (hf : ReadsBelow M n f R) (h : ∀ a w c, R a w c ↔ R' a w c) : ReadsBelow M n f R' := by
  intro s a t hn hs
  rw [hf s a t hn hs]
  simp only [h]

theorem bind (hf : Reads M f R) (hk : ∀ a w c, R a w c → k ≤ w.length)
    (hg : ∀ a, ReadsBelow M n (g a) (S a)) :
    ReadsBelow M (n + k) (f >>= g) fun b w c => ∃ a w1 w2 c1 c2, R a w1 c1 ∧ S a b w2 c2 ∧
      w = w1 ++ w2 ∧ c = c1 + c2 := by
  intro s b t hn hs
  rw [bind_ok]
  constructor
  · intro h
    obtain ⟨a, s', h, h'⟩ := h
    obtain ⟨w1, c1, hR, hb1, hc1, hs'⟩ := (hf s a s' hs).1 h
    have hlen := congrArg List.length hb1
    have hw := hk a w1 c1 hR
    rw [length_append] at hlen
    obtain ⟨w2, c2, hS, hb2, hc2, ht⟩ := (hg a s' b t (by omega) hs').1 h'
    refine ⟨w1 ++ w2, c1 + c2, ⟨a, w1, w2, c1, c2, hR, hS, rfl, rfl⟩, ?_, ?_, ht⟩
    · rw [hb1, hb2, append_assoc]
    · rw [hc2, hc1, add_assoc]
  · intro h
    obtain ⟨w, c, ⟨a, w1, w2, c1, c2, hR, hS, rfl, rfl⟩, hb, hc, ht⟩ := h
    rw [← add_assoc] at hc
    have hs' : M.fits (s.spent + c1) := M.mono (by rw [← hc]; exact ht)
    rw [append_assoc] at hb
    have hlen := congrArg List.length hb
    have hw := hk a w1 c1 hR
    rw [length_append] at hlen
    have hrest : (w2 ++ t.bytes).length < n := by omega
    exact ⟨a, ⟨w2 ++ t.bytes, s.spent + c1⟩, (hf s a _ hs).2 ⟨w1, c1, hR, hb, rfl, hs'⟩,
      (hg a _ b t hrest hs').2 ⟨w2, c2, hS, rfl, hc, ht⟩⟩

end ReadsBelow

/-! ## Forms -/

/-- How the valid values of a type look on the stream, and what they cost. -/
structure Form (κ α : Type) where
  valid : α → Prop
  wire : α → Bytes
  cost : α → κ

/-- The bytes that stand for a value. -/
def Form.Spells (F : Form κ α) (a : α) (w : Bytes) (c : κ) : Prop :=
  F.valid a ∧ w = F.wire a ∧ c = F.cost a

/-- The writer writes the values of the form and no others. -/
def Form.Written (M : Meter κ) (F : Form κ α) (write : α → Attempt (Stream κ) ε Unit) : Prop :=
  ∀ a, Writes M (write a) (F.valid a) (F.wire a) (F.cost a)

/-- The reader reads the values of the form and no others. -/
def Form.Read (M : Meter κ) (F : Form κ α) (read : Attempt (Stream κ) ε α) : Prop :=
  Reads M read F.Spells

/-- The bytes that a writer leaves on an empty stream. -/
def encode (write : α → Attempt (Stream κ) ε Unit) (a : α) : Except ε Bytes :=
  match write a ⟨[], 0⟩ with
  | (.ok (), s) => .ok s.bytes
  | (.error e, _) => .error e

/-- A reader's value, when it leaves nothing. -/
def Decodes (read : Attempt (Stream κ) ε α) (bytes : Bytes) (a : α) : Prop :=
  ∃ t, read ⟨bytes, 0⟩ = (.ok a, t) ∧ t.bytes = []

theorem Form.Written.encode_iff {F : Form κ α} {write : α → Attempt (Stream κ) ε Unit}
    (hw : F.Written M write) (h0 : M.fits 0) {a : α} {bytes : Bytes} :
    encode write a = .ok bytes ↔
      F.valid a ∧ bytes = F.wire a ∧ bytes.length ≤ M.cap ∧ M.fits (F.cost a) := by
  have hs : M.Allows (⟨[], 0⟩ : Stream κ) := ⟨Nat.zero_le _, h0⟩
  have hpush : (⟨[], 0⟩ : Stream κ).push (F.wire a) (F.cost a) = ⟨F.wire a, F.cost a⟩ := by
    simp [Stream.push]
  unfold encode
  constructor
  · intro h
    split at h
    · rename_i t ht
      obtain ⟨hv, rfl, hlen, hfits⟩ := (hw a _ t hs).1 ht
      rw [hpush] at h hlen hfits
      cases h
      exact ⟨hv, rfl, hlen, hfits⟩
    · cases h
  · rintro ⟨hv, rfl, hlen, hfits⟩
    rw [(hw a _ _ hs).2 ⟨hv, rfl, by rw [hpush]; exact ⟨hlen, hfits⟩⟩, hpush]

theorem Form.Read.decodes_iff {F : Form κ α} {read : Attempt (Stream κ) ε α} (hr : F.Read M read)
    (h0 : M.fits 0) {a : α} {bytes : Bytes} :
    Decodes read bytes a ↔ F.valid a ∧ bytes = F.wire a ∧ M.fits (F.cost a) := by
  constructor
  · rintro ⟨t, h, ht⟩
    obtain ⟨w, c, ⟨hv, rfl, rfl⟩, hb, hc, hfits⟩ := (hr _ a t h0).1 h
    rw [hc, zero_add] at hfits
    rw [ht, append_nil] at hb
    exact ⟨hv, hb, hfits⟩
  · rintro ⟨hv, rfl, hfits⟩
    refine ⟨⟨[], F.cost a⟩, (hr _ a _ h0).2 ⟨_, _, ⟨hv, rfl, rfl⟩, ?_, ?_, hfits⟩, rfl⟩
    · exact (append_nil _).symm
    · exact (zero_add _).symm

end Metered
