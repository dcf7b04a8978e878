import Selene.Query.Aggregate
import Selene.Proof.FoldingExact

/-!
# Sums of integers

Adding one integer refuses what does not fit 128 bits (`observeSum_integer`), so whether a sum is
returned depends on the sums on the way there, and these on the order of the rows
(`integer_sum_exact_iff`). So does whether it is returned as an `Int` (`integer_sum_narrow_iff`).
-/

namespace Selene.Query

open Selene.Graph IntRange List

variable (native : Native) (span : SourceSpan)

def IntRange.Has (r : IntRange) (i : ℤ) : Prop := r.min ≤ i ∧ i ≤ r.max

/-- The number of an integer value. -/
def integerOf : Value → Option ℤ
  | .int i => i64.checked i
  | .uint n => u64.checked n
  | .int128 i => i128.checked i
  | .uint128 n => u128.checked n
  | _ => none

/-- The error of a number that does not fit. -/
def Overflows {α : Type} (span : SourceSpan) (r : Except EvalError α) : Prop :=
  ∃ message, r = .error (.dataException .numericValueOutOfRange message span)

/-- The outcome that the sum `total` of integers asks for. -/
def SumsTo (values : List Value) (total : ℤ) : Prop :=
  (i128.Has total → ∃ v, sumOf native span values = .ok v ∧ integerOf v = some total) ∧
    (¬ i128.Has total → Overflows span (sumOf native span values))

variable {native span}

theorem checked_eq_some {r : IntRange} {i j : ℤ} : r.checked i = some j ↔ r.Has i ∧ i = j := by
  unfold checked Has
  split <;> simp_all

theorem checked_eq_none {r : IntRange} {i : ℤ} : r.checked i = none ↔ ¬ r.Has i := by
  unfold checked Has
  split <;> simp_all

theorem reads_iff {current : Option NumericSum} {s : ℤ} : integerOf (finalizeSum current) = some s ↔
    current = none ∧ s = 0 ∨ current = some (.int s) ∧ i64.Has s ∨
      current = some (.int128 s) ∧ i128.Has s := by
  rcases current with _ | _ | _ | _ | _
  · simp [finalizeSum, integerOf, checked, i64, eq_comm]
  all_goals simp [finalizeSum, integerOf, checked_eq_some, NumericSum.intoValue]
  all_goals exact ⟨fun h => ⟨h.2, h.2 ▸ h.1⟩, fun h => ⟨h.1 ▸ h.2, h.1⟩⟩

/-- The sum is one of 64 bits. -/
def isInt : Option NumericSum → Bool
  | none | some (.int _) => true
  | _ => false

/-- An addition gives the number, or there is no such number of 128 bits. -/
def Lands (span : SourceSpan) (r : Except EvalError (Option NumericSum)) (t : ℤ) (int : Prop) : Prop :=
  (i128.Has t → ∃ next, r = .ok next ∧ integerOf (finalizeSum next) = some t ∧ (isInt next ↔ int)) ∧
    (¬ i128.Has t → Overflows span r)

theorem addI128_lands (a b : ℤ) {int : Prop} (hint : ¬ int) :
    Lands span ((addI128 span a b).map some) (a + b) int := by
  unfold addI128
  constructor
  · intro h
    rw [checked_eq_some.2 ⟨h, rfl⟩]
    exact ⟨_, rfl, reads_iff.2 (.inr (.inr ⟨rfl, h⟩)), by simp [isInt, hint]⟩
  · intro h
    rw [checked_eq_none.2 h]
    exact ⟨_, rfl⟩

/-- The values that are added as numbers of 64 bits. -/
def narrow : Value → Bool
  | .int _ => true
  | .uint n => (i64.checked n).isSome
  | _ => false

theorem numericValue_integer {value : Value} {x : ℤ} (hx : integerOf value = some x) :
    (i128.Has x → numericValue native span value = .ok (.int x) ∧ i64.Has x ∧ narrow value = true ∨
      numericValue native span value = .ok (.int128 x) ∧ narrow value = false) ∧
    (¬ i128.Has x → Overflows span (numericValue native span value)) := by
  cases value <;> first | cases hx | skip
  all_goals
    obtain ⟨hrange, rfl⟩ := checked_eq_some.1 hx
  case int i =>
    refine ⟨fun _ => .inl ⟨rfl, hrange, rfl⟩, fun h => absurd ?_ h⟩
    simp only [IntRange.Has, i64, i128] at hrange ⊢
    omega
  case uint n =>
    constructor
    · intro _
      rw [numericValue, narrow]
      cases h : i64.checked n with
      | none => exact .inr ⟨rfl, rfl⟩
      | some i =>
        obtain ⟨hi, rfl⟩ := checked_eq_some.1 h
        exact .inl ⟨rfl, hi, rfl⟩
    · refine fun h => absurd ?_ h
      simp only [IntRange.Has, u64, i128] at hrange ⊢
      omega
  case int128 i => exact ⟨fun _ => .inr ⟨rfl, rfl⟩, fun h => absurd hrange h⟩
  case uint128 n =>
    constructor
    · intro h
      rw [numericValue, checked_eq_some.2 ⟨h, rfl⟩]
      exact .inr ⟨rfl, rfl⟩
    · intro h
      rw [numericValue, checked_eq_none.2 h]
      exact ⟨_, rfl⟩

/-- **One value**: it is added when it fits a signed integer of 128 bits and the sum does. -/
theorem observeSum_integer {current : Option NumericSum} {value : Value} {s x : ℤ}
    (hs : integerOf (finalizeSum current) = some s) (hx : integerOf value = some x) :
    (i128.Has x → Lands span (observeSum native span current value) (s + x)
      (isInt current ∧ narrow value ∧ i64.Has x ∧ i64.Has (s + x))) ∧
    (¬ i128.Has x → Overflows span (observeSum native span current value)) := by
  have hnull : value.isNull = false := by cases value <;> first | rfl | cases hx
  obtain ⟨hfits, hnot⟩ := @numericValue_integer native span value x hx
  simp only [observeSum, hnull, Bool.false_eq_true, if_false, addNumeric]
  constructor
  · intro hrange
    rcases hfits hrange with ⟨hv, hx64, hn⟩ | ⟨hv, hn⟩ <;> rw [hv]
    · rcases reads_iff.1 hs with ⟨rfl, rfl⟩ | ⟨rfl, h64⟩ | ⟨rfl, h128⟩
      · rw [zero_add]
        exact ⟨fun _ => ⟨_, rfl, reads_iff.2 (.inr (.inl ⟨rfl, hx64⟩)), by simp [isInt, hn, hx64]⟩,
          fun h => absurd hrange h⟩
      · simp only [bind, Except.bind]
        cases h : i64.checked (s + x) with
        | none => exact addI128_lands s x fun hint => checked_eq_none.1 h hint.2.2.2
        | some i =>
          obtain ⟨hi, rfl⟩ := checked_eq_some.1 h
          refine ⟨fun _ => ⟨_, rfl, reads_iff.2 (.inr (.inl ⟨rfl, hi⟩)), by simp [isInt, hn, hx64, hi]⟩,
            fun h => absurd ?_ h⟩
          simp only [IntRange.Has, i64, i128] at hi ⊢
          omega
      · rw [add_comm]
        exact addI128_lands x s (by simp [isInt])
    · rcases reads_iff.1 hs with ⟨rfl, rfl⟩ | ⟨rfl, h64⟩ | ⟨rfl, h128⟩
      · rw [zero_add]
        exact ⟨fun h => ⟨_, rfl, reads_iff.2 (.inr (.inr ⟨rfl, h⟩)), by simp [isInt, hn]⟩,
          fun h => absurd hrange h⟩
      all_goals exact addI128_lands s x (by simp [hn])
  · intro h
    obtain ⟨message, hv⟩ := hnot h
    rw [hv]
    exact ⟨message, rfl⟩

/-! ## Any order -/

def numberOf (value : Value) : ℤ := (integerOf value).getD 0

/-- Every value and every sum on the way, from `s` on, is in range. -/
def Fits (r : IntRange) : ℤ → List Value → Prop
  | _, [] => True
  | s, v :: values => r.Has (numberOf v) ∧ r.Has (s + numberOf v) ∧ Fits r (s + numberOf v) values

theorem foldlM_observeSum {values : List Value} (hvalues : ∀ v ∈ values, (integerOf v).isSome)
    {current : Option NumericSum} {s : ℤ} (hs : integerOf (finalizeSum current) = some s) :
    (Fits i128 s values → ∃ next, values.foldlM (observeSum native span) current = .ok next ∧
      integerOf (finalizeSum next) = some (s + (values.map numberOf).sum) ∧
      (isInt next ↔ isInt current ∧ (∀ v ∈ values, narrow v) ∧ Fits i64 s values)) ∧
    (¬ Fits i128 s values → Overflows span (values.foldlM (observeSum native span) current)) := by
  induction values generalizing current s with
  | nil => exact ⟨fun _ => ⟨current, rfl, by simpa using hs, by simp [Fits]⟩, fun h => absurd trivial h⟩
  | cons v values ih =>
    obtain ⟨hv, hvalues⟩ := forall_mem_cons.1 hvalues
    have hx : integerOf v = some (numberOf v) := by
      obtain ⟨x, hx⟩ := Option.isSome_iff_exists.1 hv
      rw [numberOf, hx]
      rfl
    obtain ⟨hfits, hnot⟩ := @observeSum_integer native span current v s (numberOf v) hs hx
    rw [foldlM_cons, map_cons, sum_cons, ← add_assoc]
    by_cases hrange : i128.Has (numberOf v)
    swap
    · obtain ⟨message, hm⟩ := hnot hrange
      exact ⟨fun h => absurd h.1 hrange, fun _ => ⟨message, by rw [hm]; rfl⟩⟩
    by_cases hsum : i128.Has (s + numberOf v)
    · obtain ⟨next, hnext, hreads, hint⟩ := (hfits hrange).1 hsum
      obtain ⟨hall, herror⟩ := ih hvalues hreads
      rw [hnext]
      refine ⟨fun h => ?_, fun h => herror fun hrest => h ⟨hrange, hsum, hrest⟩⟩
      obtain ⟨last, hlast, hreads', hint'⟩ := hall h.2.2
      refine ⟨last, hlast, hreads', ?_⟩
      rw [hint', hint, forall_mem_cons, Fits]
      simp only [and_assoc, and_left_comm]
    · obtain ⟨message, hm⟩ := (hfits hrange).2 hsum
      exact ⟨fun h => absurd h.2.1 hsum, fun _ => ⟨message, by rw [hm]; rfl⟩⟩

/-- Between the negative values alone and the positive values alone lies every sum on the way. -/
theorem fits_of_bounds {r : IntRange} {values : List Value} {s : ℤ}
    (hmax : (values.map fun v => max (numberOf v) 0).sum + max s 0 ≤ r.max)
    (hmin : r.min ≤ (values.map fun v => min (numberOf v) 0).sum + min s 0) : Fits r s values := by
  induction values generalizing s with
  | nil => trivial
  | cons v values ih =>
    have hpos : 0 ≤ (values.map fun v => max (numberOf v) 0).sum := sum_nonneg (by simp)
    have hneg : (values.map fun v => min (numberOf v) 0).sum ≤ 0 :=
      (sum_le_sum fun v _ => min_le_right (numberOf v) 0).trans (by simp)
    rw [map_cons, sum_cons] at hmax hmin
    refine ⟨⟨by omega, by omega⟩, ⟨by omega, by omega⟩, ih (by omega) (by omega)⟩

theorem Fits.has {r : IntRange} {first rest : List Value} {s : ℤ} (hs : r.Has s)
    (h : Fits r s (first ++ rest)) : r.Has (s + (first.map numberOf).sum) := by
  induction first generalizing s with
  | nil => simpa using hs
  | cons v first ih =>
    rw [map_cons, sum_cons, ← add_assoc]
    exact ih h.2.1 h.2.2

theorem sum_filter {values : List Value} {p : Value → Bool} {f : Value → ℤ}
    (h : ∀ v, f v = if p v then numberOf v else 0) :
    ((values.filter p).map numberOf).sum = (values.map f).sum := by
  induction values with
  | nil => rfl
  | cons v values ih =>
    rw [map_cons, sum_cons, h v, ← ih, filter_cons]
    split <;> simp

theorem forall_fits_iff {r : IntRange} (hzero : r.Has 0) {values : List Value} :
    (∀ order : List Value, order.Perm values → Fits r 0 order) ↔
      (values.map fun v => max (numberOf v) 0).sum ≤ r.max ∧
        r.min ≤ (values.map fun v => min (numberOf v) 0).sum := by
  constructor
  · intro hall
    have hway : ∀ first rest : List Value, (first ++ rest).Perm values →
        r.Has (first.map numberOf).sum := by
      intro first rest hperm
      simpa using (hall _ hperm).has hzero
    have hpos := hway _ _ (filter_append_perm (fun v => 0 ≤ numberOf v) values)
    have hneg := hway _ _ (perm_append_comm.trans
      (filter_append_perm (fun v => 0 ≤ numberOf v) values))
    rw [sum_filter (f := fun v => max (numberOf v) 0) (by intro v; simp; omega)] at hpos
    rw [sum_filter (f := fun v => min (numberOf v) 0) (by intro v; simp; omega)] at hneg
    exact ⟨hpos.2, hneg.1⟩
  · rintro ⟨hmax, hmin⟩ order hperm
    rw [← (hperm.map _).sum_eq] at hmax hmin
    exact fits_of_bounds (by simpa using hmax) (by simpa using hmin)

/-- **An integer sum is the same for every order of the rows** when the positive values alone and the
negative values alone stay in range, or the sum itself does not. -/
theorem integer_sum_exact_iff (native : Native) (span : SourceSpan) (values : List Value)
    (hvalues : ∀ v ∈ values, (integerOf v).isSome) :
    (∀ order : List Value, order.Perm values → SumsTo native span order (values.map numberOf).sum) ↔
      (i128.Has (values.map numberOf).sum →
        (values.map fun v => max (numberOf v) 0).sum ≤ i128.max ∧
          i128.min ≤ (values.map fun v => min (numberOf v) 0).sum) := by
  have hzero : i128.Has 0 := by simp [IntRange.Has, i128]
  have hstart : integerOf (finalizeSum none) = some 0 := reads_iff.2 (.inl ⟨rfl, rfl⟩)
  constructor
  · intro hall hrange
    refine (forall_fits_iff hzero).1 fun order hperm => ?_
    by_contra hno
    obtain ⟨v, hv, -⟩ := (hall order hperm).1 hrange
    obtain ⟨message, hm⟩ := (@foldlM_observeSum native span order
      (fun v hv => hvalues v (hperm.subset hv)) none 0 hstart).2 hno
    rw [sumOf, hm] at hv
    cases hv
  · intro hbounds order hperm
    have hsum : (order.map numberOf).sum = (values.map numberOf).sum := (hperm.map _).sum_eq
    obtain ⟨hok, herror⟩ := @foldlM_observeSum native span order
      (fun v hv => hvalues v (hperm.subset hv)) none 0 hstart
    rw [zero_add, hsum] at hok
    constructor
    · intro hrange
      obtain ⟨next, hnext, hreads, -⟩ := hok ((forall_fits_iff hzero).2 (hbounds hrange) order hperm)
      exact ⟨_, by rw [sumOf, hnext]; rfl, hreads⟩
    · intro hrange
      obtain ⟨message, hm⟩ := herror fun h => hrange (by
        rw [← append_nil order] at h
        simpa [hsum] using h.has hzero)
      exact ⟨message, by rw [sumOf, hm]; rfl⟩

/-- **A sum is an `Int` in every order of the rows** exactly when every value is added as a number of
64 bits, and the positive values alone and the negative values alone have 64 bits. -/
theorem integer_sum_narrow_iff (native : Native) (span : SourceSpan) (values : List Value)
    (hvalues : ∀ v ∈ values, (integerOf v).isSome)
    (hfits : ∀ order : List Value, order.Perm values → Fits i128 0 order) :
    (∀ order : List Value, order.Perm values → ∃ i, sumOf native span order = .ok (.int i)) ↔
      (∀ v ∈ values, narrow v) ∧ (values.map fun v => max (numberOf v) 0).sum ≤ i64.max ∧
        i64.min ≤ (values.map fun v => min (numberOf v) 0).sum := by
  rw [← forall_fits_iff (r := i64) (by simp [IntRange.Has, i64])]
  have hint : ∀ order : List Value, order.Perm values → ((∃ i, sumOf native span order = .ok (.int i)) ↔
      (∀ v ∈ values, narrow v) ∧ Fits i64 0 order) := by
    intro order hperm
    obtain ⟨next, hnext, hreads, hiff⟩ := (@foldlM_observeSum native span order
      (fun v hv => hvalues v (hperm.subset hv)) none 0 (reads_iff.2 (.inl ⟨rfl, rfl⟩))).1 (hfits order hperm)
    simp only [hperm.mem_iff, isInt, true_and] at hiff
    rw [sumOf, hnext, ← hiff]
    rcases reads_iff.1 hreads with ⟨rfl, -⟩ | ⟨rfl, -⟩ | ⟨rfl, -⟩ <;>
      simp [Except.map, finalizeSum, NumericSum.intoValue]
  exact ⟨fun h => ⟨((hint values (.refl _)).1 (h values (.refl _))).1,
    fun order hperm => ((hint order hperm).1 (h order hperm)).2⟩,
    fun h order hperm => (hint order hperm).2 ⟨h.1, h.2 order hperm⟩⟩

/-- The largest integer of 128 bits, one more, and one less again. -/
theorem integer_sum_overflows :
    ¬ SumsTo Sample.native Sample.span [.int128 (2 ^ 127 - 1), .int 1, .int (-1)] (2 ^ 127 - 1) := by
  intro h
  obtain ⟨v, hv, -⟩ := h.1 (by simp [IntRange.Has, i128])
  cases hv

theorem integer_sum_of_mixed_signs :
    SumsTo Sample.native Sample.span [.int (-1), .uint 3, .int128 5] 7 := by
  have hvalues : ∀ v ∈ [Value.int128 5, .uint 3, .int (-1)], (integerOf v).isSome := by decide
  exact (integer_sum_exact_iff Sample.native Sample.span _ hvalues).2 (fun _ => by decide) _
    (reverse_perm [Value.int128 5, .uint 3, .int (-1)])

end Selene.Query
