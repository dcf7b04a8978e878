import Selene.Proof.WideWords

/-!
# Numeric keys are canonical

Two values have the same key exactly when they denote the same number (`Reduced.eq_of_toRat`): the
significand of a key is odd and, over a power of five, no multiple of five. `sort_cmp` is the order of
the ranks of keys (`sortCmp_eq`), and the grouping bytes of a key are no prefix of those of another
(`groupingKey_prefix_free`).
-/

namespace Selene.Graph

open Binary Octets NumericKey Nat

namespace NumericKey

/-! ## Reduced keys -/

/-- The fields of a finite key that `finite` returns for a number of the value types. -/
structure Reduced (negative : Bool) (significand : ℕ) (exponent : ℤ) (fives : ℕ) : Prop where
  significand_lt : significand < 2 ^ 128
  fives_le : fives ≤ 28
  exponent_le : exponent.natAbs ≤ 1100
  zero : significand = 0 → negative = false ∧ exponent = 0 ∧ fives = 0
  odd : significand ≠ 0 → significand % 2 = 1
  noFives : significand ≠ 0 → fives = 0 ∨ significand % 5 ≠ 0

def Canonical : NumericKey → Prop
  | finite negative significand exponent fives => Reduced negative significand exponent fives
  | _ => True

theorem stripFives_noFives {s : ℕ} (f : ℕ) :
    (stripFives s f).2 = 0 ∨ (stripFives s f).1 % 5 ≠ 0 := by
  induction f generalizing s with
  | zero => exact .inl rfl
  | succ f ih =>
    rw [stripFives]
    split_ifs with h
    · exact ih
    · exact .inr h

theorem stripTwos_odd {s w : ℕ} (hs : 0 < s) (hw : s < 2 ^ w) (e : ℤ) :
    (stripTwos s e w).1 % 2 = 1 := by
  induction w generalizing s e with
  | zero =>
    rw [pow_zero] at hw
    omega
  | succ w ih =>
    rw [stripTwos]
    split_ifs with h
    · rw [pow_succ] at hw
      exact ih (by omega) (by omega) (e + 1)
    · omega

theorem stripTwos_five {s : ℕ} (hs : s % 5 ≠ 0) (e : ℤ) (w : ℕ) : (stripTwos s e w).1 % 5 ≠ 0 := by
  induction w generalizing s e with
  | zero => exact hs
  | succ w ih =>
    rw [stripTwos]
    split_ifs with h
    · exact ih (by omega) (e + 1)
    · exact hs

theorem stripTwos_exponent (s : ℕ) (e : ℤ) (w : ℕ) :
    e ≤ (stripTwos s e w).2 ∧ (stripTwos s e w).2 ≤ e + w := by
  induction w generalizing s e with
  | zero => exact ⟨le_rfl, by simp [stripTwos]⟩
  | succ w ih =>
    rw [stripTwos]
    split_ifs with h
    · have := ih (s / 2) (e + 1)
      omega
    · omega

theorem reduce_canonical (negative : Bool) {s f : ℕ} {e : ℤ} (hs : s < 2 ^ 128 := by omega)
    (hf : f ≤ 28 := by omega) (hlow : -1100 ≤ e := by omega) (hhigh : e ≤ 972 := by omega) : (reduce negative s e f).Canonical := by
  rcases Nat.eq_zero_or_pos s with rfl | hpos
  · exact ⟨by norm_num, by omega, by omega, fun _ => ⟨rfl, rfl, rfl⟩, fun h => absurd rfl h,
      fun h => absurd rfl h⟩
  · have hfives := stripFives_le s f
    have hleft := stripFives_pos hpos f
    have hno := stripFives_noFives (s := s) f
    rw [reduce_of_pos negative hpos]
    set t := (stripFives s f).1
    have htwos := stripTwos_le t e 128
    have hkeep := stripTwos_pos hleft e 128
    have hodd := stripTwos_odd hleft (by omega) e (w := 128)
    have hexp := stripTwos_exponent t e 128
    refine ⟨by omega, by omega, ?_, ?_, fun _ => hodd, ?_⟩
    · omega
    · intro hzero
      omega
    · intro _
      rcases hno with hno | hno
      · exact .inl hno
      · exact .inr (stripTwos_five hno e 128)

theorem binary_canonical {fraction top : ℕ} {bias : ℤ} (hfraction : fraction ≤ 52)
    (hbias : bias ≤ 1100) (hpos : 0 ≤ bias) (htop : top ≤ bias + 972) (bits : ℕ) :
    (binary fraction top bias bits).Canonical := by
  have hpow : 2 ^ fraction ≤ 2 ^ 52 := Nat.pow_le_pow_right (by omega) hfraction
  have hmantissa : bits % 2 ^ fraction < 2 ^ fraction := Nat.mod_lt _ (by positivity)
  have hexp : bits / 2 ^ fraction % (top + 1) < top + 1 := mod_lt _ (by omega)
  unfold binary
  dsimp only
  split_ifs
  · trivial
  · trivial
  · exact reduce_canonical _
  · exact reduce_canonical _

namespace Reduced

variable {negative negative' : Bool} {s t : ℕ} {e e' : ℤ} {f f' : ℕ}

theorem sound (h : Reduced negative s e f) : (finite negative s e f).Sound := by
  refine ⟨h.significand_lt, h.fives_le, ?_⟩
  intro hneg
  apply pos_of_ne_zero
  intro hzero
  rw [(h.zero hzero).1] at hneg
  exact Bool.noConfusion hneg

theorem toRat_neg_iff (h : Reduced negative s e f) :
    (finite negative s e f).toRat < 0 ↔ negative = true := by
  cases negative with
  | false => simpa using toRat_nonneg s e f
  | true => simpa using toRat_neg (h.sound.2.2 rfl) e f

theorem toRat_eq_zero_iff : (finite negative s e f).toRat = 0 ↔ s = 0 := by
  have htwo : (2 : ℚ) ^ e ≠ 0 := by positivity
  have hfive : (5 : ℚ) ^ f ≠ 0 := by positivity
  cases negative <;> simp [toRat, htwo]

theorem odd_scaled_unique {m n : ℕ} {e e' : ℤ} (hm : m % 2 = 1) (hn : n % 2 = 1)
    (h : (m : ℚ) * 2 ^ e = n * 2 ^ e') : e = e' ∧ m = n := by
  wlog hle : e ≤ e' generalizing m n e e'
  · obtain ⟨he, hmn⟩ := this hn hm h.symm (by omega)
    exact ⟨he.symm, hmn.symm⟩
  obtain ⟨d, rfl⟩ := Int.exists_add_of_le hle
  have htwo : (2 : ℚ) ^ e ≠ 0 := by positivity
  have hcast : (m : ℚ) = (n * 2 ^ d : ℕ) := by
    rw [zpow_add₀ (by norm_num), mul_comm ((2 : ℚ) ^ e), ← mul_assoc] at h
    have := mul_right_cancel₀ htwo h
    rw [this, zpow_natCast]
    push_cast
    rfl
  have hmn : m = n * 2 ^ d := by exact_mod_cast hcast
  -- an odd number takes no factor two
  rcases d with _ | d
  · rw [pow_zero, mul_one] at hmn
    exact ⟨by simp, hmn⟩
  · rw [pow_succ, ← mul_assoc] at hmn
    omega

/-- Two significands without common fives, over the powers of five of the other. -/
theorem fives_unique (hs : f = 0 ∨ s % 5 ≠ 0) (ht : f' = 0 ∨ t % 5 ≠ 0)
    (h : s * 5 ^ f' = t * 5 ^ f) : f = f' ∧ s = t := by
  wlog hle : f ≤ f' generalizing s t f f'
  · obtain ⟨hf, hst⟩ := this ht hs h.symm (by omega)
    exact ⟨hf.symm, hst.symm⟩
  obtain ⟨d, rfl⟩ := Nat.exists_eq_add_of_le hle
  have hcancel : s * 5 ^ d = t := by
    apply eq_of_mul_eq_mul_right (show 0 < 5 ^ f by positivity)
    rw [← h, pow_add]
    ring
  rcases d with _ | d
  · exact ⟨rfl, by simpa using hcancel⟩
  · rw [pow_succ, ← mul_assoc] at hcancel
    omega

theorem eq_of_toRat (h : Reduced negative s e f) (h' : Reduced negative' t e' f')
    (heq : (finite negative s e f).toRat = (finite negative' t e' f').toRat) :
    finite negative s e f = finite negative' t e' f' := by
  have hsign : negative = negative' := by
    rw [Bool.eq_iff_iff, ← h.toRat_neg_iff, ← h'.toRat_neg_iff, heq]
  subst hsign
  have hzero : s = 0 ↔ t = 0 := by
    have hs : (finite negative s e f).toRat = 0 ↔ s = 0 := toRat_eq_zero_iff
    rw [← hs, heq, toRat_eq_zero_iff]
  by_cases hs : s = 0
  · obtain ⟨-, rfl, rfl⟩ := h.zero hs
    obtain ⟨-, rfl, rfl⟩ := h'.zero (hzero.1 hs)
    rw [hs, hzero.1 hs]
  · have ht : t ≠ 0 := fun ht => hs (hzero.2 ht)
    have hmagnitude : (s : ℚ) * 2 ^ e / 5 ^ f = t * 2 ^ e' / 5 ^ f' := by
      cases negative <;> simpa [toRat] using heq
    -- without the denominators: odd numbers over powers of two
    have hcross : ((s * 5 ^ f' : ℕ) : ℚ) * 2 ^ e = (t * 5 ^ f : ℕ) * 2 ^ e' := by
      rw [div_eq_div_iff (by positivity) (by positivity)] at hmagnitude
      push_cast
      linarith
    have hodd : ∀ {m : ℕ} (n : ℕ), m % 2 = 1 → m * 5 ^ n % 2 = 1 := by
      intro m n hm
      rw [mul_mod, hm, pow_mod]
      simp
    obtain ⟨rfl, hprod⟩ := odd_scaled_unique (hodd f' (h.odd hs)) (hodd f (h'.odd ht)) hcross
    obtain ⟨rfl, rfl⟩ := fives_unique (h.noFives hs) (h'.noFives ht) hprod
    rfl

end Reduced

theorem Canonical.eq_iff_toRat {k l : NumericKey} (hk : k.Canonical) (hl : l.Canonical)
    (hks : k.Sound) (hls : l.Sound) : k = l ↔ k.toRat = l.toRat := by
  refine ⟨fun h => by rw [h], fun h => ?_⟩
  cases k with
  | finite _ s e f =>
    cases l with
    | finite _ t e' f' => exact Reduced.eq_of_toRat hk hl h
    | infinity _ | nan => exact hls.elim
  | infinity _ | nan => exact hks.elim

/-! ## Sorting -/

/-- The place of a key: infinities around the numbers, NaNs above. -/
def rank : NumericKey → List ℚ
  | finite negative significand exponent fives => [1, (finite negative significand exponent fives).toRat]
  | infinity true => [0]
  | infinity false => [2]
  | nan => [3]

theorem rank_injective {k l : NumericKey} (hk : k.Canonical) (hl : l.Canonical)
    (h : k.rank = l.rank) : k = l := by
  cases k with
  | finite _ s e f =>
    cases l with
    | finite _ t e' f' =>
      apply Reduced.eq_of_toRat hk hl
      simpa [rank] using h
    | infinity b => cases b <;> simp [rank] at h
    | nan => simp [rank] at h
  | infinity a =>
    cases l with
    | finite _ _ _ _ => cases a <;> simp [rank] at h
    | infinity b => cases a <;> cases b <;> simp [rank] at h ⊢
    | nan => cases a <;> simp [rank] at h
  | nan =>
    cases l with
    | finite _ _ _ _ => simp [rank] at h
    | infinity b => cases b <;> simp [rank] at h
    | nan => rfl

section Lists

variable {x y : ℚ}

theorem compare_head_lt (h : x < y) (xs ys : List ℚ) : List.compareLex compare (x :: xs) (y :: ys) = .lt := by
  rw [List.compareLex_cons_cons, compare_lt_iff_lt.2 h]
  rfl

theorem compare_head_gt (h : y < x) (xs ys : List ℚ) : List.compareLex compare (x :: xs) (y :: ys) = .gt := by
  rw [List.compareLex_cons_cons, compare_gt_iff_gt.2 h]
  rfl

end Lists

theorem sortCmp_eq {k l : NumericKey} (hk : k.Canonical) (hl : l.Canonical) :
    k.sortCmp l = List.compareLex compare k.rank l.rank := by
  cases k with
  | finite a s e f =>
    cases l with
    | finite b t e' f' =>
      rw [sortCmp, predicateCmp_exact (Reduced.sound hk) (Reduced.sound hl), rank, rank,
        List.compareLex_cons_cons, List.compareLex_cons_cons, compare_eq_iff_eq.2 rfl]
      exact Ordering.then_eq.symm
    | infinity b =>
      cases b with
      | false => exact (compare_head_lt (by norm_num) _ _).symm
      | true => exact (compare_head_gt (by norm_num) _ _).symm
    | nan => exact (compare_head_lt (by norm_num) _ _).symm
  | infinity a =>
    cases l with
    | finite b t e' f' =>
      cases a with
      | false => exact (compare_head_gt (by norm_num) _ _).symm
      | true => exact (compare_head_lt (by norm_num) _ _).symm
    | infinity b =>
      cases a <;> cases b
      · exact Std.ReflCmp.compare_self.symm
      · exact (compare_head_gt (by norm_num) _ _).symm
      · exact (compare_head_lt (by norm_num) _ _).symm
      · exact Std.ReflCmp.compare_self.symm
    | nan =>
      cases a with
      | false | true => exact (compare_head_lt (by norm_num) _ _).symm
  | nan =>
    cases l with
    | finite b t e' f' => exact (compare_head_gt (by norm_num) _ _).symm
    | infinity b =>
      cases b with
      | false | true => exact (compare_head_gt (by norm_num) _ _).symm
    | nan => exact Std.ReflCmp.compare_self.symm

section Order

variable {k l m : NumericKey}

section

variable (hk : k.Canonical) (hl : l.Canonical)
include hk hl

theorem sortCmp_swap : l.sortCmp k = (k.sortCmp l).swap := by
  rw [sortCmp_eq hk hl, sortCmp_eq hl hk]
  exact Std.OrientedCmp.eq_swap

theorem sortCmp_trans (hm : m.Canonical)
    (hkl : (k.sortCmp l).isLE) (hlm : (l.sortCmp m).isLE) : (k.sortCmp m).isLE := by
  rw [sortCmp_eq hk hl] at hkl
  rw [sortCmp_eq hl hm] at hlm
  rw [sortCmp_eq hk hm]
  exact Std.TransCmp.isLE_trans hkl hlm

theorem sortCmp_eq_iff : k.sortCmp l = .eq ↔ k = l := by
  rw [sortCmp_eq hk hl]
  constructor
  · intro h
    exact rank_injective hk hl (Std.LawfulEqCmp.eq_of_compare h)
  · rintro rfl
    exact Std.ReflCmp.compare_self

end

theorem sortCmp_of_predicateCmp {order : Ordering} (h : k.predicateCmp l = some order) :
    k.sortCmp l = order := by
  rw [sortCmp, h]

end Order

/-! ## Grouping bytes -/

theorem leInt_injective {i j : ℤ} (hi : i.natAbs ≤ 1100) (hj : j.natAbs ≤ 1100)
    (h : leInt 4 i = leInt 4 j) : i = j := by
  have hlt : ∀ i : ℤ, (i % 2 ^ (8 * 4)).toNat < 256 ^ 4 := by
    intro i
    norm_num
    omega
  have := leBytes_injective (hlt i) (hlt j) h
  norm_num at this
  omega

theorem length_groupingKey_finite (negative : Bool) (s : ℕ) (e : ℤ) (f : ℕ) :
    (groupingKey (finite negative s e f)).length = 26 := by
  simp [groupingKey, leInt]

/-- **The bytes of a key are no prefix of the bytes of another.** The first byte tells the length. -/
theorem groupingKey_prefix_free {k l : NumericKey} (hk : k.Canonical) (hl : l.Canonical)
    (h : k.groupingKey <+: l.groupingKey) : k = l := by
  cases k with
  | finite a s e f =>
    cases l with
    | finite b t e' f' =>
      have hsame := h.eq_of_length (by rw [length_groupingKey_finite, length_groupingKey_finite])
      have hs : s < 256 ^ 16 := by have := Reduced.significand_lt hk; norm_num at this ⊢; exact this
      have ht : t < 256 ^ 16 := by have := Reduced.significand_lt hl; norm_num at this ⊢; exact this
      have hf : f < 256 ^ 4 := by have := Reduced.fives_le hk; omega
      have hf' : f' < 256 ^ 4 := by have := Reduced.fives_le hl; omega
      rw [groupingKey, groupingKey] at hsame
      obtain ⟨hfront, hfives⟩ := List.append_inj' hsame (by simp)
      obtain ⟨hfront, hexp⟩ := List.append_inj' hfront (by simp [leInt])
      obtain ⟨hsign, hsig⟩ := List.append_inj' hfront (by simp)
      have hab : a = b := by
        cases a <;> cases b <;> simp at hsign ⊢
      rw [hab, leBytes_injective hs ht hsig, leBytes_injective hf hf' hfives,
        leInt_injective (Reduced.exponent_le hk) (Reduced.exponent_le hl) hexp]
    | infinity b | nan =>
      have := h.length_le
      rw [length_groupingKey_finite] at this
      simp [groupingKey] at this
  | infinity a =>
    cases l with
    | finite b t e' f' => simp [groupingKey] at h
    | infinity b => cases a <;> cases b <;> simp [groupingKey] at h ⊢
    | nan => simp [groupingKey] at h
  | nan =>
    cases l with
    | finite b t e' f' | infinity b => simp [groupingKey] at h
    | nan => rfl

end NumericKey

/-! ## The keys of values -/

namespace Float32

/-- The number a finite 32-bit float stands for. -/
def toRat (bits : UInt32) : ℚ :=
  (if 2 ^ 31 ≤ bits.toNat then -1 else 1) *
    if bits.toNat / 2 ^ 23 % 2 ^ 8 = 0 then ((bits.toNat % 2 ^ 23 : ℕ) : ℚ) * 2 ^ (-149 : ℤ)
    else ((bits.toNat % 2 ^ 23 + 2 ^ 23 : ℕ) : ℚ) * 2 ^ ((bits.toNat / 2 ^ 23 % 2 ^ 8 : ℕ) - 150 : ℤ)

end Float32

namespace Value

/-- The number of a numeric value, but for infinities and NaNs. -/
def number : Value → Option ℚ
  | int i | int128 i => some i
  | uint n | uint128 n => some n
  | decimal d => some d.toRat
  | float bits => if Float64.isFinite bits then some (Float64.toRat bits) else none
  | float32 bits => if Float32.isFinite bits then some (Float32.toRat bits) else none
  | _ => none

theorem canonical_of_inRange {v : Value} (h : v.inRange = true) {k : NumericKey}
    (hk : of v = some k) : k.Canonical := by
  cases v <;> simp only [of, Option.some.injEq, reduceCtorEq] at hk <;> subst hk
  case int i =>
    obtain ⟨hlow, hhigh⟩ := of_decide_eq_true h
    exact reduce_canonical _
  case uint n =>
    have hn : n < 2 ^ 64 := of_decide_eq_true h
    exact reduce_canonical _
  case int128 i =>
    obtain ⟨hlow, hhigh⟩ := of_decide_eq_true h
    exact reduce_canonical _
  case uint128 n =>
    exact reduce_canonical _ (of_decide_eq_true h)
  case float bits | float32 bits =>
    exact binary_canonical (by omega) (by omega) (by omega) (by norm_num) _
  case decimal d =>
    have hm := d.mantissa_lt
    have hscale := d.scale_le
    exact reduce_canonical _ (by omega) hscale

theorem denotes_nat {n : ℕ} (h : n < 2 ^ 128) : (uint n).Denotes n := by
  refine ⟨_, rfl, reduce_sound _ h 0 (zero_le _), ?_⟩
  rw [toRat_reduce]
  simp

theorem denotes_float32 {bits : UInt32} (h : Float32.isFinite bits = true) :
    (float32 bits).Denotes (Float32.toRat bits) := by
  have hbits : bits.toNat < 2 ^ 32 := bits.toNat_lt
  have hfields : bits.toNat / 2 ^ 23 % (0xFF + 1) ≠ 0xFF := by simpa [Float32.isFinite] using h
  have hsign : decide (bits.toNat / 2 ^ 23 / (0xFF + 1) ≠ 0) = decide (2 ^ 31 ≤ bits.toNat) := by
    rw [decide_eq_decide]
    omega
  have hmantissa : bits.toNat % 2 ^ 23 < 2 ^ 23 := mod_lt _ (by norm_num)
  have hkey : ofFloat32 bits = if bits.toNat / 2 ^ 23 % 2 ^ 8 = 0 then
        reduce (2 ^ 31 ≤ bits.toNat) (bits.toNat % 2 ^ 23) (-149) 0
      else reduce (2 ^ 31 ≤ bits.toNat) (bits.toNat % 2 ^ 23 + 2 ^ 23)
        ((bits.toNat / 2 ^ 23 % 2 ^ 8 : ℕ) - 150) 0 := by
    rw [ofFloat32, binary, if_neg hfields, hsign]
    rfl
  refine ⟨_, rfl, ?_, ?_⟩
  · rw [hkey]
    split_ifs
    · exact reduce_sound _ (by omega) _ (zero_le _)
    · exact reduce_sound _ (by omega) _ (zero_le _)
  · rw [hkey, Float32.toRat]
    split_ifs <;> simp_all [toRat_reduce]

theorem denotes_of_inRange {v : Value} (h : v.inRange = true) {q : ℚ} (hq : v.number = some q) :
    v.Denotes q := by
  cases v <;> simp only [number, Option.some.injEq, reduceCtorEq] at hq
  case int i =>
    obtain ⟨hlow, hhigh⟩ := of_decide_eq_true h
    subst hq
    exact denotes_int (by omega)
  case uint n =>
    have hn : n < 2 ^ 64 := of_decide_eq_true h
    subst hq
    exact denotes_nat (by omega)
  case int128 i =>
    obtain ⟨hlow, hhigh⟩ := of_decide_eq_true h
    subst hq
    exact denotes_int (i := i) (by omega)
  case uint128 n =>
    have hn : n < 2 ^ 128 := of_decide_eq_true h
    subst hq
    exact denotes_nat hn
  case float bits =>
    split_ifs at hq with hfinite
    cases hq
    exact denotes_float hfinite
  case float32 bits =>
    split_ifs at hq with hfinite
    cases hq
    exact denotes_float32 hfinite
  case decimal d =>
    subst hq
    exact denotes_decimal d

end Value

/-- **Numeric keys are exact.** -/
theorem numeric_keys_exact {a b c : Value} (ha : a.inRange = true) (hb : b.inRange = true)
    (hc : c.inRange = true)
    {k l m : NumericKey} (hk : of a = some k) (hl : of b = some l)
    (hm : of c = some m) :
    -- one key for one number, ordered as the numbers
    (∀ p q, a.number = some p → b.number = some q →
      (k = l ↔ p = q) ∧ k.predicateCmp l = some (compare p q)) ∧
    -- a total order of all keys, the same where both are numbers
    (k.sortCmp k = .eq ∧ l.sortCmp k = (k.sortCmp l).swap ∧ (k.sortCmp l = .eq ↔ k = l) ∧
      ((k.sortCmp l).isLE → (l.sortCmp m).isLE → (k.sortCmp m).isLE) ∧
      ∀ order, k.predicateCmp l = some order → k.sortCmp l = order) ∧
    -- prefix-free bytes
    (k.groupingKey = l.groupingKey ↔ k = l) ∧ (k.groupingKey <+: l.groupingKey → k = l) ∧
    -- no carry out of 256 bits, so that the words hold the numbers
    (∀ an am ae af bn bm be bf, k = .finite an am ae af → l = .finite bn bm be bf →
      (∀ carry ∈ (Wide.mulFives (bf - af) (Wide.new am)).2, carry = 0) ∧
      (∀ carry ∈ (Wide.mulFives (af - bf) (Wide.new bm)).2, carry = 0) ∧
      magnitudeCmpWords am ae af bm be bf = magnitudeCmp am ae af bm be bf) := by
  have hkc := Value.canonical_of_inRange ha hk
  have hlc := Value.canonical_of_inRange hb hl
  have hmc := Value.canonical_of_inRange hc hm
  refine ⟨?_, ⟨?_, ?_, ?_, ?_, ?_⟩, ?_, ?_, ?_⟩
  · intro p q hp hq
    obtain ⟨k', hk', hks, rfl⟩ := Value.denotes_of_inRange ha hp
    obtain ⟨l', hl', hls, rfl⟩ := Value.denotes_of_inRange hb hq
    obtain rfl : k' = k := Option.mem_unique hk' hk
    obtain rfl : l' = l := Option.mem_unique hl' hl
    exact ⟨hkc.eq_iff_toRat hlc hks hls, predicateCmp_exact hks hls⟩
  · exact (sortCmp_eq_iff hkc hkc).2 rfl
  · exact sortCmp_swap hkc hlc
  · exact sortCmp_eq_iff hkc hlc
  · exact sortCmp_trans hkc hlc hmc
  · intro order horder
    exact sortCmp_of_predicateCmp horder
  · refine ⟨fun h => ?_, fun h => by rw [h]⟩
    apply groupingKey_prefix_free hkc hlc
    rw [h]
  · exact groupingKey_prefix_free hkc hlc
  · rintro an am ae af bn bm be bf rfl rfl
    have hkr : NumericKey.Reduced an am ae af := hkc
    have hlr : NumericKey.Reduced bn bm be bf := hlc
    have haf := hkr.fives_le
    have hbf := hlr.fives_le
    refine ⟨?_, ?_, ?_⟩
    · apply (Wide.mulFives_exact _).1
      rw [Wide.value_new hkr.significand_lt]
      exact mul_fives_lt hkr.significand_lt (by omega)
    · apply (Wide.mulFives_exact _).1
      rw [Wide.value_new hlr.significand_lt]
      exact mul_fives_lt hlr.significand_lt (by omega)
    · exact magnitudeCmpWords_eq hkr.significand_lt hlr.significand_lt haf hbf ae be

/-- The decimal `0.5`, the integer one and the float `0.5`. -/
theorem numeric_keys_exact_half :
    let half := finite false 1 (-1) 0
    let one := finite false 1 0 0
    of (.decimal ⟨5, 1, by decide, by decide⟩) = some half ∧
      of (.float 0x3FE0000000000000) = some half ∧
      (half = one ↔ (5 / 10 : ℚ) = 1) ∧ half.predicateCmp one = some (compare (5 / 10 : ℚ) 1) ∧
      ((half.sortCmp one).isLE → (one.sortCmp half).isLE → (half.sortCmp half).isLE) := by
  have hdecimal : of (.decimal ⟨5, 1, by decide, by decide⟩) =
      some (.finite false 1 (-1) 0) := by decide
  have hfloat : of (.float 0x3FE0000000000000) = some (.finite false 1 (-1) 0) := by
    decide
  have hone : of (.int 1) = some (.finite false 1 0 0) := by decide
  obtain ⟨hnumbers, ⟨-, -, -, htrans, -⟩, -⟩ := numeric_keys_exact (a := .decimal _) (b := .int 1)
    (c := .float _) rfl (by decide) rfl hdecimal hone hfloat
  obtain ⟨heq, hcmp⟩ := hnumbers (5 / 10) 1
    (by rw [Value.number, Decimal.toRat]; norm_num) (by rw [Value.number]; norm_num)
  exact ⟨hdecimal, hfloat, heq, hcmp, htrans⟩

end Selene.Graph
