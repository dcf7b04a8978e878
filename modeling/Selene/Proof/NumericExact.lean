import Selene.Query.Evaluator

/-!
# Numeric keys are exact

The key of a number denotes the number (`Denotes`), whatever its representation, and
`predicate_cmp` orders two keys as the numbers they denote (`predicateCmp_exact`). The conversion
of an integer to a float denotes the integer rounded to 53 bits (`toRat_ofInt`).
-/

namespace Selene.Graph

open Binary Nat NumericKey

namespace NumericKey

/-- The number of a finite key. -/
def toRat : NumericKey → ℚ
  | finite negative significand exponent fives =>
    (if negative then -1 else 1) * (significand * 2 ^ exponent / 5 ^ fives)
  | _ => 0

/-- What `finite` makes of the numbers of the value types: significands of 128 bits, at most the
fives of a decimal, and no negative zero. -/
def Sound : NumericKey → Prop
  | finite negative significand _ fives =>
    significand < 2 ^ 128 ∧ fives ≤ 28 ∧ (negative = true → 0 < significand)
  | _ => False

/-! ## Reduction -/

theorem stripFives_eq (s f : ℕ) :
    ((stripFives s f).1 : ℚ) / 5 ^ (stripFives s f).2 = s / 5 ^ f := by
  induction f generalizing s with
  | zero => rfl
  | succ f ih =>
    rw [stripFives]
    split_ifs with h
    · obtain ⟨t, rfl⟩ := dvd_of_mod_eq_zero h
      rw [ih, Nat.mul_div_cancel_left t (by omega)]
      push_cast
      rw [pow_succ]
      field_simp
    · rfl

theorem stripFives_le (s f : ℕ) : (stripFives s f).1 ≤ s ∧ (stripFives s f).2 ≤ f := by
  induction f generalizing s with
  | zero => exact ⟨le_rfl, le_rfl⟩
  | succ f ih =>
    rw [stripFives]
    split_ifs with h
    · have := ih (s / 5)
      omega
    · exact ⟨le_rfl, le_rfl⟩

theorem stripFives_pos {s : ℕ} (hs : 0 < s) (f : ℕ) : 0 < (stripFives s f).1 := by
  induction f generalizing s with
  | zero => exact hs
  | succ f ih =>
    rw [stripFives]
    split_ifs with h
    · exact ih (by omega)
    · exact hs

variable (s : ℕ) (e : ℤ) (w : ℕ)

theorem stripTwos_eq :
    ((stripTwos s e w).1 : ℚ) * 2 ^ (stripTwos s e w).2 = s * 2 ^ e := by
  induction w generalizing s e with
  | zero => rfl
  | succ w ih =>
    rw [stripTwos]
    split_ifs with h
    · obtain ⟨t, rfl⟩ := dvd_of_mod_eq_zero h
      rw [ih, Nat.mul_div_cancel_left t (by omega), zpow_add₀ (by norm_num)]
      push_cast
      ring
    · rfl

theorem stripTwos_le : (stripTwos s e w).1 ≤ s := by
  induction w generalizing s e with
  | zero => exact le_rfl
  | succ w ih =>
    rw [stripTwos]
    split_ifs with h
    · have := ih (s / 2) (e + 1)
      omega
    · exact le_rfl

theorem stripTwos_pos {s : ℕ} (hs : 0 < s) (e : ℤ) (w : ℕ) : 0 < (stripTwos s e w).1 := by
  induction w generalizing s e with
  | zero => exact hs
  | succ w ih =>
    rw [stripTwos]
    split_ifs with h
    · exact ih (by omega) (e + 1)
    · exact hs

variable (negative : Bool)

theorem reduce_of_pos {s : ℕ} (hs : 0 < s) (e : ℤ) (f : ℕ) :
    reduce negative s e f = finite negative (stripTwos (stripFives s f).1 e 128).1
      (stripTwos (stripFives s f).1 e 128).2 (stripFives s f).2 := by
  rw [reduce, if_neg hs.ne']

theorem toRat_reduce (s : ℕ) (e : ℤ) (f : ℕ) :
    (reduce negative s e f).toRat = (if negative then -1 else 1) * (s * 2 ^ e / 5 ^ f) := by
  rcases Nat.eq_zero_or_pos s with rfl | hs
  · simp [reduce, toRat]
  · rw [reduce_of_pos negative hs, toRat, stripTwos_eq, mul_div_right_comm, stripFives_eq,
      mul_div_right_comm]

theorem reduce_sound {s : ℕ} (hs : s < 2 ^ 128) (e : ℤ) {f : ℕ} (hf : f ≤ 28) :
    (reduce negative s e f).Sound := by
  rcases Nat.eq_zero_or_pos s with rfl | hpos
  · simp [reduce, Sound]
  · have hfives := stripFives_le s f
    have htwos := stripTwos_le (stripFives s f).1 e 128
    have hkeep := stripTwos_pos (stripFives_pos hpos f) e 128
    rw [reduce_of_pos negative hpos]
    exact ⟨by omega, by omega, fun _ => hkeep⟩

/-! ## Comparison -/

theorem mulFives_eq {n a : ℕ} (h : a * 5 ^ n < 2 ^ 256) : mulFives n a = a * 5 ^ n := by
  induction n generalizing a with
  | zero => simp [mulFives]
  | succ n ih =>
    have hstep : a * 5 * 5 ^ n < 2 ^ 256 := by
      rw [Nat.mul_assoc, ← pow_succ']
      exact h
    have hpow : 0 < 5 ^ n := by positivity
    have hlt : a * 5 < 2 ^ 256 := (Nat.le_mul_of_pos_right _ hpow).trans_lt hstep
    rw [mulFives, Nat.mod_eq_of_lt hlt, ih hstep, Nat.mul_assoc, ← pow_succ']

theorem mul_fives_lt {a n : ℕ} (ha : a < 2 ^ 128) (hn : n ≤ 28) : a * 5 ^ n < 2 ^ 256 := by
  calc a * 5 ^ n ≤ a * 5 ^ 28 := Nat.mul_le_mul_left _ (Nat.pow_le_pow_right (by omega) hn)
    _ < 2 ^ 256 := by omega

theorem compare_leading {w a b : ℕ} (ha : 0 < a) (hb : 0 < b) (haw : a < 2 ^ w) (hbw : b < 2 ^ w)
    (s t : ℤ) :
    (compare (bitLength a + s) (bitLength b + t)).then
        (compare (leading w a % 2 ^ w) (leading w b % 2 ^ w)) =
      compare ((a : ℚ) * 2 ^ s) (b * 2 ^ t) := by
  rw [Nat.mod_eq_of_lt (leading_lt haw), Nat.mod_eq_of_lt (leading_lt hbw),
    compare_scaled ha hb haw hbw]

theorem compare_zero {am bm : ℕ} (h : am = 0 ∨ bm = 0) {c d : ℚ} (hc : 0 < c) (hd : 0 < d) :
    compare am bm = compare ((am : ℚ) * c) (bm * d) := by
  have hpos : ∀ {m : ℕ} {c : ℚ}, 0 < c → (0 < (m : ℚ) * c ↔ 0 < m) := fun hc => by
    rw [mul_pos_iff_of_pos_right hc, cast_pos]
  rcases h with rfl | rfl
  · apply compare_congr
    · simpa using (hpos hd).symm
    · have : ¬ (bm : ℚ) * d < 0 := not_lt.2 (by positivity)
      simpa using this
  · apply compare_congr
    · have : ¬ (am : ℚ) * c < 0 := not_lt.2 (by positivity)
      simpa using this
    · simpa using (hpos hc).symm

theorem more_fives {af bf : ℕ} (h : af ≤ bf) (m : ℕ) (e : ℤ) :
    (m : ℚ) * 2 ^ e / 5 ^ af = (m * 5 ^ (bf - af) : ℕ) * 2 ^ e / 5 ^ bf := by
  obtain ⟨d, rfl⟩ := Nat.exists_eq_add_of_le h
  rw [Nat.add_sub_cancel_left, pow_add]
  push_cast
  field_simp

theorem magnitudeCmp_exact {am bm af bf : ℕ} (ha : am < 2 ^ 128) (hb : bm < 2 ^ 128)
    (haf : af ≤ 28) (hbf : bf ≤ 28) (ae be : ℤ) :
    magnitudeCmp am ae af bm be bf =
      compare ((am : ℚ) * 2 ^ ae / 5 ^ af) (bm * 2 ^ be / 5 ^ bf) := by
  -- over a common power of five, which drops out of the comparison
  have hdrop : ∀ (x y : ℚ) (n : ℕ), compare (x / 5 ^ n) (y / 5 ^ n) = compare x y := fun x y n => by
    rw [div_eq_mul_inv, div_eq_mul_inv, compare_mul_right (by positivity)]
  unfold magnitudeCmp
  split_ifs with hzero heq hlt
  · rw [mul_div_assoc, mul_div_assoc]
    exact compare_zero hzero (by positivity) (by positivity)
  · have hpos : 0 < am ∧ 0 < bm := by omega
    rw [compare_leading hpos.1 hpos.2 ha hb, heq, hdrop]
  · have hpos : 0 < am ∧ 0 < bm := by omega
    have hbig := mul_fives_lt ha (show bf - af ≤ 28 by omega)
    have hapos : 0 < am * 5 ^ (bf - af) := mul_pos hpos.1 (by positivity)
    rw [mulFives_eq hbig, compare_leading hapos hpos.2 hbig (by omega), more_fives hlt.le am ae,
      hdrop]
  · have hpos : 0 < am ∧ 0 < bm := by omega
    have hbig := mul_fives_lt hb (show af - bf ≤ 28 by omega)
    have hbpos : 0 < bm * 5 ^ (af - bf) := mul_pos hpos.2 (by positivity)
    rw [mulFives_eq hbig, compare_leading hpos.1 hbpos (by omega) hbig,
      more_fives (show bf ≤ af by omega) bm be, hdrop]

theorem toRat_nonneg (m : ℕ) (e : ℤ) (f : ℕ) : 0 ≤ (finite false m e f).toRat := by
  simp only [toRat, Bool.false_eq_true, if_false]
  positivity

theorem toRat_neg {m : ℕ} (hm : 0 < m) (e : ℤ) (f : ℕ) : (finite true m e f).toRat < 0 := by
  have hpos : (0 : ℚ) < m * 2 ^ e / 5 ^ f := by positivity
  simp only [toRat, if_true]
  linarith

/-- **`predicate_cmp` orders finite keys as the numbers they denote.** -/
theorem predicateCmp_exact {a b : NumericKey} (ha : a.Sound) (hb : b.Sound) :
    a.predicateCmp b = some (compare a.toRat b.toRat) := by
  obtain ⟨an, am, ae, af⟩ | _ | _ := a
  · obtain ⟨bn, bm, be, bf⟩ | _ | _ := b
    · obtain ⟨ham, haf, hapos⟩ := ha
      obtain ⟨hbm, hbf, hbpos⟩ := hb
      have hcmp := magnitudeCmp_exact ham hbm haf hbf ae be
      cases an <;> cases bn
      · simp [predicateCmp, toRat, hcmp]
      · have hlt : (finite true bm be bf).toRat < (finite false am ae af).toRat :=
          (toRat_neg (hbpos rfl) be bf).trans_le (toRat_nonneg am ae af)
        have hgt := compare_gt_iff_gt.2 hlt
        rw [predicateCmp, if_pos (by decide), hgt]
        rfl
      · have hlt : (finite true am ae af).toRat < (finite false bm be bf).toRat :=
          (toRat_neg (hapos rfl) ae af).trans_le (toRat_nonneg bm be bf)
        have hcompare := compare_lt_iff_lt.2 hlt
        rw [predicateCmp, if_pos (by decide), hcompare]
        rfl
      · have hswap : ∀ x y : ℚ, (compare x y).swap = compare (-1 * x) (-1 * y) := fun x y => by
          rw [← Std.OrientedCmp.eq_swap]
          exact compare_congr (by constructor <;> intro h <;> linarith)
            (by constructor <;> intro h <;> linarith)
        simp only [predicateCmp, toRat, hcmp, hswap, ne_eq, not_true_eq_false, if_false, if_true]
    · exact hb.elim
    · exact hb.elim
  · exact ha.elim
  · exact ha.elim

end NumericKey

/-! ## The keys of values -/

/-- A value with a sound key, and the number of the key. -/
def Value.Denotes (v : Value) (q : ℚ) : Prop :=
  ∃ key, of v = some key ∧ key.Sound ∧ key.toRat = q

theorem Value.denotes_int {i : ℤ} (h : i.natAbs < 2 ^ 128) : (Value.int i).Denotes i := by
  refine ⟨_, rfl, reduce_sound _ h 0 (zero_le _), ?_⟩
  rw [toRat_reduce]
  rcases lt_or_ge i 0 with hi | hi
  · obtain ⟨m, rfl⟩ : ∃ m : ℕ, i = -m := ⟨i.natAbs, by omega⟩
    simp
  · obtain ⟨m, rfl⟩ : ∃ m : ℕ, i = m := ⟨i.natAbs, by omega⟩
    simp

theorem Value.denotes_decimal (d : Decimal) : (Value.decimal d).Denotes d.toRat := by
  have hm : d.mantissa.natAbs < 2 ^ 128 := d.mantissa_lt.trans (by norm_num)
  refine ⟨_, rfl, reduce_sound _ hm _ d.scale_le, ?_⟩
  have hten : (10 : ℚ) ^ d.scale = 2 ^ d.scale * 5 ^ d.scale := by rw [← mul_pow]; norm_num
  rw [toRat_reduce, Decimal.toRat, hten, zpow_neg, zpow_natCast]
  rcases lt_or_ge d.mantissa 0 with hi | hi
  · obtain ⟨m, hm⟩ : ∃ m : ℕ, d.mantissa = -m := ⟨d.mantissa.natAbs, by omega⟩
    rw [if_pos (by simpa using hi), hm, Int.natAbs_neg, Int.natAbs_natCast]
    push_cast
    field_simp
  · obtain ⟨m, hm⟩ : ∃ m : ℕ, d.mantissa = m := ⟨d.mantissa.natAbs, by omega⟩
    rw [if_neg (by simpa using hi), hm, Int.natAbs_natCast]
    push_cast
    field_simp

/-! ## Floats -/

namespace Float64

theorem significand_lt (bits : UInt64) : significand bits < 2 ^ 53 := by
  unfold significand
  split_ifs <;> omega

theorem ofFloat_eq {bits : UInt64} (h : isFinite bits = true) :
    ofFloat bits = NumericKey.reduce (isNegative bits) (significand bits) (exponent bits) 0 := by
  have hbits : bits.toNat < 2 ^ 64 := bits.toNat_lt
  have hsign : decide (bits.toNat / 2 ^ 52 / (0x7FF + 1) ≠ 0) = isNegative bits := by
    rw [isNegative, decide_eq_decide]
    omega
  have hfields : bits.toNat / 2 ^ 52 % (0x7FF + 1) ≠ 0x7FF := by simpa [isFinite] using h
  rw [ofFloat, binary, if_neg hfields, hsign]
  rw [show 0x7FF + 1 = 2 ^ 11 by norm_num]
  by_cases hexp : bits.toNat / 2 ^ 52 % 2 ^ 11 = 0
  · rw [if_pos hexp, significand, exponent, if_pos hexp, if_pos hexp]
    rfl
  · rw [if_neg hexp, significand, exponent, if_neg hexp, if_neg hexp]

theorem representable (bits : UInt64) : Representable 53 (toRat bits) := by
  have hs := significand_lt bits
  unfold toRat
  split_ifs
  · refine ⟨-significand bits, exponent bits, by rwa [Int.natAbs_neg, Int.natAbs_natCast], ?_⟩
    push_cast
    ring
  · refine ⟨significand bits, exponent bits, by rwa [Int.natAbs_natCast], ?_⟩
    push_cast
    ring

/-! ## Integers as floats -/

theorem le_roundedSignificand {m : ℕ} (hm : 0 < m) : 2 ^ 52 ≤ roundedSignificand m := by
  have hle := bitLength_le hm
  unfold roundedSignificand
  split_ifs with h
  · have hlen := bitLength_pos hm
    rw [leading, shiftLeft_eq]
    calc 2 ^ 52 = 2 ^ (bitLength m - 1) * 2 ^ (53 - bitLength m) := by
          rw [← pow_add]
          congr 1
          omega
      _ ≤ m * 2 ^ (53 - bitLength m) := mul_le_mul_right _ hle
  · refine le_trans ?_ (le_nearestEven m _)
    rw [le_div_iff_mul_le (by positivity), ← pow_add]
    convert hle using 2
    omega

theorem roundedSignificand_le (m : ℕ) : roundedSignificand m ≤ 2 ^ 53 := by
  have hlt := lt_bitLength m
  unfold roundedSignificand
  split_ifs with h
  · have hm : m < 2 ^ 53 := hlt.trans_le (Nat.pow_le_pow_right (by omega) h)
    exact (leading_lt hm).le
  · have hdiv : m / 2 ^ (bitLength m - 53) < 2 ^ 53 := by
      rw [div_lt_iff_lt_mul (by positivity), ← pow_add]
      convert hlt using 2
      omega
    have := nearestEven_le m (bitLength m - 53)
    omega

theorem roundedSignificand_scaled (m : ℕ) :
    (roundedSignificand m : ℚ) * 2 ^ (bitLength m - 53 : ℤ) = roundTo 53 m := by
  unfold roundedSignificand
  split_ifs with h
  · have hm : m < 2 ^ 53 := (lt_bitLength m).trans_le (Nat.pow_le_pow_right (by omega) h)
    have := scaled_eq_leading hm 0
    rw [roundTo_of_lt hm, ← mul_one (m : ℚ), ← zpow_zero (2 : ℚ), this]
    congr 2
  · rw [roundTo, show (bitLength m - 53 : ℤ) = ((bitLength m - 53 : ℕ) : ℤ) by omega, zpow_natCast]
    push_cast
    ring

theorem toRat_fields {bits : UInt64} (negative : Bool) (e f : ℕ)
    (h : bits.toNat = (if negative then 2 ^ 63 else 0) + (e * 2 ^ 52 + f)) (hf : f < 2 ^ 52)
    (he : 0 < e) (hlt : e < 2 ^ 11) :
    toRat bits = (if negative then -1 else 1) * ((f + 2 ^ 52 : ℕ) * 2 ^ (e - 1075 : ℤ)) := by
  have hexp : bits.toNat / 2 ^ 52 % 2 ^ 11 = e := by
    cases negative <;> simp only [if_true, if_false, Bool.false_eq_true] at h <;> omega
  have hfrac : bits.toNat % 2 ^ 52 = f := by
    cases negative <;> simp only [if_true, if_false, Bool.false_eq_true] at h <;> omega
  have hsign : isNegative bits = negative := by
    unfold isNegative
    cases negative <;> simp only [if_true, if_false, Bool.false_eq_true] at h <;> simp <;> omega
  rw [toRat, significand, exponent, hexp, hfrac, hsign, if_neg he.ne', if_neg he.ne']

theorem toRat_ofInt {i : ℤ} (h : i.natAbs < 2 ^ 64) : toRat (ofInt i) = roundInt 53 i := by
  rcases eq_or_ne i 0 with rfl | hi
  · simp [ofInt, toRat, significand, roundInt, roundTo, bitLength]
  · have hpos : 0 < i.natAbs := by omega
    have hlen := bitLength_le_of_lt h
    have hlow := le_roundedSignificand hpos
    have hhigh := roundedSignificand_le i.natAbs
    have hscale := roundedSignificand_scaled i.natAbs
    have hbits : (ofInt i).toNat = (if decide (i < 0) then 2 ^ 63 else 0) +
        ((bitLength i.natAbs + 1021) * 2 ^ 52 + roundedSignificand i.natAbs) := by
      rw [ofInt, if_neg hi, UInt64.toNat_ofNat', Nat.mod_eq_of_lt]
      · simp
      · split_ifs <;> omega
    have hsum : toRat (ofInt i) = (if decide (i < 0) then -1 else 1) * (roundTo 53 i.natAbs : ℚ) := by
      rcases hhigh.eq_or_lt with hcarry | hlt
      · -- the rounding carried into the exponent
        have hexp : (bitLength i.natAbs - 53 : ℤ) = (bitLength i.natAbs + 1023 : ℕ) - 1075 + -1 := by
          omega
        rw [toRat_fields (i < 0) (bitLength i.natAbs + 1023) 0 (by rw [hbits, hcarry]; omega)
          (by norm_num) (by omega) (by omega), ← hscale, hcarry, hexp, zpow_add₀ (by norm_num),
          zpow_neg_one]
        ring
      · have hexp : (bitLength i.natAbs - 53 : ℤ) = (bitLength i.natAbs + 1022 : ℕ) - 1075 := by
          omega
        rw [toRat_fields (i < 0) (bitLength i.natAbs + 1022)
          (roundedSignificand i.natAbs - 2 ^ 52) (by rw [hbits]; omega) (by omega) (by omega)
          (by omega), ← hscale, Nat.sub_add_cancel hlow, hexp]
    rw [hsum, roundInt]
    split_ifs with hneg <;> simp_all

end Float64

theorem Value.denotes_float {bits : UInt64} (h : Float64.isFinite bits = true) :
    (Value.float bits).Denotes (Float64.toRat bits) := by
  have hs := Float64.significand_lt bits
  refine ⟨_, rfl, ?_, ?_⟩
  · rw [Float64.ofFloat_eq h]
    exact reduce_sound _ (by omega) _ (zero_le _)
  · rw [Float64.ofFloat_eq h, toRat_reduce, Float64.toRat]
    simp

end Selene.Graph
