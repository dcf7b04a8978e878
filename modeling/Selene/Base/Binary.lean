import Mathlib.Algebra.Order.Field.Power
import Mathlib.Tactic.Positivity
import Mathlib.Tactic.Ring
import Mathlib.Tactic.FieldSimp
import Mathlib.Tactic.Linarith

/-!
# Numbers in base two

A number `m * 2 ^ e` is compared by the position of its leading bit, and by its bits from there on
when the positions agree (`compare_scaled`). Rounding a number to `p` bits (`nearestEven`) never
steps over a number of `p` bits (`roundTo_le`, `le_roundTo`), so it keeps every comparison with such a
number, but for the equality it may make.
-/

namespace Selene.Binary

open Nat

/-! ## Orders -/

section Compare

variable {α β : Type} [LinearOrder α] [LinearOrder β]

theorem compare_congr {x y : α} {z w : β} (hlt : x < y ↔ z < w) (hgt : y < x ↔ w < z) :
    compare x y = compare z w := by
  rcases lt_trichotomy x y with h | h | h
  · rw [compare_lt_iff_lt.2 h, compare_lt_iff_lt.2 (hlt.1 h)]
  · have hzw : z = w :=
      le_antisymm (not_lt.1 fun hw => (hgt.2 hw).ne h.symm) (not_lt.1 fun hz => (hlt.2 hz).ne h)
    rw [compare_eq_iff_eq.2 h, compare_eq_iff_eq.2 hzw]
  · rw [compare_gt_iff_gt.2 h, compare_gt_iff_gt.2 (hgt.1 h)]

theorem compare_mul_right {x y c : ℚ} (hc : 0 < c) : compare (x * c) (y * c) = compare x y :=
  compare_congr (mul_lt_mul_iff_left₀ hc) (mul_lt_mul_iff_left₀ hc)

theorem compare_natCast (m n : ℕ) : compare (m : ℚ) n = compare m n := compare_congr cast_lt cast_lt

end Compare

/-! ## The leading bit -/

/-- The number of bits of a number, none for zero. -/
def bitLength (m : ℕ) : ℕ := if m = 0 then 0 else m.log2 + 1

theorem lt_bitLength (m : ℕ) : m < 2 ^ bitLength m := by
  unfold bitLength
  split_ifs with h
  · simp [h]
  · exact lt_log2_self

theorem bitLength_le {m : ℕ} (h : 0 < m) : 2 ^ (bitLength m - 1) ≤ m := by
  rw [bitLength, if_neg h.ne']
  exact log2_self_le h.ne'

theorem bitLength_pos {m : ℕ} (h : 0 < m) : 0 < bitLength m := by
  rw [bitLength, if_neg h.ne']
  exact succ_pos _

theorem bitLength_le_of_lt {m w : ℕ} (h : m < 2 ^ w) : bitLength m ≤ w := by
  rcases Nat.eq_zero_or_pos m with rfl | hm
  · exact Nat.zero_le w
  · have hpow : 2 ^ (bitLength m - 1) < 2 ^ w := (bitLength_le hm).trans_lt h
    have := (Nat.pow_lt_pow_iff_right (by omega)).1 hpow
    omega

theorem bitLength_add {w x y : ℕ} (hx : x < 2 ^ w) (hy : 0 < y) :
    bitLength (x + 2 ^ w * y) = bitLength y + w := by
  have hlow := bitLength_le hy
  have hhigh := lt_bitLength y
  have hlen := bitLength_pos hy
  have hle : bitLength (x + 2 ^ w * y) ≤ bitLength y + w := by
    apply bitLength_le_of_lt
    calc x + 2 ^ w * y < 2 ^ w * (y + 1) := by rw [mul_add, mul_one]; omega
      _ ≤ 2 ^ w * 2 ^ bitLength y := mul_le_mul_left _ hhigh
      _ = 2 ^ (bitLength y + w) := by rw [← pow_add, add_comm]
  have hge : 2 ^ (bitLength y + w - 1) < 2 ^ bitLength (x + 2 ^ w * y) := by
    calc 2 ^ (bitLength y + w - 1) = 2 ^ w * 2 ^ (bitLength y - 1) := by
          rw [← pow_add]
          congr 1
          omega
      _ ≤ 2 ^ w * y := mul_le_mul_left _ hlow
      _ ≤ x + 2 ^ w * y := le_add_left _ _
      _ < _ := lt_bitLength _
  have := (Nat.pow_lt_pow_iff_right (by omega)).1 hge
  omega

/-- A number with its leading bit moved to the top of a word of `w` bits. -/
def leading (w m : ℕ) : ℕ := m <<< (w - bitLength m)

theorem leading_lt {w m : ℕ} (h : m < 2 ^ w) : leading w m < 2 ^ w := by
  have hl := bitLength_le_of_lt h
  rw [leading, shiftLeft_eq]
  calc m * 2 ^ (w - bitLength m)
      < 2 ^ bitLength m * 2 ^ (w - bitLength m) := by
        have := lt_bitLength m
        gcongr
    _ = 2 ^ w := by rw [← pow_add]; congr 1; omega

section Scaled

variable {a b w : ℕ} {s t : ℤ}

theorem scaled_lt (a : ℕ) (s : ℤ) : (a : ℚ) * 2 ^ s < 2 ^ (bitLength a + s) := by
  have h : (a : ℚ) < 2 ^ (bitLength a : ℤ) := by exact_mod_cast lt_bitLength a
  rw [zpow_add₀ (by norm_num)]
  gcongr

theorem le_scaled (h : 0 < a) (s : ℤ) : (2 : ℚ) ^ (bitLength a + s - 1) ≤ a * 2 ^ s := by
  have hpos := bitLength_pos h
  have hle : (2 : ℚ) ^ ((bitLength a - 1 : ℕ) : ℤ) ≤ a := by exact_mod_cast bitLength_le h
  have hexp : (bitLength a + s - 1 : ℤ) = ((bitLength a - 1 : ℕ) : ℤ) + s := by omega
  rw [hexp, zpow_add₀ (by norm_num)]
  gcongr

theorem scaled_lt_scaled (hb : 0 < b) (h : bitLength a + s < bitLength b + t) :
    (a : ℚ) * 2 ^ s < b * 2 ^ t := by
  calc (a : ℚ) * 2 ^ s < 2 ^ (bitLength a + s) := scaled_lt a s
    _ ≤ 2 ^ (bitLength b + t - 1) := zpow_le_zpow_right₀ (by norm_num) (by omega)
    _ ≤ b * 2 ^ t := le_scaled hb t

theorem scaled_eq_leading (h : a < 2 ^ w) (s : ℤ) :
    (a : ℚ) * 2 ^ s = leading w a * 2 ^ (bitLength a + s - w) := by
  have hl := bitLength_le_of_lt h
  have hexp : s = ((w - bitLength a : ℕ) : ℤ) + (bitLength a + s - w) := by omega
  rw [leading, shiftLeft_eq]
  push_cast
  rw [mul_assoc, ← zpow_natCast, ← zpow_add₀ (by norm_num), ← hexp]

/-- **Scaled numbers compare by the places of their leading bits, then by their leading forms.** -/
theorem compare_scaled (ha : 0 < a) (hb : 0 < b) (haw : a < 2 ^ w) (hbw : b < 2 ^ w) (s t : ℤ) :
    (compare (bitLength a + s) (bitLength b + t)).then (compare (leading w a) (leading w b)) =
      compare ((a : ℚ) * 2 ^ s) (b * 2 ^ t) := by
  rcases lt_trichotomy (bitLength a + s) (bitLength b + t) with h | h | h
  · rw [compare_lt_iff_lt.2 h, compare_lt_iff_lt.2 (scaled_lt_scaled hb h)]
    rfl
  · -- equal places: both sides carry the same power of two
    have hpos : (0 : ℚ) < 2 ^ (bitLength b + t - w) := by positivity
    rw [compare_eq_iff_eq.2 h, Ordering.eq_then, scaled_eq_leading haw, scaled_eq_leading hbw, h,
      compare_mul_right hpos, compare_natCast]
  · rw [compare_gt_iff_gt.2 h, compare_gt_iff_gt.2 (scaled_lt_scaled ha h)]
    rfl

end Scaled

/-! ## Rounding -/

/-- `m / 2 ^ k` rounded to the nearest whole number, ties to even. -/
def nearestEven (m k : ℕ) : ℕ :=
  if 2 ^ k < 2 * (m % 2 ^ k) ∨ 2 * (m % 2 ^ k) = 2 ^ k ∧ m / 2 ^ k % 2 = 1 then m / 2 ^ k + 1
  else m / 2 ^ k

@[simp] theorem nearestEven_zero (m : ℕ) : nearestEven m 0 = m := by
  have h : m % 1 = 0 := mod_one m
  rw [nearestEven, if_neg (by simp [h])]
  simp

theorem le_nearestEven (m k : ℕ) : m / 2 ^ k ≤ nearestEven m k := by
  unfold nearestEven
  split_ifs <;> omega

theorem nearestEven_le (m k : ℕ) : nearestEven m k ≤ m / 2 ^ k + 1 := by
  unfold nearestEven
  split_ifs <;> omega

theorem mul_lt_of_rounded_up {m k : ℕ} (h : nearestEven m k = m / 2 ^ k + 1) :
    m / 2 ^ k * 2 ^ k < m := by
  have hpos : 0 < 2 ^ k := by positivity
  have hdiv := div_add_mod m (2 ^ k)
  have hcomm : m / 2 ^ k * 2 ^ k = 2 ^ k * (m / 2 ^ k) := mul_comm _ _
  unfold nearestEven at h
  split_ifs at h with hup <;> omega

/-- Numbers of at most `p` bits, at any scale. -/
def Representable (p : ℕ) (x : ℚ) : Prop := ∃ m e : ℤ, m.natAbs < 2 ^ p ∧ x = m * 2 ^ e

theorem Representable.neg {p : ℕ} {x : ℚ} (hx : Representable p x) : Representable p (-x) := by
  obtain ⟨m, e, hm, rfl⟩ := hx
  refine ⟨-m, e, by rwa [Int.natAbs_neg], ?_⟩
  push_cast
  ring

/-- What `m` becomes in `p` bits. -/
def roundTo (p m : ℕ) : ℕ := nearestEven m (bitLength m - p) * 2 ^ (bitLength m - p)

theorem roundTo_of_lt {p m : ℕ} (h : m < 2 ^ p) : roundTo p m = m := by
  have hl := bitLength_le_of_lt h
  simp [roundTo, Nat.sub_eq_zero_of_le hl]

/-- A number of `p` bits that reaches the leading bit of a longer one is a multiple of the step
between the numbers of `p` bits there. -/
theorem Representable.multiple {p k : ℕ} {x : ℚ} (hx : Representable p x)
    (hge : (2 : ℚ) ^ (p + k - 1 : ℤ) ≤ x) : ∃ c : ℕ, x = c * 2 ^ k := by
  obtain ⟨i, e, hi, rfl⟩ := hx
  have hpos : (0 : ℚ) < i * 2 ^ e := lt_of_lt_of_le (by positivity) hge
  have hi0 : 0 < i := by
    have : (0 : ℚ) < i := (pos_iff_pos_of_mul_pos hpos).2 (by positivity)
    exact_mod_cast this
  obtain ⟨m, rfl⟩ := Int.eq_ofNat_of_zero_le hi0.le
  have hm' : (m : ℚ) < 2 ^ (p : ℤ) := by exact_mod_cast hi
  rw [Int.cast_natCast] at hge ⊢
  have hlt : (2 : ℚ) ^ (p + k - 1 : ℤ) < 2 ^ (p + e : ℤ) := by
    calc (2 : ℚ) ^ (p + k - 1 : ℤ) ≤ m * 2 ^ e := hge
      _ < 2 ^ (p : ℤ) * 2 ^ e := by gcongr
      _ = 2 ^ (p + e : ℤ) := (zpow_add₀ (by norm_num) _ _).symm
  have he : (k : ℤ) ≤ e := by
    have := (zpow_lt_zpow_iff_right₀ (by norm_num : (1 : ℚ) < 2)).1 hlt
    omega
  obtain ⟨d, hd⟩ := Int.eq_ofNat_of_zero_le (show 0 ≤ e - k by omega)
  obtain rfl : e = k + d := by omega
  refine ⟨m * 2 ^ d, ?_⟩
  rw [zpow_add₀ (by norm_num), zpow_natCast, zpow_natCast]
  push_cast
  ring

section Round

variable {p m : ℕ} {x : ℚ}

/-- A number too long for `p` bits starts at the step between the numbers of `p` bits. -/
theorem step_le (h : 2 ^ p ≤ m) : (2 : ℚ) ^ (p + (bitLength m - p : ℕ) - 1 : ℤ) ≤ m := by
  have hm : 0 < m := lt_of_lt_of_le (by positivity) h
  have hlen : p ≤ bitLength m := by
    have : 2 ^ p < 2 ^ bitLength m := h.trans_lt (lt_bitLength m)
    exact ((Nat.pow_lt_pow_iff_right (by omega)).1 this).le
  have hexp : (p + (bitLength m - p : ℕ) - 1 : ℤ) = (bitLength m : ℤ) + 0 - 1 := by omega
  rw [hexp]
  simpa using le_scaled hm 0

theorem roundTo_le (hx : Representable p x) (h : (m : ℚ) ≤ x) : (roundTo p m : ℚ) ≤ x := by
  rcases lt_or_ge m (2 ^ p) with hm | hm
  · rw [roundTo_of_lt hm]
    exact h
  · obtain ⟨c, rfl⟩ := hx.multiple ((step_le hm).trans h)
    have hle : m ≤ c * 2 ^ (bitLength m - p) := by exact_mod_cast h
    have hround : nearestEven m (bitLength m - p) ≤ c := by
      rcases lt_or_ge (m / 2 ^ (bitLength m - p)) c with hlt | hge
      · have := nearestEven_le m (bitLength m - p)
        omega
      · -- `m` is the multiple `c` itself, so it is not rounded up
        have hmul : c * 2 ^ (bitLength m - p) ≤
            m / 2 ^ (bitLength m - p) * 2 ^ (bitLength m - p) := mul_le_mul_right _ hge
        have hdiv := div_mul_le_self m (2 ^ (bitLength m - p))
        have hq : m / 2 ^ (bitLength m - p) = c := by
          apply Nat.div_eq_of_eq_mul_left (by positivity)
          omega
        have hbound := nearestEven_le m (bitLength m - p)
        have hdown : nearestEven m (bitLength m - p) ≠ m / 2 ^ (bitLength m - p) + 1 := by
          intro hup
          have := mul_lt_of_rounded_up hup
          omega
        omega
    have : roundTo p m ≤ c * 2 ^ (bitLength m - p) := mul_le_mul_right _ hround
    exact_mod_cast this

theorem le_roundTo (hp : 0 < p) (hx : Representable p x) (h : x ≤ m) : x ≤ (roundTo p m : ℚ) := by
  rcases lt_or_ge m (2 ^ p) with hm | hm
  · rw [roundTo_of_lt hm]
    exact h
  · have hq : m / 2 ^ (bitLength m - p) * 2 ^ (bitLength m - p) ≤ roundTo p m :=
      mul_le_mul_right _ (le_nearestEven _ _)
    rcases le_or_gt ((2 : ℚ) ^ (p + (bitLength m - p : ℕ) - 1 : ℤ)) x with hge | hlt
    · obtain ⟨c, rfl⟩ := hx.multiple hge
      have hle : c * 2 ^ (bitLength m - p) ≤ m := by exact_mod_cast h
      have hc : c ≤ m / 2 ^ (bitLength m - p) := (le_div_iff_mul_le (by positivity)).2 hle
      have : c * 2 ^ (bitLength m - p) ≤ roundTo p m := (mul_le_mul_right _ hc).trans hq
      exact_mod_cast this
    · -- below the leading bit of `m`, which is itself a multiple of the step
      have hpow : 2 ^ (p - 1) * 2 ^ (bitLength m - p) ≤ m := by
        have := step_le hm
        rw [show (p + (bitLength m - p : ℕ) - 1 : ℤ) = ((p - 1 + (bitLength m - p) : ℕ) : ℤ) by
          omega, zpow_natCast, pow_add] at this
        exact_mod_cast this
      have htop : 2 ^ (p - 1) ≤ m / 2 ^ (bitLength m - p) :=
        (le_div_iff_mul_le (by positivity)).2 hpow
      have hround : 2 ^ (p - 1) * 2 ^ (bitLength m - p) ≤ roundTo p m :=
        (mul_le_mul_right _ htop).trans hq
      refine hlt.le.trans ?_
      rw [show (p + (bitLength m - p : ℕ) - 1 : ℤ) = ((p - 1 + (bitLength m - p) : ℕ) : ℤ) by
        omega, zpow_natCast, pow_add]
      exact_mod_cast hround

/-- What an integer becomes in `p` bits. -/
def roundInt (p : ℕ) (i : ℤ) : ℤ := if i < 0 then -roundTo p i.natAbs else roundTo p i.natAbs

section

variable (hp : 0 < p) {i : ℤ} (hx : Representable p x)
include hp hx

theorem roundInt_le (h : (i : ℚ) ≤ x) :
    (roundInt p i : ℚ) ≤ x := by
  unfold roundInt
  split_ifs with hi
  · obtain ⟨m, rfl⟩ : ∃ m : ℕ, i = -m := ⟨i.natAbs, by omega⟩
    have hm : -x ≤ (m : ℚ) := by
      push_cast at h
      linarith
    have := le_roundTo hp hx.neg hm
    rw [Int.natAbs_neg, Int.natAbs_natCast]
    push_cast
    linarith
  · obtain ⟨m, rfl⟩ : ∃ m : ℕ, i = m := ⟨i.natAbs, by omega⟩
    exact roundTo_le hx h

theorem le_roundInt (h : x ≤ (i : ℚ)) :
    x ≤ (roundInt p i : ℚ) := by
  unfold roundInt
  split_ifs with hi
  · obtain ⟨m, rfl⟩ : ∃ m : ℕ, i = -m := ⟨i.natAbs, by omega⟩
    have hm : (m : ℚ) ≤ -x := by
      push_cast at h
      linarith
    have := roundTo_le hx.neg hm
    rw [Int.natAbs_neg, Int.natAbs_natCast]
    push_cast
    linarith
  · obtain ⟨m, rfl⟩ : ∃ m : ℕ, i = m := ⟨i.natAbs, by omega⟩
    exact le_roundTo hp hx h

/-- **Rounding keeps the order to a number of `p` bits, unless it lands on it.** -/
theorem compare_roundInt (hne : (roundInt p i : ℚ) = x → (i : ℚ) = x) :
    compare (roundInt p i : ℚ) x = compare (i : ℚ) x := by
  apply compare_congr
  · constructor
    · intro h
      exact not_le.1 fun hle => absurd (le_roundInt hp hx hle) (not_le.2 h)
    · intro h
      exact lt_of_le_of_ne (roundInt_le hp hx h.le) fun heq => h.ne (hne heq)
  · constructor
    · intro h
      exact not_le.1 fun hle => absurd (roundInt_le hp hx hle) (not_le.2 h)
    · intro h
      exact lt_of_le_of_ne (le_roundInt hp hx h.le) fun heq => h.ne' (hne heq.symm)

end

end Round

end Selene.Binary
