import Mathlib.Data.List.Basic
import Mathlib.Tactic.Ring

/-!
# Byte strings

Fixed-width little-endian numbers, slices of a byte string and checked 64-bit
addition. A format is written as a concatenation of parts and read back with `slice`;
`slice_skip` and `slice_front` connect the two.
-/

namespace Octets

abbrev Bytes := List UInt8

/-- The `w` low bytes of `n`, least significant first. -/
def leBytes : ℕ → ℕ → Bytes
  | 0, _ => []
  | w + 1, n => UInt8.ofNat n :: leBytes w (n / 256)

/-- The number whose little-endian bytes are given. -/
def leNat : Bytes → ℕ
  | [] => 0
  | b :: bs => b.toNat + 256 * leNat bs

@[simp] theorem length_leBytes (w n : ℕ) : (leBytes w n).length = w := by
  induction w generalizing n with
  | zero => rfl
  | succ w ih => simp [leBytes, ih]

theorem leNat_leBytes {w : ℕ} : ∀ {n : ℕ}, n < 256 ^ w → leNat (leBytes w n) = n := by
  induction w with
  | zero => intro n h; simp [leBytes, leNat] at h ⊢; omega
  | succ w ih =>
    intro n h
    have hd : n / 256 < 256 ^ w := by
      rw [Nat.div_lt_iff_lt_mul (by norm_num)]; rw [pow_succ] at h; exact h
    have hb : (UInt8.ofNat n).toNat = n % 256 := by simp
    simp only [leBytes, leNat, ih hd, hb]
    omega

theorem leBytes_injective {w a b : ℕ} (ha : a < 256 ^ w) (hb : b < 256 ^ w)
    (h : leBytes w a = leBytes w b) : a = b := by
  rw [← leNat_leBytes ha, h, leNat_leBytes hb]

theorem leNat_lt (b : Bytes) : leNat b < 256 ^ b.length := by
  induction b with
  | nil => simp [leNat]
  | cons x xs ih =>
    have hx := x.toNat_lt
    rw [leNat, List.length_cons, pow_succ]
    omega

theorem leBytes_leNat (b : Bytes) : leBytes b.length (leNat b) = b := by
  induction b with
  | nil => rfl
  | cons x xs ih =>
    have hx := x.toNat_lt
    have hdiv : (x.toNat + 256 * leNat xs) / 256 = leNat xs := by omega
    have hmod : UInt8.ofNat (x.toNat + 256 * leNat xs) = x := by
      apply UInt8.toNat_inj.1
      rw [UInt8.toNat_ofNat']
      omega
    rw [leNat, List.length_cons, leBytes, hdiv, hmod, ih]

/-- `bytes[off..off + len]`, shortened at the end of the input. -/
def slice (bytes : Bytes) (off len : ℕ) : Bytes := (bytes.drop off).take len

theorem slice_skip (a b : Bytes) {off len : ℕ} (h : a.length ≤ off) :
    slice (a ++ b) off len = slice b (off - a.length) len := by
  unfold slice
  rw [List.drop_append, List.drop_eq_nil_of_le h, List.nil_append]

theorem slice_front (a b : Bytes) {len : ℕ} (h : a.length = len) : slice (a ++ b) 0 len = a := by
  subst h
  simp [slice]

theorem slice_all (a : Bytes) {len : ℕ} (h : a.length = len) : slice a 0 len = a := by
  subst h
  simp [slice]

theorem slice_append (a b : Bytes) {off len : ℕ} (h : off + len ≤ a.length) :
    slice (a ++ b) off len = slice a off len := by
  unfold slice
  rw [List.drop_append_of_le_length (by omega), List.take_append_of_le_length (by simp; omega)]

theorem slice_take (a : Bytes) {off len n : ℕ} (h : off + len ≤ n) :
    slice (a.take n) off len = slice a off len := by
  unfold slice
  rw [List.drop_take, List.take_take, min_eq_left (by omega)]

/-- `checked_add` on `u64`. -/
def checkedAdd (a : UInt64) (n : ℕ) : Option UInt64 :=
  if a.toNat + n < 2 ^ 64 then some (UInt64.ofNat (a.toNat + n)) else none

theorem checkedAdd_eq_some {a b : UInt64} {n : ℕ} :
    checkedAdd a n = some b ↔ b.toNat = a.toNat + n := by
  unfold checkedAdd
  constructor
  · intro h
    split at h
    · rename_i hlt
      cases h
      rw [UInt64.toNat_ofNat', Nat.mod_eq_of_lt hlt]
    · cases h
  · intro h
    have hb := b.toNat_lt
    rw [if_pos (by omega), ← h]
    simp

theorem checkedAdd_eq_none {a : UInt64} {n : ℕ} : checkedAdd a n = none ↔ 2 ^ 64 ≤ a.toNat + n := by
  unfold checkedAdd
  split <;> simp <;> omega

end Octets
