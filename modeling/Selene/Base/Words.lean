import Mathlib.Data.Nat.Digits.Lemmas
import Selene.Base.Binary

/-!
# Numbers of several words

A number as a list of 64-bit words, the lowest first. Multiplying word by word with a carry and
shifting to the left conserve the number, up to what leaves the highest word (`value_mulAdd`,
`value_shl`). Two numbers of as many words, written from the highest word on, compare like their words
(`compare_words`).
-/

namespace Selene.Words

open Binary Nat List

/-- The number of the words. -/
def value (words : List UInt64) : ℕ := ofDigits (2 ^ 64) (words.map UInt64.toNat)

@[simp] theorem value_nil : value [] = 0 := rfl

@[simp] theorem value_cons (x : UInt64) (xs : List UInt64) :
    value (x :: xs) = x.toNat + 2 ^ 64 * value xs := by
  rw [value, map_cons, ofDigits_cons]
  rfl

theorem value_append (xs ys : List UInt64) :
    value (xs ++ ys) = value xs + 2 ^ (64 * xs.length) * value ys := by
  rw [value, map_append, ofDigits_append, length_map, pow_mul]
  rfl

theorem value_lt (xs : List UInt64) : value xs < 2 ^ (64 * xs.length) := by
  have h : ∀ x ∈ xs.map UInt64.toNat, x < (2 ^ 64 - 2) + 2 := by
    intro x hx
    obtain ⟨u, -, rfl⟩ := mem_map.1 hx
    have := u.toNat_lt
    omega
  have := ofDigits_lt_base_pow_length' h
  rwa [length_map, show 2 ^ 64 - 2 + 2 = 2 ^ 64 by norm_num, ← pow_mul] at this

theorem value_replicate_zero (n : ℕ) : value (List.replicate n 0) = 0 := by
  induction n with
  | zero => rfl
  | succ n ih => simp [replicate_succ, ih]

/-! ## Multiplication by a small factor -/

/-- One pass over the words with a carry; the carry that is left comes with them. -/
def mulAdd (factor : ℕ) : List UInt64 → ℕ → List UInt64 × ℕ
  | [], carry => ([], carry)
  | limb :: limbs, carry =>
    let product := limb.toNat * factor + carry
    let (rest, out) := mulAdd factor limbs (product / 2 ^ 64)
    (.ofNat product :: rest, out)

theorem length_mulAdd (factor : ℕ) (xs : List UInt64) (carry : ℕ) :
    (mulAdd factor xs carry).1.length = xs.length := by
  induction xs generalizing carry with
  | nil => rfl
  | cons x xs ih => simp [mulAdd, ih]

theorem value_mulAdd (factor : ℕ) (xs : List UInt64) (carry : ℕ) :
    value (mulAdd factor xs carry).1 + 2 ^ (64 * xs.length) * (mulAdd factor xs carry).2 =
      value xs * factor + carry := by
  induction xs generalizing carry with
  | nil => simp [mulAdd]
  | cons x xs ih =>
    set product := x.toNat * factor + carry with hproduct
    have hrest := ih (product / 2 ^ 64)
    have hsplit := mod_add_div product (2 ^ 64)
    have hword : (UInt64.ofNat product).toNat = product % 2 ^ 64 := UInt64.toNat_ofNat'
    have hpow : 2 ^ (64 * (xs.length + 1)) = 2 ^ 64 * 2 ^ (64 * xs.length) := by
      rw [← pow_add]
      congr 1
      omega
    simp only [mulAdd, ← hproduct, value_cons, length_cons, hword, hpow]
    calc product % 2 ^ 64 + 2 ^ 64 * value (mulAdd factor xs (product / 2 ^ 64)).1 +
          2 ^ 64 * 2 ^ (64 * xs.length) * (mulAdd factor xs (product / 2 ^ 64)).2
        = product % 2 ^ 64 + 2 ^ 64 * (value (mulAdd factor xs (product / 2 ^ 64)).1 +
            2 ^ (64 * xs.length) * (mulAdd factor xs (product / 2 ^ 64)).2) := by ring
      _ = product % 2 ^ 64 + 2 ^ 64 * (product / 2 ^ 64) + 2 ^ 64 * (value xs * factor) := by
          rw [hrest]
          ring
      _ = (x.toNat + 2 ^ 64 * value xs) * factor + carry := by
          rw [hsplit, hproduct]
          ring

theorem mulAdd_exact {factor : ℕ} {xs : List UInt64} {carry : ℕ}
    (h : value xs * factor + carry < 2 ^ (64 * xs.length)) :
    (mulAdd factor xs carry).2 = 0 ∧ value (mulAdd factor xs carry).1 = value xs * factor + carry := by
  have hsum := value_mulAdd factor xs carry
  have hout : (mulAdd factor xs carry).2 = 0 := by
    by_contra hne
    have hle := Nat.le_mul_of_pos_right (2 ^ (64 * xs.length)) (Nat.pos_of_ne_zero hne)
    omega
  exact ⟨hout, by rw [← hsum, hout, mul_zero, Nat.add_zero]⟩

/-! ## Shifting to the left -/

/-- A word moved up, with the bits that leave the word below it. -/
def shifted (bits : ℕ) (word below : UInt64) : UInt64 :=
  .ofNat (word.toNat <<< bits ||| below.toNat >>> (64 - bits))

def shl (bits : ℕ) : List UInt64 → UInt64 → List UInt64
  | [], _ => []
  | x :: xs, below => shifted bits x below :: shl bits xs x

@[simp] theorem shifted_zero (word below : UInt64) : shifted 0 word below = word := by
  have hbelow : below.toNat >>> 64 = 0 := by
    rw [shiftRight_eq_div_pow]
    exact Nat.div_eq_of_lt below.toNat_lt
  simp [shifted, hbelow]

theorem shifted_add {bits : ℕ} (hbits : bits ≤ 64) (word below : UInt64) :
    (shifted bits word below).toNat + 2 ^ 64 * (word.toNat / 2 ^ (64 - bits)) =
      2 ^ bits * word.toNat + below.toNat / 2 ^ (64 - bits) := by
  have hpow : 2 ^ 64 = 2 ^ bits * 2 ^ (64 - bits) := by
    rw [← pow_add]
    congr 1
    omega
  -- what comes in from below has room under the word moved up
  have hin : below.toNat / 2 ^ (64 - bits) < 2 ^ bits := by
    apply Nat.div_lt_of_lt_mul
    have hlt : below.toNat < 2 ^ 64 := below.toNat_lt
    rw [hpow, mul_comm] at hlt
    exact hlt
  have hor : word.toNat <<< bits ||| below.toNat >>> (64 - bits) =
      2 ^ bits * word.toNat + below.toNat / 2 ^ (64 - bits) := by
    rw [shiftRight_eq_div_pow, shiftLeft_eq, mul_comm word.toNat, ← two_pow_add_eq_or_of_lt hin]
  have hout : (2 ^ bits * word.toNat + below.toNat / 2 ^ (64 - bits)) / 2 ^ 64 =
      word.toNat / 2 ^ (64 - bits) := by
    rw [hpow, ← Nat.div_div_eq_div_mul, Nat.mul_add_div (by positivity), Nat.div_eq_of_lt hin,
      Nat.add_zero]
  have hword : (shifted bits word below).toNat =
      (2 ^ bits * word.toNat + below.toNat / 2 ^ (64 - bits)) % 2 ^ 64 := by
    rw [shifted, hor]
    exact UInt64.toNat_ofNat'
  rw [hword, ← hout]
  exact mod_add_div _ _

/-- **A shift multiplies the number, up to the bits that leave the last word.** -/
theorem value_shl {bits : ℕ} (hbits : bits ≤ 64) (xs : List UInt64) (below : UInt64) :
    value (shl bits xs below) +
        2 ^ (64 * xs.length) * ((xs.getLast?.getD below).toNat / 2 ^ (64 - bits)) =
      2 ^ bits * value xs + below.toNat / 2 ^ (64 - bits) := by
  induction xs generalizing below with
  | nil => simp [shl]
  | cons x xs ih =>
    have hword := shifted_add hbits x below
    have hrest := ih x
    have hpow : 2 ^ (64 * (xs.length + 1)) = 2 ^ 64 * 2 ^ (64 * xs.length) := by
      rw [← pow_add]
      congr 1
      omega
    rw [getLast?_cons, Option.getD_some]
    simp only [shl, value_cons, length_cons, hpow]
    calc (shifted bits x below).toNat + 2 ^ 64 * value (shl bits xs x) +
          2 ^ 64 * 2 ^ (64 * xs.length) * ((xs.getLast?.getD x).toNat / 2 ^ (64 - bits))
        = (shifted bits x below).toNat + 2 ^ 64 * (value (shl bits xs x) +
            2 ^ (64 * xs.length) * ((xs.getLast?.getD x).toNat / 2 ^ (64 - bits))) := by ring
      _ = (shifted bits x below).toNat + 2 ^ 64 * (x.toNat / 2 ^ (64 - bits)) +
            2 ^ bits * (2 ^ 64 * value xs) := by
          rw [hrest]
          ring
      _ = 2 ^ bits * (x.toNat + 2 ^ 64 * value xs) + below.toNat / 2 ^ (64 - bits) := by
          rw [hword]
          ring

/-! ## Comparison -/

theorem compare_high {n x y : ℕ} {a b : UInt64} (hx : x < n) (hy : y < n) :
    compare (x + n * a.toNat) (y + n * b.toNat) = (compare a b).then (compare x y) := by
  have hab : compare a b = compare a.toNat b.toNat := by
    simp only [compare, compareOfLessAndEq, UInt64.lt_iff_toNat_lt, UInt64.toNat_inj]
  rw [hab]
  rcases lt_trichotomy a.toNat b.toNat with h | h | h
  · have hle : n * (a.toNat + 1) ≤ n * b.toNat := mul_le_mul_left n h
    rw [mul_add, mul_one] at hle
    have hlt : x + n * a.toNat < y + n * b.toNat := by omega
    rw [compare_lt_iff_lt.2 h, compare_lt_iff_lt.2 hlt]
    rfl
  · rw [compare_eq_iff_eq.2 h, h]
    exact compare_congr (by omega) (by omega)
  · have hle : n * (b.toNat + 1) ≤ n * a.toNat := mul_le_mul_left n h
    rw [mul_add, mul_one] at hle
    have hlt : y + n * b.toNat < x + n * a.toNat := by omega
    rw [compare_gt_iff_gt.2 h, compare_gt_iff_gt.2 hlt]
    rfl

theorem compare_words {xs ys : List UInt64} (h : xs.length = ys.length) :
    compare xs ys = compare (value xs.reverse) (value ys.reverse) := by
  induction xs generalizing ys with
  | nil =>
    obtain rfl : ys = [] := length_eq_zero_iff.1 h.symm
    rfl
  | cons x xs ih =>
    obtain ⟨y, ys, rfl⟩ := exists_cons_of_length_eq_add_one h.symm
    have hlen : xs.length = ys.length := by simpa using h
    have hx := value_lt xs.reverse
    have hy := value_lt ys.reverse
    rw [List.length_reverse] at hx hy
    rw [← hlen] at hy
    rw [List.compare_cons_cons, ih hlen, List.reverse_cons, List.reverse_cons, value_append,
      value_append, List.length_reverse, List.length_reverse, ← hlen]
    simpa using (compare_high (a := x) (b := y) hx hy).symm

end Selene.Words
