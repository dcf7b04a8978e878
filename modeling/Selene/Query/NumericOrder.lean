import Selene.Base.Words
import Selene.Query.ValueCompare

/-!
# Sorting numbers, and the words they are compared in

`numeric_value.rs`: `sort_cmp` completes `predicate_cmp` to an order of all keys. `Wide` is the number
of four words that `magnitude_cmp` multiplies and shifts; a carry out of the highest word is what the
`debug_assert` of `mul_fives` looks for.
-/

namespace Selene.Graph

open Binary Words

/-- `sort_cmp`: NaNs are above all numbers. -/
def NumericKey.sortCmp (lhs rhs : NumericKey) : Ordering :=
  match lhs.predicateCmp rhs with
  | some order => order
  | none => compare (lhs == .nan) (rhs == .nan)

def Float32.isFinite (bits : UInt32) : Bool := bits.toNat / 2 ^ 23 % 2 ^ 8 ≠ 0xFF

/-- The integers of a value are those of its type. -/
def Value.inRange : Value → Bool
  | int i => -2 ^ 63 ≤ i ∧ i < 2 ^ 63
  | uint n => n < 2 ^ 64
  | int128 i => -2 ^ 127 ≤ i ∧ i < 2 ^ 127
  | uint128 n => n < 2 ^ 128
  | _ => true

/-- `Wide`: four words, the lowest first. -/
structure Wide where
  words : List UInt64
  length_eq : words.length = 4

namespace Wide

def new (value : ℕ) : Wide where
  words := [.ofNat value, .ofNat (value / 2 ^ 64), 0, 0]
  length_eq := rfl

/-- One turn of `mul_fives`, with the carry out of the highest word. -/
def mulFive (a : Wide) : Wide × ℕ :=
  (⟨(mulAdd 5 a.words 0).1, by rw [length_mulAdd, a.length_eq]⟩, (mulAdd 5 a.words 0).2)

/-- `mul_fives`, with the carries of its turns. -/
def mulFives : ℕ → Wide → Wide × List ℕ
  | 0, a => (a, [])
  | count + 1, a =>
    let (next, carry) := a.mulFive
    let (product, carries) := mulFives count next
    (product, carry :: carries)

def word (a : Wide) (i : ℕ) : UInt64 := a.words.getD i 0

/-- `bits`: the loop looks for the highest word that is not zero. -/
def bits (a : Wide) : ℕ :=
  ([3, 2, 1, 0].findSome? fun i =>
    if a.word i ≠ 0 then some (i * 64 + bitLength (a.word i).toNat) else none).getD 0

/-- `normalized`: the words from the highest on, with the leading bit at the top. -/
def normalized (a : Wide) : List UInt64 :=
  let shift := 256 - a.bits
  let words := shift / 64
  let bits := shift % 64
  [3, 2, 1, 0].map fun i =>
    if i < words then 0
    else if bits ≠ 0 ∧ words < i then shifted bits (a.word (i - words)) (a.word (i - words - 1))
    else .ofNat ((a.word (i - words)).toNat <<< bits)

end Wide

/-- `magnitude_cmp`, in words. -/
def NumericKey.magnitudeCmpWords (am : ℕ) (ae : ℤ) (af : ℕ) (bm : ℕ) (be : ℤ) (bf : ℕ) : Ordering :=
  if am = 0 ∨ bm = 0 then compare am bm
  else if af = bf then
    (compare (bitLength am + ae) (bitLength bm + be)).then
      (compare (leading 128 am % 2 ^ 128) (leading 128 bm % 2 ^ 128))
  else
    let a := if bf > af then (Wide.mulFives (bf - af) (Wide.new am)).1 else Wide.new am
    let b := if bf > af then Wide.new bm else (Wide.mulFives (af - bf) (Wide.new bm)).1
    (compare (a.bits + ae) (b.bits + be)).then (compare a.normalized b.normalized)

end Selene.Graph
