import Selene.Query.NumericOrder
import Selene.Proof.NumericExact

/-!
# The words of a comparison

Four words hold every number that `magnitude_cmp` makes of two keys: no turn of `mul_fives` carries
out of them (`mulFives_exact`), `bits` and `normalized` are the place of the leading bit and the
leading form (`bits_exact`, `value_normalized`), so the comparison in words is the comparison of the
numbers (`magnitudeCmpWords_eq`).
-/

namespace Selene.Graph

open Binary Words Nat List Wide

namespace Wide

/-- The number of the four words. -/
def value (a : Wide) : ℕ := Words.value a.words

theorem value_new {v : ℕ} (h : v < 2 ^ 128) : (new v).value = v := by
  have hlow : (UInt64.ofNat v).toNat = v % 2 ^ 64 := UInt64.toNat_ofNat'
  have hhigh : (UInt64.ofNat (v / 2 ^ 64)).toNat = v / 2 ^ 64 % 2 ^ 64 := UInt64.toNat_ofNat'
  have hzero : (0 : UInt64).toNat = 0 := rfl
  simp only [value, new, value_cons, value_nil, hlow, hhigh, hzero]
  omega

theorem mulFive_exact {a : Wide} (h : a.value * 5 < 2 ^ 256) :
    a.mulFive.2 = 0 ∧ a.mulFive.1.value = a.value * 5 := by
  have hroom : Words.value a.words * 5 + 0 < 2 ^ (64 * a.words.length) := by
    rw [a.length_eq]
    exact h
  exact mulAdd_exact hroom

/-- **No turn of `mul_fives` carries out of the four words** when they hold the product. -/
theorem mulFives_exact {n : ℕ} {a : Wide} (h : a.value * 5 ^ n < 2 ^ 256) :
    (∀ carry ∈ (mulFives n a).2, carry = 0) ∧ (mulFives n a).1.value = a.value * 5 ^ n := by
  induction n generalizing a with
  | zero => simp [mulFives]
  | succ n ih =>
    have hassoc : a.value * 5 * 5 ^ n = a.value * 5 ^ (n + 1) := by rw [mul_assoc, ← pow_succ']
    have hpow : 0 < 5 ^ n := by positivity
    have hstep : a.value * 5 < 2 ^ 256 := by
      have := Nat.le_mul_of_pos_right (a.value * 5) hpow
      omega
    obtain ⟨hcarry, hvalue⟩ := mulFive_exact hstep
    have hrest : a.mulFive.1.value * 5 ^ n < 2 ^ 256 := by
      rw [hvalue, hassoc]
      exact h
    obtain ⟨hcarries, hproduct⟩ := ih hrest
    refine ⟨?_, ?_⟩
    · intro carry hmem
      rcases mem_cons.1 hmem with rfl | hmem
      · exact hcarry
      · exact hcarries carry hmem
    · rw [mulFives, hproduct, hvalue, hassoc]

theorem toNat_pos {x : UInt64} (h : x ≠ 0) : 0 < x.toNat :=
  pos_of_ne_zero fun hzero => h (UInt64.toNat_inj.1 hzero)

/-- A wide number with the word of its leading bit: the words above are zero. -/
structure Leads (a : Wide) (low : List UInt64) (top : UInt64) : Prop where
  top_ne : top ≠ 0
  length_le : low.length ≤ 3
  words_eq : a.words = low ++ top :: List.replicate (3 - low.length) 0

theorem exists_leads {a : Wide} (h : 0 < a.value) : ∃ low top, a.Leads low top := by
  obtain ⟨words, hlen⟩ := a
  match words, hlen with
  | [x, y, z, t], _ =>
    by_cases ht : t = 0
    · by_cases hz : z = 0
      · by_cases hy : y = 0
        · by_cases hx : x = 0
          · subst ht hz hy hx
            simp [value] at h
          · exact ⟨[], x, hx, by simp, by rw [ht, hz, hy]; rfl⟩
        · exact ⟨[x], y, hy, by simp, by rw [ht, hz]; rfl⟩
      · exact ⟨[x, y], z, hz, by simp, by rw [ht]; rfl⟩
    · exact ⟨[x, y, z], t, ht, by simp, rfl⟩

namespace Leads

variable {a : Wide} {low : List UInt64} {top : UInt64}

section

variable (h : a.Leads low top)
include h

theorem value_eq : a.value = Words.value low + 2 ^ (64 * low.length) * top.toNat := by
  rw [value, h.words_eq, value_append, value_cons, value_replicate_zero, Nat.mul_zero, Nat.add_zero]

theorem bitLength_value : bitLength a.value = bitLength top.toNat + 64 * low.length := by
  rw [h.value_eq, bitLength_add (value_lt low) (toNat_pos h.top_ne)]

theorem bits_eq : a.bits = low.length * 64 + bitLength top.toNat := by
  have htop := h.top_ne
  have hlen := h.length_le
  obtain ⟨words, hwords⟩ := a
  have heq : words = low ++ top :: List.replicate (3 - low.length) 0 := h.words_eq
  subst heq
  rcases low with _ | ⟨x, _ | ⟨y, _ | ⟨z, _ | ⟨t, low⟩⟩⟩⟩
  · simp [bits, word, htop]
  · simp [bits, word, htop]
  · simp [bits, word, htop]
  · simp [bits, word, htop]
  · simp only [length_cons] at hlen
    omega

theorem normalized_eq : a.normalized.reverse = List.replicate (3 - low.length) 0 ++
      shl (64 - bitLength top.toNat) (low ++ [top]) 0 := by
  have hlen := h.length_le
  have hle := bitLength_le_of_lt (show top.toNat < 2 ^ 64 from top.toNat_lt)
  have hpos := bitLength_pos (toNat_pos h.top_ne)
  have hwords : (256 - a.bits) / 64 = 3 - low.length := by
    rw [h.bits_eq]
    omega
  have hbits : (256 - a.bits) % 64 = 64 - bitLength top.toNat := by
    rw [h.bits_eq]
    omega
  have hlowest : ∀ (w : UInt64) (b : ℕ), UInt64.ofNat (w.toNat <<< b) = shifted b w 0 := by
    intro w b
    simp [shifted]
  rw [normalized, hwords, hbits]
  obtain ⟨words, hfour⟩ := a
  have heq : words = low ++ top :: List.replicate (3 - low.length) 0 := h.words_eq
  subst heq
  generalize 64 - bitLength top.toNat = b
  by_cases hb : b = 0
  · subst hb
    rcases low with _ | ⟨x, _ | ⟨y, _ | ⟨z, _ | ⟨t, low⟩⟩⟩⟩
    · simp [word, shl]
    · simp [word, shl]
    · simp [word, shl]
    · simp [word, shl]
    · simp only [length_cons] at hlen
      omega
  · rcases low with _ | ⟨x, _ | ⟨y, _ | ⟨z, _ | ⟨t, low⟩⟩⟩⟩
    · simp [word, shl, hlowest]
    · simp [word, shl, hlowest, hb]
    · simp [word, shl, hlowest, hb]
    · simp [word, shl, hlowest, hb]
    · simp only [length_cons] at hlen
      omega

theorem value_normalized : Words.value a.normalized.reverse = leading 256 a.value := by
  have hlen := h.length_le
  have htop := lt_bitLength top.toNat
  have hle := bitLength_le_of_lt (show top.toNat < 2 ^ 64 from top.toNat_lt)
  have hbits : 64 - (64 - bitLength top.toNat) = bitLength top.toNat := by omega
  -- nothing leaves the highest word: the shift stops at its leading bit
  have hshift := value_shl (show 64 - bitLength top.toNat ≤ 64 by omega) (low ++ [top]) 0
  rw [hbits, getLast?_append_of_ne_nil _ (cons_ne_nil _ _), getLast?_singleton,
    Option.getD_some, div_eq_of_lt htop, Nat.mul_zero, Nat.add_zero, UInt64.toNat_zero,
    Nat.zero_div, Nat.add_zero, value_append, value_cons, value_nil, Nat.mul_zero, Nat.add_zero,
    ← h.value_eq] at hshift
  have hexp : 256 - (bitLength top.toNat + 64 * low.length) =
      64 * (3 - low.length) + (64 - bitLength top.toNat) := by omega
  rw [h.normalized_eq, value_append, value_replicate_zero, length_replicate, zero_add,
    hshift, leading, h.bitLength_value, shiftLeft_eq, hexp, pow_add]
  ring

end

end Leads

theorem length_normalized (a : Wide) : a.normalized.length = 4 := rfl

theorem bits_exact {a : Wide} (h : 0 < a.value) : a.bits = bitLength a.value := by
  obtain ⟨low, top, hleads⟩ := exists_leads h
  rw [hleads.bits_eq, hleads.bitLength_value]
  omega

theorem compare_normalized {a b : Wide} (ha : 0 < a.value) (hb : 0 < b.value) :
    compare a.normalized b.normalized = compare (leading 256 a.value) (leading 256 b.value) := by
  obtain ⟨_, _, hleadsA⟩ := exists_leads ha
  obtain ⟨_, _, hleadsB⟩ := exists_leads hb
  rw [compare_words (by rw [length_normalized, length_normalized]), hleadsA.value_normalized,
    hleadsB.value_normalized]

end Wide

namespace NumericKey

/-- **The words of a comparison hold its numbers**: `magnitude_cmp` answers in words what it answers
in numbers. -/
theorem magnitudeCmpWords_eq {am bm af bf : ℕ} (ha : am < 2 ^ 128) (hb : bm < 2 ^ 128)
    (haf : af ≤ 28) (hbf : bf ≤ 28) (ae be : ℤ) :
    magnitudeCmpWords am ae af bm be bf = magnitudeCmp am ae af bm be bf := by
  unfold magnitudeCmpWords magnitudeCmp
  split_ifs with hzero heq hlt
  · rfl
  · rfl
  · have hbig := mul_fives_lt ha (show bf - af ≤ 28 by omega)
    have hvalue : (Wide.mulFives (bf - af) (Wide.new am)).1.value = am * 5 ^ (bf - af) := by
      have := (Wide.mulFives_exact (a := Wide.new am) (n := bf - af)
        (by rw [Wide.value_new ha]; exact hbig)).2
      rwa [Wide.value_new ha] at this
    have hapos : 0 < am * 5 ^ (bf - af) := Nat.mul_pos (by omega) (by positivity)
    have hnew := Wide.value_new hb
    dsimp only
    rw [bits_exact (by omega), bits_exact (by omega),
      compare_normalized (by omega) (by omega), hvalue, hnew, mulFives_eq hbig,
      mod_eq_of_lt (leading_lt hbig), mod_eq_of_lt (leading_lt (by omega))]
  · have hbig := mul_fives_lt hb (show af - bf ≤ 28 by omega)
    have hvalue : (Wide.mulFives (af - bf) (Wide.new bm)).1.value = bm * 5 ^ (af - bf) := by
      have := (Wide.mulFives_exact (a := Wide.new bm) (n := af - bf)
        (by rw [Wide.value_new hb]; exact hbig)).2
      rwa [Wide.value_new hb] at this
    have hbpos : 0 < bm * 5 ^ (af - bf) := Nat.mul_pos (by omega) (by positivity)
    have hnew := Wide.value_new ha
    dsimp only
    rw [bits_exact (by omega), bits_exact (by omega),
      compare_normalized (by omega) (by omega), hvalue, hnew, mulFives_eq hbig,
      mod_eq_of_lt (leading_lt (by omega)), mod_eq_of_lt (leading_lt hbig)]

end NumericKey

end Selene.Graph
