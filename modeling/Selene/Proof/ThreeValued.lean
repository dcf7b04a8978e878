import Selene.Base.Kleene
import Selene.Proof.NormalForms

/-!
# Three-valued equality

`gql_equal_non_null` answers unknown where a null or a NaN inside the values leaves the comparison
open. It is symmetric (`gqlEqualNonNull_comm`), and `answer_iff_normal` reads an answer as the
equality of keys: a false one always, a true one for values without typed records, whose slots are
compared as numbers here and within their variant by the keys.
-/

namespace Selene.Graph

open List Option NumericKey Kleene

variable {x y : List (DbString × Value)} {a b : Value}

namespace Value

/-! ## Answers by kind -/

/-- `gql_equal`, with its own answer for values that are not null. -/
def gqlCompare (a b : Value) : Option Bool := gqlEqual (gqlEqualNonNull a b) a b

theorem combineLoop_eq (unknown : Bool) (pairs : List (Option Bool)) :
    combineLoop unknown pairs = Kleene.and (if unknown then none else some true) (conj pairs) := by
  induction pairs generalizing unknown with
  | nil => cases unknown <;> rfl
  | cons pair pairs ih =>
    have hcons : conj (pair :: pairs) = Kleene.and pair (conj pairs) := rfl
    rw [hcons]
    rcases pair with _ | _ | _ <;> simp only [combineLoop, ih] <;> rcases conj pairs with _ | _ | _ <;>
      cases unknown <;> rfl

theorem combineEqual_eq (pairs : List (Option Bool)) : combineEqual pairs = conj pairs := by
  rw [combineEqual, combineLoop_eq]
  rcases conj pairs with _ | _ | _ <;> rfl

theorem gqlCompare_null_left (b : Value) : gqlCompare null b = none := by
  rw [gqlCompare, gqlEqual]

theorem gqlCompare_null_right (a : Value) : gqlCompare a null = none := by
  rw [gqlCompare, gqlEqual.eq_def]
  split
  · rfl
  · rfl
  · next h => exact absurd rfl h

theorem gqlCompare_eq (ha : a.kind ≠ .null) (hb : b.kind ≠ .null) :
    gqlCompare a b = gqlEqualNonNull a b := by
  rw [gqlCompare, gqlEqual.eq_def]
  split
  · exact absurd rfl ha
  · exact absurd rfl hb
  · rfl

theorem gqlEqualNonNull_number {k l : NumericKey} (ha : of a = some k)
    (hb : of b = some l) : gqlEqualNonNull a b = (k.predicateCmp l).map (· == .eq) := by
  rw [gqlEqualNonNull.eq_def]
  simp only [ha, hb]

theorem gqlEqualNonNull_list (x y : List Value) : gqlEqualNonNull (list x) (list y) =
      if x.length ≠ y.length then some false else conj (gqlEqualList x y) := by
  rw [gqlEqualNonNull.eq_def]
  simp only [of, combineEqual_eq]

theorem gqlEqualNonNull_record (x y : List (DbString × Value)) :
    gqlEqualNonNull (record x) (record y) =
      if x.length ≠ y.length then some false else conj (gqlEqualFields x y) := by
  rw [gqlEqualNonNull.eq_def]
  simp only [of, combineEqual_eq]

theorem gqlEqualNonNull_typed (s t : ℕ) (x y : List (Option Value)) :
    gqlEqualNonNull (recordTyped s x) (recordTyped t y) =
      if s ≠ t ∨ x.length ≠ y.length then some false else conj (gqlEqualSlots x y) := by
  rw [gqlEqualNonNull.eq_def]
  simp only [of, combineEqual_eq]

def isTyped : Value → Bool
  | recordTyped _ _ => true
  | _ => false

theorem gqlEqualNonNull_plain (hnumber : a.kind ≠ .number ∨ b.kind ≠ .number)
    (hlist : a.kind ≠ .list ∨ b.kind ≠ .list) (hrecord : a.kind ≠ .record ∨ b.kind ≠ .record)
    (htyped : a.isTyped = false ∨ b.isTyped = false) :
    gqlEqualNonNull a b = some (equalNonNull a b) := by
  rw [gqlEqualNonNull.eq_def]
  split
  · next k l ha hb =>
    rcases hnumber with h | h
    · exact absurd (kind_number.2 ⟨k, ha⟩) h
    · exact absurd (kind_number.2 ⟨l, hb⟩) h
  · split
    · exact absurd rfl (hlist.resolve_left fun h => h rfl)
    · exact absurd rfl (hrecord.resolve_left fun h => h rfl)
    · rcases htyped with h | h <;> cases h
    · rfl

theorem eq_typed (h : a.isTyped = true) : ∃ s x, a = recordTyped s x := by
  cases a <;> first | exact ⟨_, _, rfl⟩ | cases h

theorem kind_of_isTyped (h : a.isTyped = true) : a.kind = .other := by
  cases a <;> first | rfl | cases h

theorem gqlEqualNonNull_of_kind_ne (h : a.kind ≠ b.kind) : gqlEqualNonNull a b = some false := by
  have hnot : equalNonNull a b = false := by
    rw [Bool.eq_false_iff]
    exact fun heq => h (kind_of_equalNonNull heq)
  have hone : ∀ k : Kind, a.kind ≠ k ∨ b.kind ≠ k := by
    intro k
    by_contra hboth
    rw [not_or, not_not, not_not] at hboth
    exact h (hboth.1.trans hboth.2.symm)
  have htyped : a.isTyped = false ∨ b.isTyped = false := by
    by_contra hboth
    rw [not_or, Bool.not_eq_false, Bool.not_eq_false] at hboth
    exact h ((kind_of_isTyped hboth.1).trans (kind_of_isTyped hboth.2).symm)
  rw [gqlEqualNonNull_plain (hone _) (hone _) (hone _) htyped, hnot]

/-! ## The parts of a comparison -/

/-- A field against the field of its name. -/
def fieldCompare (others : List (DbString × Value)) (field : DbString × Value) : Option Bool :=
  match others.lookup field.1 with
  | some w => gqlCompare field.2 w
  | none => some false

def slotCompare : Option Value → Option Value → Option Bool
  | some a, some b => gqlCompare a b
  | _, _ => none

theorem gqlEqualList_eq (x y : List Value) : gqlEqualList x y = List.zipWith gqlCompare x y := by
  induction x generalizing y with
  | nil => simp [gqlEqualList]
  | cons a x ih => cases y <;> simp [gqlEqualList, gqlCompare, ih]

theorem gqlEqualFields_eq (x y : List (DbString × Value)) :
    gqlEqualFields x y = x.map (fieldCompare y) := by
  induction x with
  | nil => simp [gqlEqualFields]
  | cons p x ih =>
    obtain ⟨name, a⟩ := p
    rw [gqlEqualFields, ih, map_cons, fieldCompare]
    cases y.lookup name <;> rfl

theorem gqlEqualSlots_eq (x y : List (Option Value)) :
    gqlEqualSlots x y = List.zipWith slotCompare x y := by
  induction x generalizing y with
  | nil => simp [gqlEqualSlots]
  | cons a x ih =>
    cases a <;> rcases y with _ | ⟨_ | b, y⟩ <;> simp [gqlEqualSlots, slotCompare, gqlCompare, ih]

end Value

/-! ## Numbers -/

namespace NumericKey

variable {k l : NumericKey}

theorem predicateCmp_isSome (k l : NumericKey) :
    (k.predicateCmp l).isSome = (k != .nan && l != .nan) := by
  cases k <;> cases l <;> simp [predicateCmp]
  split_ifs <;> rfl

theorem predicateCmp_swap (hk : k.Canonical) (hl : l.Canonical) :
    l.predicateCmp k = (k.predicateCmp l).map Ordering.swap := by
  have hdefined : (l.predicateCmp k).isSome = (k.predicateCmp l).isSome := by
    rw [predicateCmp_isSome, predicateCmp_isSome, Bool.and_comm]
  cases h : k.predicateCmp l with
  | none =>
    rw [h, isSome_none, isSome_eq_false_iff, isNone_iff_eq_none] at hdefined
    rw [hdefined]
    rfl
  | some order =>
    rw [h, isSome_some, isSome_iff_exists] at hdefined
    obtain ⟨order', h'⟩ := hdefined
    have hswap := sortCmp_swap hk hl
    rw [sortCmp_of_predicateCmp h, sortCmp_of_predicateCmp h'] at hswap
    rw [h', hswap]
    rfl

theorem eq_iff_of_predicateCmp (hk : k.Canonical) (hl : l.Canonical) {answer : Bool}
    (h : (k.predicateCmp l).map (· == .eq) = some answer) : answer = true ↔ k = l := by
  obtain ⟨order, horder, rfl⟩ := map_eq_some_iff.1 h
  rw [beq_iff_eq, ← sortCmp_of_predicateCmp horder, sortCmp_eq_iff hk hl]

end NumericKey

namespace Value

theorem canonical_of_proper {v : Value} (h : v.proper = true) {key : NumericKey}
    (hkey : of v = some key) : key.Canonical :=
  canonical_of_inRange (inRange_of_proper h) hkey

/-! ## Symmetry -/

theorem zipWith_comm_of {α : Type} {f : α → α → Option Bool} {x y : List α}
    (h : ∀ a ∈ x, ∀ b ∈ y, f a b = f b a) : List.zipWith f x y = List.zipWith f y x := by
  induction x generalizing y with
  | nil => cases y <;> rfl
  | cons a x ih =>
    cases y with
    | nil => rfl
    | cons b y =>
      rw [zipWith_cons_cons, zipWith_cons_cons, h a mem_cons_self b mem_cons_self,
        ih fun a ha b hb => h a (mem_cons_of_mem _ ha) b (mem_cons_of_mem _ hb)]

theorem gqlCompare_comm (h : gqlEqualNonNull a b = gqlEqualNonNull b a) :
    gqlCompare a b = gqlCompare b a := by
  by_cases ha : a = null
  · rw [ha, gqlCompare_null_left, gqlCompare_null_right]
  · by_cases hb : b = null
    · rw [hb, gqlCompare_null_left, gqlCompare_null_right]
    · have hka : a.kind ≠ .null := fun hnull => ha (kind_eq_null hnull)
      have hkb : b.kind ≠ .null := fun hnull => hb (kind_eq_null hnull)
      rw [gqlCompare_eq hka hkb, gqlCompare_eq hkb hka, h]

theorem false_mem_fieldCompare
    (h : ¬ ∀ p ∈ x, p.1 ∈ y.map Prod.fst) : some false ∈ x.map (fieldCompare y) := by
  simp only [not_forall] at h
  obtain ⟨p, hp, hmissing⟩ := h
  refine List.mem_map.2 ⟨p, hp, ?_⟩
  rw [fieldCompare, Assoc.lookup_eq_none_iff.2 hmissing]

theorem mem_fieldCompare (hy : (y.map Prod.fst).Nodup)
    (hall : ∀ p ∈ x, p.1 ∈ y.map Prod.fst) {answer : Option Bool} :
    answer ∈ x.map (fieldCompare y) ↔
      ∃ p ∈ x, ∃ q ∈ y, p.1 = q.1 ∧ gqlCompare p.2 q.2 = answer := by
  rw [List.mem_map]
  refine exists_congr fun p => and_congr_right fun hp => ?_
  obtain ⟨q, hq, hname⟩ := List.mem_map.1 (hall p hp)
  have hlookup : y.lookup p.1 = some q.2 := (Assoc.lookup_eq_some_iff hy).2 (hname ▸ hq)
  have hfield : fieldCompare y p = gqlCompare p.2 q.2 := by rw [fieldCompare, hlookup]
  rw [hfield]
  constructor
  · intro h
    exact ⟨q, hq, hname.symm, h⟩
  · rintro ⟨r, hr, hrname, h⟩
    rwa [Assoc.eq_of_key_eq hy hq hr (hname.trans hrname)]

/-- Records of one length agree on the missing fields: a name only one has, has a counterpart. -/
theorem conj_fields_comm (hx : (x.map Prod.fst).Nodup)
    (hy : (y.map Prod.fst).Nodup) (hlen : x.length = y.length)
    (h : ∀ p ∈ x, ∀ q ∈ y, gqlCompare p.2 q.2 = gqlCompare q.2 p.2) :
    conj (x.map (fieldCompare y)) = conj (y.map (fieldCompare x)) := by
  by_cases hall : ∀ p ∈ x, p.1 ∈ y.map Prod.fst
  · -- the same names: each answer is given from both sides
    have hback := Assoc.keys_subset_of_subset hx hlen hall
    have hanswers : ∀ answer, answer ∈ x.map (fieldCompare y) ↔ answer ∈ y.map (fieldCompare x) := by
      intro answer
      rw [mem_fieldCompare hy hall, mem_fieldCompare hx hback]
      constructor
      · rintro ⟨p, hp, q, hq, hname, rfl⟩
        exact ⟨q, hq, p, hp, hname.symm, (h p hp q hq).symm⟩
      · rintro ⟨q, hq, p, hp, hname, rfl⟩
        exact ⟨p, hp, q, hq, hname.symm, h p hp q hq⟩
    rw [conj_eq, conj_eq]
    simp only [hanswers]
  · -- a name that only one side has: the other has one too
    have hall' : ¬ ∀ q ∈ y, q.1 ∈ x.map Prod.fst :=
      fun hback => hall (Assoc.keys_subset_of_subset hy hlen.symm hback)
    rw [conj_eq_false.2 (false_mem_fieldCompare hall),
      conj_eq_false.2 (false_mem_fieldCompare hall')]

theorem zipWith_slots_comm {x y : List (Option Value)}
    (h : ∀ v ∈ x.filterMap id, ∀ w ∈ y.filterMap id, gqlCompare v w = gqlCompare w v) :
    List.zipWith slotCompare x y = List.zipWith slotCompare y x := by
  refine zipWith_comm_of fun a ha b hb => ?_
  cases a with
  | none => cases b <;> rfl
  | some a =>
    cases b with
    | none => rfl
    | some b =>
      exact h a (mem_filterMap.2 ⟨_, ha, rfl⟩) b (mem_filterMap.2 ⟨_, hb, rfl⟩)

theorem gqlEqualNonNull_comm (a : Value) : ∀ b : Value, a.proper = true → b.proper = true →
    gqlEqualNonNull a b = gqlEqualNonNull b a := by
  induction a using induction_members with
  | step a ih =>
    intro b ha hb
    by_cases hkind : a.kind = b.kind
    · have hmembers : ∀ v ∈ a.members, ∀ w ∈ b.members, gqlCompare v w = gqlCompare w v :=
        fun v hv w hw => gqlCompare_comm (ih v hv w (proper_members ha hv) (proper_members hb hw))
      have hplain : a.kind ≠ .null → equalNonNull a b = equalNonNull b a := by
        intro hnull
        have hnull' : b.kind ≠ .null := hkind ▸ hnull
        rw [Bool.eq_iff_iff, equalNonNull_iff ha hb hnull hnull', equalNonNull_iff hb ha hnull' hnull]
        exact eq_comm
      cases viewPair hkind with
      | null => rfl
      | number _ _ k l hk hl =>
        rw [gqlEqualNonNull_number hk hl, gqlEqualNonNull_number hl hk,
          predicateCmp_swap (canonical_of_proper ha hk) (canonical_of_proper hb hl),
          Option.map_map]
        congr 1
        funext order
        cases order <;> rfl
      | duration s t | path g g' s t x y =>
        rw [gqlEqualNonNull_plain (by simp) (by simp) (by simp) (.inl rfl), hplain (by simp),
          gqlEqualNonNull_plain (by simp) (by simp) (by simp) (.inl rfl)]
      | list x y =>
        have hzip : List.zipWith gqlCompare x y = List.zipWith gqlCompare y x :=
          zipWith_comm_of hmembers
        rw [gqlEqualNonNull_list, gqlEqualNonNull_list, gqlEqualList_eq, gqlEqualList_eq, hzip]
        simp only [ne_comm]
      | record x y =>
        -- fields are looked up by name, so the order of either record does not matter
        rw [gqlEqualNonNull_record, gqlEqualNonNull_record, gqlEqualFields_eq, gqlEqualFields_eq]
        by_cases hlen : x.length = y.length
        · rw [if_neg (not_not.2 hlen), if_neg (not_not.2 hlen.symm)]
          refine conj_fields_comm (nodup_of_proper ha) (nodup_of_proper hb) hlen ?_
          exact fun p hp q hq => hmembers p.2 (mem_map_of_mem hp) q.2 (mem_map_of_mem hq)
        · rw [if_pos hlen, if_pos (Ne.symm hlen)]
      | other _ _ hoa hob =>
        by_cases htyped : a.isTyped = false ∨ b.isTyped = false
        · rw [gqlEqualNonNull_plain (by simp [hoa]) (by simp [hoa]) (by simp [hoa]) htyped,
            hplain (by simp [hoa]),
            gqlEqualNonNull_plain (by simp [hoa]) (by simp [hoa]) (by simp [hoa]) htyped.symm]
        · rw [not_or, Bool.not_eq_false, Bool.not_eq_false] at htyped
          obtain ⟨s, x, rfl⟩ := eq_typed htyped.1
          obtain ⟨t, y, rfl⟩ := eq_typed htyped.2
          have hzip : List.zipWith slotCompare x y = List.zipWith slotCompare y x :=
            zipWith_slots_comm hmembers
          rw [gqlEqualNonNull_typed, gqlEqualNonNull_typed, gqlEqualSlots_eq, gqlEqualSlots_eq, hzip]
          simp only [ne_comm]
    · rw [gqlEqualNonNull_of_kind_ne hkind, gqlEqualNonNull_of_kind_ne (Ne.symm hkind)]

end Value

/-! ## Equality within a variant implies equality of keys -/

namespace NumericKey

section Fields

variable {fraction top bits : ℕ} {bias : ℤ}

theorem fields_below_sign (fraction top bits : ℕ) :
    bits / 2 ^ fraction % (top + 1) = bits % (2 ^ fraction * (top + 1)) / 2 ^ fraction ∧
      bits % 2 ^ fraction = bits % (2 ^ fraction * (top + 1)) % 2 ^ fraction :=
  ⟨(Nat.mod_mul_right_div_self _ _ _).symm, (Nat.mod_mul_right_mod _ _ _).symm⟩

theorem binary_zero (htop : 0 < top) (h : bits % (2 ^ fraction * (top + 1)) = 0) :
    binary fraction top bias bits = .finite false 0 0 0 := by
  obtain ⟨hexp, hfraction⟩ := fields_below_sign fraction top bits
  rw [h, Nat.zero_div] at hexp
  rw [h, Nat.zero_mod] at hfraction
  rw [binary, if_neg (by omega), if_pos hexp, hfraction, reduce, if_pos rfl]

theorem binary_nan (h : top * 2 ^ fraction < bits % (2 ^ fraction * (top + 1))) :
    binary fraction top bias bits = .nan := by
  obtain ⟨hexp, hfraction⟩ := fields_below_sign fraction top bits
  have hlt : bits % (2 ^ fraction * (top + 1)) < 2 ^ fraction * (top + 1) :=
    Nat.mod_lt _ (by positivity)
  have hdiv : bits % (2 ^ fraction * (top + 1)) / 2 ^ fraction = top :=
    Nat.div_eq_of_lt_le h.le (hlt.trans_eq (mul_comm _ _))
  have hsplit := Nat.div_add_mod (bits % (2 ^ fraction * (top + 1))) (2 ^ fraction)
  have hne : bits % 2 ^ fraction ≠ 0 := by
    intro hzero
    rw [← hfraction, hzero, hdiv, mul_comm] at hsplit
    omega
  rw [binary, if_pos (hexp.trans hdiv), if_neg hne]

end Fields

theorem ofFloat_congr {x y : UInt64} (h : Value.hashFloat x = Value.hashFloat y) :
    ofFloat x = ofFloat y := by
  have hmask : ∀ z : UInt64, (z &&& 0x7FFFFFFFFFFFFFFF).toNat = z.toNat % (2 ^ 52 * (0x7FF + 1)) := by
    intro z
    rw [UInt64.toNat_and]
    exact Nat.and_two_pow_sub_one_eq_mod z.toNat 63
  have hzero : ∀ z, Float64.isZero z = true → ofFloat z = .finite false 0 0 0 := by
    intro z hz
    refine binary_zero (by omega) ?_
    rw [← hmask, eq_of_beq hz]
    rfl
  have hnan : ∀ z, Float64.isNaN z = true → ofFloat z = .nan := by
    intro z hz
    refine binary_nan ?_
    have hlimit : (0x7FF0000000000000 : UInt64).toNat = 0x7FF * 2 ^ 52 := by decide
    rw [← hmask, ← hlimit, ← UInt64.lt_iff_toNat_lt]
    exact of_decide_eq_true hz
  rw [← Value.hashFloat_eq_iff, Value.eq, Bool.or_eq_true, Bool.or_eq_true, Bool.and_eq_true,
    Bool.and_eq_true, beq_iff_eq] at h
  rcases h with (rfl | h) | h
  · rfl
  · rw [hzero x h.1, hzero y h.2]
  · rw [hnan x h.1, hnan y h.2]

theorem ofFloat32_congr {x y : UInt32} (h : Value.hashFloat32 x = Value.hashFloat32 y) :
    ofFloat32 x = ofFloat32 y := by
  have hmask : ∀ z : UInt32, (z &&& 0x7FFFFFFF).toNat = z.toNat % (2 ^ 23 * (0xFF + 1)) := by
    intro z
    rw [UInt32.toNat_and]
    exact Nat.and_two_pow_sub_one_eq_mod z.toNat 31
  have hzero : ∀ z, Float32.isZero z = true → ofFloat32 z = .finite false 0 0 0 := by
    intro z hz
    refine binary_zero (by omega) ?_
    rw [← hmask, eq_of_beq hz]
    rfl
  have hnan : ∀ z, Float32.isNaN z = true → ofFloat32 z = .nan := by
    intro z hz
    refine binary_nan ?_
    have hlimit : (0x7F800000 : UInt32).toNat = 0xFF * 2 ^ 23 := by decide
    rw [← hmask, ← hlimit, ← UInt32.lt_iff_toNat_lt]
    exact of_decide_eq_true hz
  rw [← Value.hashFloat32_eq_iff, Value.eq, Value.float32Eq, Bool.or_eq_true, Bool.or_eq_true,
    Bool.and_eq_true, Bool.and_eq_true, Bool.and_eq_true, beq_iff_eq] at h
  rcases h with (h | h) | h
  · rw [h.1]
  · rw [hzero x h.1, hzero y h.2]
  · rw [hnan x h.1, hnan y h.2]

theorem of_decimal_congr {x y : Decimal} (h : x.toRat = y.toRat) :
    of (.decimal x) = of (.decimal y) := by
  obtain ⟨k, hk, hks, hkq⟩ := Value.denotes_decimal x
  obtain ⟨l, hl, hls, hlq⟩ := Value.denotes_decimal y
  have hkc := Value.canonical_of_inRange (v := .decimal x) rfl hk
  have hlc := Value.canonical_of_inRange (v := .decimal y) rfl hl
  rw [hk, hl, (hkc.eq_iff_toRat hlc hks hls).2 (by rw [hkq, hlq, h])]

end NumericKey

namespace Value

theorem normal_of_eq (a : Value) : ∀ b, eq a b = true → normal a = normal b := by
  induction a using induction_members with
  | step a ih =>
    intro b h
    have hother : a.kind = .other → a.normal = b.normal := by
      intro hoa
      rw [normal_other hoa, normal_other (kind_of_eq h ▸ hoa)]
      exact congrArg Normal.other (Quotient.sound (.inr h))
    cases same_of_eq h with
    | refl => rfl
    | float x y hs =>
      rw [normal_number rfl, normal_number rfl, ofFloat_congr ((hashFloat_eq_iff x y).1 hs)]
    | float32 x y hs =>
      rw [normal_number rfl, normal_number rfl, ofFloat32_congr ((hashFloat32_eq_iff x y).1 hs)]
    | decimal x y hs =>
      have hkeys := of_decimal_congr hs
      rw [normal_number rfl, normal_number rfl]
      exact congrArg Normal.number (Option.some.inj hkeys)
    | list x y hs =>
      have hitems : x.map normal = y.map normal :=
        map_eq_of_forall₂ (fun v hv w _ => ih v hv w) (eqList_iff.1 hs)
      simp only [normal, of, normalList_eq, hitems]
    | record x y hs =>
      have hfields : x.map (Prod.map id normal) = y.map (Prod.map id normal) := by
        refine map_eq_of_forall₂ ?_ (eqFields_iff.1 hs)
        rintro p hp q - ⟨hname, hvalue⟩
        exact Prod.ext hname (ih p.2 (mem_map_of_mem hp) q.2 hvalue)
      simp only [normal, of, normalFields_eq, hfields]
    | _ => exact hother rfl

/-! ## Known answers -/

theorem exists_of_mem_zipWith {α : Type} {R : α → α → Prop} {f : α → α → Option Bool} {x y : List α}
    {answer : Option Bool} (hR : List.Forall₂ R x y) (h : answer ∈ List.zipWith f x y) :
    ∃ a ∈ x, ∃ b ∈ y, R a b ∧ f a b = answer := by
  induction hR with
  | nil => cases h
  | cons hab _ ih =>
    rcases mem_cons.1 h with rfl | h
    · exact ⟨_, mem_cons_self, _, mem_cons_self, hab, rfl⟩
    · obtain ⟨a, ha, b, hb, h⟩ := ih h
      exact ⟨a, mem_cons_of_mem _ ha, b, mem_cons_of_mem _ hb, h⟩

theorem forall₂_of_zipWith {α : Type} {f : α → α → Option Bool} {x y : List α}
    (hlen : x.length = y.length) (h : ∀ p ∈ List.zipWith f x y, p = some true) :
    List.Forall₂ (fun a b => f a b = some true) x y := by
  induction x generalizing y with
  | nil =>
    obtain rfl : y = [] := length_eq_zero_iff.1 hlen.symm
    exact .nil
  | cons a x ih =>
    obtain ⟨b, y, rfl⟩ := exists_cons_of_length_eq_add_one hlen.symm
    rw [zipWith_cons_cons, forall_mem_cons] at h
    exact .cons h.1 (ih (by simpa using hlen) h.2)

theorem gqlCompare_some {answer : Bool} (h : gqlCompare a b = some answer) :
    a.kind ≠ .null ∧ b.kind ≠ .null ∧ gqlEqualNonNull a b = some answer := by
  have ha : a.kind ≠ .null := by
    intro hnull
    rw [kind_eq_null hnull, gqlCompare_null_left] at h
    cases h
  have hb : b.kind ≠ .null := by
    intro hnull
    rw [kind_eq_null hnull, gqlCompare_null_right] at h
    cases h
  exact ⟨ha, hb, by rwa [gqlCompare_eq ha hb] at h⟩

mutual

/-- No typed record stands in the value, at any depth. -/
def untyped : Value → Bool
  | list values => untypedList values
  | record fields => untypedFields fields
  | recordTyped _ _ => false
  | _ => true

def untypedList : List Value → Bool
  | [] => true
  | v :: values => untyped v && untypedList values

def untypedFields : List (DbString × Value) → Bool
  | [] => true
  | (_, v) :: fields => untyped v && untypedFields fields

end

theorem untyped_members {v w : Value} (h : v.untyped = true) (hw : w ∈ v.members) :
    w.untyped = true := by
  have hlist : ∀ values, untypedList values = true → ∀ w ∈ values, w.untyped = true := by
    intro values hvalues
    induction values with
    | nil => simp
    | cons v values ih =>
      rw [untypedList, Bool.and_eq_true] at hvalues
      exact forall_mem_cons.2 ⟨hvalues.1, ih hvalues.2⟩
  have hfields : ∀ fields, untypedFields fields = true → ∀ w ∈ fields.map Prod.snd, w.untyped = true := by
    intro fields hvalues
    induction fields with
    | nil => simp
    | cons field fields ih =>
      obtain ⟨name, v⟩ := field
      rw [untypedFields, Bool.and_eq_true] at hvalues
      exact forall_mem_cons.2 ⟨hvalues.1, ih hvalues.2⟩
  cases v with
  | list values =>
    rw [untyped] at h
    exact hlist values h w hw
  | record fields =>
    rw [untyped] at h
    exact hfields fields h w hw
  | recordTyped t values =>
    rw [untyped] at h
    cases h
  | _ => simp [members] at hw

section Members

variable {answer : Bool}

/-- This answer says of the members whether they are equal keys. -/
def MembersAnswer (answer : Bool) (a b : Value) : Prop :=
  ∀ v ∈ a.members, ∀ w ∈ b.members, gqlCompare v w = some answer → (answer = true ↔ v.normal = w.normal)

theorem MembersAnswer.list {x y : List Value} (h : MembersAnswer answer (list x) (list y))
    (hanswer : gqlEqualNonNull (list x) (list y) = some answer) :
    answer = true ↔ (list x).normal = (list y).normal := by
  rw [gqlEqualNonNull_list] at hanswer
  rw [normal_list, normal_list, Normal.list.injEq]
  by_cases hlen : x.length = y.length
  · rw [if_neg (not_not.2 hlen), gqlEqualList_eq] at hanswer
    cases answer with
    | true =>
      have hall := forall₂_of_zipWith hlen (conj_eq_true.1 hanswer)
      exact iff_of_true rfl (map_eq_of_forall₂ (fun v hv w hw he => (h v hv w hw he).1 rfl) hall)
    | false =>
      refine iff_of_false Bool.false_ne_true fun hitems => ?_
      obtain ⟨v, hv, w, hw, hsame, hfalse⟩ := exists_of_mem_zipWith
        (forall₂_of_map_eq (fun _ _ _ _ h => h) hitems) (conj_eq_false.1 hanswer)
      exact Bool.false_ne_true ((h v hv w hw hfalse).2 hsame)
  · rw [if_pos hlen] at hanswer
    cases hanswer
    exact iff_of_false Bool.false_ne_true fun hitems => hlen (by simpa using congrArg List.length hitems)

theorem MembersAnswer.record (h : MembersAnswer answer (record x) (record y))
    (ha : (record x).proper = true) (hb : (record y).proper = true)
    (hanswer : gqlEqualNonNull (record x) (record y) = some answer) :
    answer = true ↔ (record x).normal = (record y).normal := by
  have hx := nodup_of_proper ha
  have hy := nodup_of_proper hb
  have hwm : ∀ {n w}, y.lookup n = some w → w ∈ (Value.record y).members := fun hw =>
    List.mem_map.2 ⟨_, (Assoc.lookup_eq_some_iff hy).1 hw, rfl⟩
  rw [gqlEqualNonNull_record] at hanswer
  rw [normal_record, normal_record, Normal.record.injEq,
    sortByName_eq_iff (by rwa [Assoc.map_fst_map]), Assoc.perm_iff_lookup normal hx hy]
  by_cases hlen : x.length = y.length
  · rw [if_neg (not_not.2 hlen), gqlEqualFields_eq] at hanswer
    cases answer with
    | true =>
      rw [conj_eq_true, List.forall_mem_map] at hanswer
      refine iff_of_true rfl ⟨hlen, fun p hp => ?_⟩
      have hfield := hanswer p hp
      rw [fieldCompare] at hfield
      cases hw : y.lookup p.1 with
      | none =>
        rw [hw] at hfield
        cases hfield
      | some w =>
        rw [hw] at hfield
        exact ⟨w, rfl, (h p.2 (mem_map_of_mem hp) w (hwm hw) hfield).1 rfl⟩
    | false =>
      refine iff_of_false Bool.false_ne_true fun hfields => ?_
      obtain ⟨p, hp, hfalse⟩ := List.mem_map.1 (conj_eq_false.1 hanswer)
      obtain ⟨w, hw, hsame⟩ := hfields.2 p hp
      rw [fieldCompare, hw] at hfalse
      exact Bool.false_ne_true ((h p.2 (mem_map_of_mem hp) w (hwm hw) hfalse).2 hsame)
  · rw [if_pos hlen] at hanswer
    cases hanswer
    exact iff_of_false Bool.false_ne_true fun hfields => hlen hfields.1

theorem MembersAnswer.typed {s t : ℕ} {x y : List (Option Value)}
    (h : MembersAnswer false (recordTyped s x) (recordTyped t y)) (ha : (recordTyped s x).proper = true)
    (hanswer : gqlEqualNonNull (recordTyped s x) (recordTyped t y) = some false) :
    (recordTyped s x).normal ≠ (recordTyped t y).normal := by
  intro hnormal
  rw [normal_other rfl, normal_other rfl, Normal.other.injEq, Quotient.eq] at hnormal
  have heq : eq (recordTyped s x) (recordTyped t y) = true := by
    rcases hnormal with h | h
    · rw [← h]
      exact eq_self _ ha
    · exact h
  rw [eq, Bool.and_eq_true, beq_iff_eq, eqSlots_iff] at heq
  obtain ⟨rfl, hslots⟩ := heq
  rw [gqlEqualNonNull_typed, if_neg (by simp [hslots.length_eq]), conj_eq_false,
    gqlEqualSlots_eq] at hanswer
  obtain ⟨v, hv, w, hw, hsame, hfalse⟩ := exists_of_mem_zipWith hslots hanswer
  cases v with
  | none => cases hfalse
  | some v =>
    cases w with
    | none => cases hfalse
    | some w =>
      exact Bool.false_ne_true ((h v (mem_filterMap.2 ⟨_, hv, rfl⟩) w
        (mem_filterMap.2 ⟨_, hw, rfl⟩) hfalse).2 (normal_of_eq v w hsame))

end Members

/-- **An answer says whether the values are equal keys**; a true one from typed records need not. -/
theorem answer_iff_normal (a : Value) : ∀ (b : Value) (answer : Bool), a.proper = true → b.proper = true →
    a.kind ≠ .null → b.kind ≠ .null → (answer = true → a.untyped = true) →
    gqlEqualNonNull a b = some answer → (answer = true ↔ a.normal = b.normal) := by
  induction a using induction_members with
  | step a ih =>
    intro b answer ha hb hna hnb huntyped hanswer
    by_cases hkind : a.kind = b.kind
    · have hmembers : MembersAnswer answer a b := by
        intro v hv w hw h
        obtain ⟨hnv, hnw, h⟩ := gqlCompare_some h
        exact ih v hv w answer (proper_members ha hv) (proper_members hb hw) hnv hnw
          (fun htrue => untyped_members (huntyped htrue) hv) h
      have hplain : gqlEqualNonNull a b = some (equalNonNull a b) → (answer = true ↔ a.normal = b.normal) := by
        intro h
        rw [hanswer, Option.some.injEq] at h
        rw [h, equalNonNull_iff ha hb hna hnb]
      cases viewPair hkind with
      | null => exact absurd rfl hna
      | number _ _ k l hk hl =>
        rw [gqlEqualNonNull_number hk hl] at hanswer
        rw [normal_number hk, normal_number hl, Normal.number.injEq]
        exact eq_iff_of_predicateCmp (canonical_of_proper ha hk) (canonical_of_proper hb hl) hanswer
      | duration s t | path g g' s t x y =>
        exact hplain (gqlEqualNonNull_plain (by simp) (by simp) (by simp) (.inl rfl))
      | list x y => exact hmembers.list hanswer
      | record x y => exact hmembers.record ha hb hanswer
      | other _ _ hoa hob =>
        by_cases htyped : a.isTyped = false ∨ b.isTyped = false
        · exact hplain (gqlEqualNonNull_plain (by simp [hoa]) (by simp [hoa]) (by simp [hoa]) htyped)
        · rw [not_or, Bool.not_eq_false, Bool.not_eq_false] at htyped
          obtain ⟨s, x, rfl⟩ := eq_typed htyped.1
          obtain ⟨t, y, rfl⟩ := eq_typed htyped.2
          cases answer with
          | true => cases huntyped rfl
          | false => exact iff_of_false Bool.false_ne_true (hmembers.typed ha hanswer)
    · rw [gqlEqualNonNull_of_kind_ne hkind] at hanswer
      cases hanswer
      refine iff_of_false Bool.false_ne_true fun hnormal => hkind ?_
      rw [← kind_normal, hnormal, kind_normal]

/-- **Three-valued equality is consistent** with the equality of keys, and is Kleene's conjunction on
containers. -/
theorem three_valued_equality (a b : RuntimeValue) (ha : a.val ≠ null) (hb : b.val ≠ null) :
    gqlEqualNonNull a.val b.val = gqlEqualNonNull b.val a.val ∧
    (a.val.untyped = true → gqlEqualNonNull a.val b.val = some true →
      equalNonNull a.val b.val = true) ∧
    (gqlEqualNonNull a.val b.val = some false → equalNonNull a.val b.val = false) ∧
    (∀ x y, a.val = list x → b.val = list y → x.length = y.length →
      gqlEqualNonNull a.val b.val = conj (List.zipWith gqlCompare x y)) ∧
    (∀ x y, a.val = record x → b.val = record y → x.length = y.length →
      gqlEqualNonNull a.val b.val = conj (x.map (fieldCompare y))) ∧
    (∀ t x y, a.val = recordTyped t x → b.val = recordTyped t y → x.length = y.length →
      gqlEqualNonNull a.val b.val = conj (List.zipWith slotCompare x y)) := by
  have hna : a.val.kind ≠ .null := fun h => ha (kind_eq_null h)
  have hnb : b.val.kind ≠ .null := fun h => hb (kind_eq_null h)
  refine ⟨gqlEqualNonNull_comm a.val b.val a.2 b.2, ?_, ?_, ?_, ?_, ?_⟩
  · intro huntyped htrue
    rw [equalNonNull_iff a.2 b.2 hna hnb]
    exact (answer_iff_normal a.val b.val true a.2 b.2 hna hnb (fun _ => huntyped) htrue).1 rfl
  · intro hfalse
    rw [Bool.eq_false_iff, ne_eq, equalNonNull_iff a.2 b.2 hna hnb]
    exact mt (answer_iff_normal a.val b.val false a.2 b.2 hna hnb nofun hfalse).2 Bool.false_ne_true
  · intro x y hx hy hlen
    rw [hx, hy, gqlEqualNonNull_list, if_neg (not_not.2 hlen), gqlEqualList_eq]
  · intro x y hx hy hlen
    rw [hx, hy, gqlEqualNonNull_record, if_neg (not_not.2 hlen), gqlEqualFields_eq]
  · intro t x y hx hy hlen
    rw [hx, hy, gqlEqualNonNull_typed, if_neg (by simp [hlen]), gqlEqualSlots_eq]

/-- A list with a null against itself: unknown, and not unequal. -/
theorem three_valued_equality_unknown :
    gqlEqualNonNull (list [int 1, null]) (list [uint 1, null]) =
      conj (List.zipWith gqlCompare [int 1, null] [uint 1, null]) :=
  (three_valued_equality ⟨list [int 1, null], by simp [proper, properList, inRange]⟩
    ⟨list [uint 1, null], by simp [proper, properList, inRange]⟩ (by simp) (by simp)).2.2.2.1
      _ _ rfl rfl rfl

/-- Typed records with an integer and the same unsigned integer: true here, but different keys. -/
theorem typed_records_apart :
    gqlEqualNonNull (recordTyped 7 [some (int 1)]) (recordTyped 7 [some (uint 1)]) = some true ∧
      equalNonNull (recordTyped 7 [some (int 1)]) (recordTyped 7 [some (uint 1)]) = false := by
  have hint : of (int 1) = some (.finite false 1 0 0) := by decide
  have huint : of (uint 1) = some (.finite false 1 0 0) := by decide
  have hone : gqlCompare (int 1) (uint 1) = some true := by
    rw [gqlCompare_eq (by simp [kind_number.2 ⟨_, hint⟩]) (by simp [kind_number.2 ⟨_, huint⟩]),
      gqlEqualNonNull_number hint huint]
    decide
  refine ⟨?_, ?_⟩
  · rw [gqlEqualNonNull_typed, if_neg (by simp), gqlEqualSlots_eq, zipWith_cons_cons,
      slotCompare, hone]
    rfl
  · rw [equalNonNull_other rfl]
    simp [eq, eqSlots]

end Value

end Selene.Graph
