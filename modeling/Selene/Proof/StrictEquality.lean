import Selene.Proof.Members
import Selene.Proof.NumericKeys

/-!
# Equality within one variant

`Value`'s own `==` compares values of one variant. It is a partial equivalence (`eq_congr`), reflexive
on the values of an execution (`eq_self`), and equal values write the same pieces into a hasher, but
for the signs of zeros in JSON texts (`strictPayload_congr`).
-/

namespace Selene.Graph

open HashToken Graph.Float32 List

namespace Value

/-! ## One inversion for all variants -/

/-- What `==` says of two values: they are the same, or differ in what their variant does not
compare. -/
inductive Same : Value → Value → Prop
  | refl (a : Value) : Same a a
  | float (x y : UInt64) (h : eq (.float x) (.float y) = true) : Same (.float x) (.float y)
  | float32 (x y : UInt32) (h : eq (.float32 x) (.float32 y) = true) : Same (.float32 x) (.float32 y)
  | decimal (x y : Decimal) (h : x.toRat = y.toRat) : Same (.decimal x) (.decimal y)
  | zonedDateTime (x y : Zoned) (h : x.instant = y.instant) : Same (.zonedDateTime x) (.zonedDateTime y)
  | zonedTime (x y : Zoned) (h : x.instant = y.instant) : Same (.zonedTime x) (.zonedTime y)
  | vector (x y : List UInt32) (h : eq (.vector x) (.vector y) = true) : Same (.vector x) (.vector y)
  | json (x y : String) (h : jsonEq x y = true) : Same (.json x) (.json y)
  | list (x y : List Value) (h : eqList x y = true) : Same (.list x) (.list y)
  | record (x y : List (DbString × Value)) (h : eqFields x y = true) : Same (.record x) (.record y)
  | recordTyped (t : ℕ) (x y : List (Option Value)) (h : eqSlots x y = true) :
      Same (.recordTyped t x) (.recordTyped t y)

theorem same_of_eq {a b : Value} (h : eq a b = true) : Same a b := by
  have hab := h
  unfold eq at h
  split at h
  case h_6 => exact .float _ _ hab
  case h_7 => exact .float32 _ _ hab
  case h_8 => exact .decimal _ _ (eq_of_beq h)
  case h_11 => exact .list _ _ h
  case h_12 => exact .record _ _ h
  case h_13 =>
    rw [Bool.and_eq_true, beq_iff_eq] at h
    obtain ⟨rfl, h⟩ := h
    exact .recordTyped _ _ _ h
  case h_19 => exact .zonedDateTime _ _ (eq_of_beq h)
  case h_22 => exact .zonedTime _ _ (eq_of_beq h)
  case h_28 => exact .vector _ _ hab
  case h_29 => exact .json _ _ h
  case h_30 => cases h
  all_goals
    simp only [Bool.and_eq_true, beq_iff_eq] at h
    grind [Same.refl]

/-! ## Floats -/

/-- Floats by a code: one for the zeros, one for the NaNs, and of the others the bits. -/
theorem code_eq_iff {α : Type} (zero nan : α → Bool) (code : α → ℕ) (top : ℕ)
    (hcode : Function.Injective code) (hzero : ∀ x, code x = 0 → zero x = true)
    (hnan : ∀ x, code x = top → nan x = true) (hapart : ∀ x, zero x = true → nan x = false)
    (htop : top ≠ 0) (x y : α) :
    (x = y ∨ (zero x = true ∧ zero y = true) ∨ (nan x = true ∧ nan y = true)) ↔
      (if zero x then 0 else if nan x then top else code x) =
        if zero y then 0 else if nan y then top else code y := by
  have hx := hapart x
  have hy := hapart y
  have hxy := @hcode x y
  grind

theorem hashFloat_eq_iff (x y : UInt64) :
    eq (.float x) (.float y) = true ↔ hashFloat x = hashFloat y := by
  have hiff := code_eq_iff Float64.isZero Float64.isNaN UInt64.toNat (2 ^ 64 - 1)
    (fun _ _ => UInt64.toNat_inj.1) ?_ ?_ ?_ (by decide) x y
  · simp only [eq, hashFloat, Bool.or_eq_true, Bool.and_eq_true, beq_iff_eq, or_assoc]
    rw [hiff]
    split_ifs <;> simp
  · intro z hz
    obtain rfl : z = 0 := UInt64.toNat_inj.1 hz
    decide
  · intro z hz
    obtain rfl : z = 0xFFFFFFFFFFFFFFFF := UInt64.toNat_inj.1 hz
    decide
  · intro z hz
    have hbits : z &&& 0x7FFFFFFFFFFFFFFF = 0 := eq_of_beq hz
    rw [Float64.isNaN, hbits]
    decide

theorem hashFloat32_eq_iff (x y : UInt32) :
    eq (.float32 x) (.float32 y) = true ↔ hashFloat32 x = hashFloat32 y := by
  have hiff := code_eq_iff isZero isNaN UInt32.toNat (2 ^ 32 - 1)
    (fun _ _ => UInt32.toNat_inj.1) ?_ ?_ ?_ (by decide) x y
  · have hself : ((x = y ∧ isNaN x = false) ∨ (isZero x = true ∧ isZero y = true)) ∨
        (isNaN x = true ∧ isNaN y = true) ↔
        x = y ∨ (isZero x = true ∧ isZero y = true) ∨ (isNaN x = true ∧ isNaN y = true) := by grind
    simp only [eq, float32Eq, hashFloat32, Bool.or_eq_true, Bool.and_eq_true, beq_iff_eq,
      Bool.not_eq_true']
    rw [hself, hiff]
    split_ifs <;> simp
  · intro z hz
    obtain rfl : z = 0 := UInt32.toNat_inj.1 hz
    decide
  · intro z hz
    obtain rfl : z = 0xFFFFFFFF := UInt32.toNat_inj.1 hz
    decide
  · intro z hz
    have hbits : z &&& 0x7FFFFFFF = 0 := eq_of_beq hz
    rw [isNaN, hbits]
    decide

theorem float32Eq_iff (x y : UInt32) :
    float32Eq x y = true ↔ hashFloat32 x = hashFloat32 y ∧ isNaN x = false := by
  have hzero : ∀ z, isZero z = true → isNaN z = false := by
    intro z hz
    have hbits : z &&& 0x7FFFFFFF = 0 := eq_of_beq hz
    rw [isNaN, hbits]
    decide
  rw [← hashFloat32_eq_iff, eq, float32Eq]
  have hx := hzero x
  grind

theorem isNaN_of_hash {x y : UInt32} (h : hashFloat32 x = hashFloat32 y) : isNaN x = isNaN y := by
  have hself : ∀ z, isNaN z = true ↔ hashFloat32 z = .nat (2 ^ 32 - 1) := by
    intro z
    have hnan : hashFloat32 0xFFFFFFFF = .nat (2 ^ 32 - 1) := by decide
    rw [← hnan, ← hashFloat32_eq_iff, eq, float32Eq]
    have htop : isNaN 0xFFFFFFFF = true := by decide
    have hzero : isZero 0xFFFFFFFF = false := by decide
    rw [htop, hzero]
    by_cases hz : z = 0xFFFFFFFF
    · subst hz
      decide
    · simp [hz]
  rw [Bool.eq_iff_iff, hself, hself, h]

theorem eq_vector_iff (x y : List UInt32) : eq (.vector x) (.vector y) = true ↔
      x.map hashFloat32 = y.map hashFloat32 ∧ ∀ c ∈ x, isNaN c = false := by
  simp only [eq, Bool.and_eq_true, beq_iff_eq]
  induction x generalizing y with
  | nil => cases y <;> simp
  | cons a x ih =>
    cases y with
    | nil => simp
    | cons b y =>
      simp only [length_cons, Nat.add_right_cancel_iff, zip_cons_cons, all_cons,
        Bool.and_eq_true, float32Eq_iff, map_cons, List.cons.injEq, forall_mem_cons]
      have := ih y
      tauto

theorem nan_free_congr {x y : List UInt32} (hmap : x.map hashFloat32 = y.map hashFloat32)
    (h : ∀ c ∈ x, isNaN c = false) : ∀ c ∈ y, isNaN c = false := by
  intro c hc
  have hmem : hashFloat32 c ∈ x.map hashFloat32 := hmap ▸ mem_map_of_mem hc
  obtain ⟨d, hd, hsame⟩ := mem_map.1 hmem
  rw [← isNaN_of_hash hsame]
  exact h d hd

/-! ## A partial equivalence -/

theorem eqList_iff {x y : List Value} :
    eqList x y = true ↔ List.Forall₂ (fun a b => eq a b = true) x y := by
  induction x generalizing y with
  | nil => cases y <;> simp [eqList]
  | cons a x ih => cases y <;> simp [eqList, ih]

theorem eqFields_iff {x y : List (DbString × Value)} :
    eqFields x y = true ↔ List.Forall₂ (fun a b => a.1 = b.1 ∧ eq a.2 b.2 = true) x y := by
  induction x generalizing y with
  | nil => cases y <;> simp [eqFields]
  | cons a x ih =>
    obtain ⟨n, a⟩ := a
    rcases y with _ | ⟨⟨m, b⟩, y⟩ <;> simp [eqFields, ih]

/-- Slots are both empty or hold equal values. -/
def SlotsEqual : Option Value → Option Value → Prop
  | none, none => True
  | some a, some b => eq a b = true
  | _, _ => False

theorem eqSlots_iff {x y : List (Option Value)} :
    eqSlots x y = true ↔ List.Forall₂ SlotsEqual x y := by
  induction x generalizing y with
  | nil => cases y <;> simp [eqSlots]
  | cons a x ih => cases a <;> rcases y with _ | ⟨_ | b, y⟩ <;> simp [eqSlots, SlotsEqual, ih]

theorem slotsEqual_symm {a b : Option Value} (ih : ∀ v, a = some v → ∀ w, eq v w = true → eq w v = true)
    (h : SlotsEqual a b) : SlotsEqual b a := by
  cases a with
  | none => cases b with
    | none => trivial
    | some b => exact h.elim
  | some a => cases b with
    | none => exact h.elim
    | some b => exact ih a rfl b h

theorem slotsEqual_trans {a b c : Option Value}
    (ih : ∀ v, a = some v → ∀ w u, eq v w = true → eq w u = true → eq v u = true)
    (hab : SlotsEqual a b) (hbc : SlotsEqual b c) : SlotsEqual a c := by
  cases b with
  | none => cases a with
    | none => exact hbc
    | some a => exact hab.elim
  | some b => cases a with
    | none => exact hab.elim
    | some a => cases c with
      | none => exact hbc.elim
      | some c => exact ih a rfl b c hab hbc

variable {α : Type} {R : α → α → Prop}

theorem forall₂_symm {x y : List α}
    (ih : ∀ a ∈ x, ∀ b, R a b → R b a) (h : List.Forall₂ R x y) : List.Forall₂ R y x := by
  induction h with
  | nil => exact .nil
  | cons hab _ ihx =>
    rw [forall_mem_cons] at ih
    exact .cons (ih.1 _ hab) (ihx ih.2)

theorem forall₂_trans {x y z : List α}
    (ih : ∀ a ∈ x, ∀ b c, R a b → R b c → R a c) (h : List.Forall₂ R x y)
    (h' : List.Forall₂ R y z) : List.Forall₂ R x z := by
  induction h generalizing z with
  | nil => exact h'
  | cons hab _ ihx =>
    cases h' with
    | cons hbc hrest =>
      rw [forall_mem_cons] at ih
      exact .cons (ih.1 _ _ hab hbc) (ihx ih.2 hrest)

theorem eq_symm (a : Value) : ∀ b, eq a b = true → eq b a = true := by
  induction a using induction_members with
  | step a ih =>
    intro b h
    cases same_of_eq h with
    | refl => exact h
    | float x y hs =>
      rw [hashFloat_eq_iff] at hs ⊢
      exact hs.symm
    | float32 x y hs =>
      rw [hashFloat32_eq_iff] at hs ⊢
      exact hs.symm
    | decimal x y hs | zonedDateTime x y hs => simp only [eq, hs, beq_self_eq_true]
    | zonedTime x y hs => simp only [eq, hs, beq_self_eq_true]
    | vector x y hs =>
      obtain ⟨hmap, hnan⟩ := (eq_vector_iff x y).1 hs
      exact (eq_vector_iff y x).2 ⟨hmap.symm, nan_free_congr hmap hnan⟩
    | json x y hs =>
      have htexts := eq_of_beq hs
      simp only [eq, jsonEq, htexts, beq_self_eq_true]
    | list x y hs =>
      rw [eqList_iff] at hs
      rw [eq, eqList_iff]
      exact forall₂_symm ih hs
    | record x y hs =>
      rw [eqFields_iff] at hs
      rw [eq, eqFields_iff]
      refine forall₂_symm ?_ hs
      rintro p hp q ⟨hname, hvalue⟩
      exact ⟨hname.symm, ih p.2 (mem_map_of_mem hp) q.2 hvalue⟩
    | recordTyped t x y hs =>
      rw [eqSlots_iff] at hs
      rw [eq, beq_self_eq_true, Bool.true_and, eqSlots_iff]
      refine forall₂_symm ?_ hs
      intro p hp q hpq
      refine slotsEqual_symm ?_ hpq
      rintro v rfl
      exact ih v (mem_filterMap.2 ⟨some v, hp, rfl⟩)

theorem eq_trans (a : Value) : ∀ b c, eq a b = true → eq b c = true → eq a c = true := by
  induction a using induction_members with
  | step a ih =>
    intro b c h h'
    cases same_of_eq h <;> try exact h'
    all_goals cases same_of_eq h' <;> try exact h
    case float.float x y hs z hs' =>
      rw [hashFloat_eq_iff] at hs hs' ⊢
      exact hs.trans hs'
    case float32.float32 x y hs z hs' =>
      rw [hashFloat32_eq_iff] at hs hs' ⊢
      exact hs.trans hs'
    case decimal.decimal x y hs z hs' => simp only [eq, hs, hs', beq_self_eq_true]
    case zonedDateTime.zonedDateTime x y hs z hs' => simp only [eq, hs, hs', beq_self_eq_true]
    case zonedTime.zonedTime x y hs z hs' => simp only [eq, hs, hs', beq_self_eq_true]
    case vector.vector x y hs z hs' =>
      obtain ⟨hmap, hnan⟩ := (eq_vector_iff x y).1 hs
      obtain ⟨hmap', -⟩ := (eq_vector_iff y z).1 hs'
      exact (eq_vector_iff x z).2 ⟨hmap.trans hmap', hnan⟩
    case json.json x y hs z hs' =>
      have htexts := eq_of_beq hs
      have htexts' := eq_of_beq hs'
      simp only [eq, jsonEq, htexts, htexts', beq_self_eq_true]
    case list.list x y hs z hs' =>
      rw [eqList_iff] at hs hs'
      rw [eq, eqList_iff]
      exact forall₂_trans ih hs hs'
    case record.record x y hs z hs' =>
      rw [eqFields_iff] at hs hs'
      rw [eq, eqFields_iff]
      refine forall₂_trans ?_ hs hs'
      rintro p hp q r ⟨hname, hvalue⟩ ⟨hname', hvalue'⟩
      exact ⟨hname.trans hname', ih p.2 (mem_map_of_mem hp) q.2 r.2 hvalue hvalue'⟩
    case recordTyped.recordTyped t x y hs z hs' =>
      rw [eqSlots_iff] at hs hs'
      rw [eq, beq_self_eq_true, Bool.true_and, eqSlots_iff]
      refine forall₂_trans ?_ hs hs'
      intro p hp q r hpq hqr
      refine slotsEqual_trans ?_ hpq hqr
      rintro v rfl
      exact ih v (mem_filterMap.2 ⟨some v, hp, rfl⟩)

/-! ## Reflexivity on runtime values -/

theorem forall₂_refl {x : List α} (h : ∀ a ∈ x, R a a) :
    List.Forall₂ R x x := by
  induction x with
  | nil => exact .nil
  | cons a x ih =>
    rw [forall_mem_cons] at h
    exact .cons h.1 (ih h.2)

theorem isNaN_of_isFinite {bits : UInt32} (h : isFinite bits = true) : isNaN bits = false := by
  have hbits : bits.toNat < 2 ^ 32 := bits.toNat_lt
  have hexp : bits.toNat / 2 ^ 23 % 2 ^ 8 ≠ 0xFF := by simpa [isFinite] using h
  have hmask : (bits &&& 0x7FFFFFFF).toNat = bits.toNat % 2 ^ 31 := by
    rw [UInt32.toNat_and]
    exact Nat.and_two_pow_sub_one_eq_mod bits.toNat 31
  have hlimit : (0x7F800000 : UInt32).toNat = 0xFF * 2 ^ 23 := by decide
  rw [isNaN, decide_eq_false_iff_not, UInt32.lt_iff_toNat_lt, hmask, hlimit]
  omega

theorem eq_self (a : Value) (h : a.proper = true) : eq a a = true := by
  induction a using induction_members with
  | step a ih =>
    have ih : ∀ w ∈ a.members, eq w w = true := fun w hw => ih w hw (proper_members h hw)
    cases a with
    | list x =>
      rw [eq, eqList_iff]
      exact forall₂_refl ih
    | record x =>
      rw [eq, eqFields_iff]
      exact forall₂_refl fun p hp => ⟨rfl, ih p.2 (mem_map_of_mem hp)⟩
    | recordTyped t x =>
      rw [eq, beq_self_eq_true, Bool.true_and, eqSlots_iff]
      refine forall₂_refl fun p hp => ?_
      cases p with
      | none => trivial
      | some v => exact ih v (mem_filterMap.2 ⟨some v, hp, rfl⟩)
    | vector x =>
      rw [eq_vector_iff]
      refine ⟨rfl, fun c hc => ?_⟩
      rw [proper, all_eq_true] at h
      exact isNaN_of_isFinite (h c hc)
    | float x => exact (hashFloat_eq_iff x x).2 rfl
    | float32 x => exact (hashFloat32_eq_iff x x).2 rfl
    | json x => simp [eq, jsonEq]
    | _ => simp [eq]

end Value

/-! ## Hashes within one variant -/

/-- A piece without the signs of zeros in a JSON text. -/
def HashToken.unsign : HashToken → HashToken
  | .json document => .json (String.ofList (Value.unsignZeros false document.toList))
  | token => token

namespace Value

theorem variantName_of_eq {a b : Value} (h : eq a b = true) : a.variantName = b.variantName := by
  cases same_of_eq h <;> rfl

theorem strictList_congr {x y : List Value}
    (ih : ∀ v ∈ x, ∀ b, eq v b = true → (strictPayload v).map unsign = (strictPayload b).map unsign)
    (h : List.Forall₂ (fun a b => eq a b = true) x y) :
    (strictList x).map unsign = (strictList y).map unsign := by
  induction h with
  | nil => rfl
  | cons hab _ ihx =>
    rw [forall_mem_cons] at ih
    simp only [strictList, map_cons, map_append, variantName_of_eq hab, ih.1 _ hab, ihx ih.2]

theorem strictFields_congr {x y : List (DbString × Value)}
    (ih : ∀ v ∈ x.map Prod.snd, ∀ b, eq v b = true →
      (strictPayload v).map unsign = (strictPayload b).map unsign)
    (h : List.Forall₂ (fun a b => a.1 = b.1 ∧ eq a.2 b.2 = true) x y) :
    (strictFields x).map unsign = (strictFields y).map unsign := by
  induction h with
  | nil => rfl
  | cons hab _ ihx =>
    rw [map_cons, forall_mem_cons] at ih
    simp only [strictFields, map_cons, map_append, hab.1, variantName_of_eq hab.2,
      ih.1 _ hab.2, ihx ih.2]

theorem strictSlots_congr {x y : List (Option Value)}
    (ih : ∀ v ∈ x.filterMap id, ∀ b, eq v b = true →
      (strictPayload v).map unsign = (strictPayload b).map unsign)
    (h : List.Forall₂ SlotsEqual x y) :
    (strictSlots x).map unsign = (strictSlots y).map unsign := by
  induction h with
  | nil => rfl
  | cons hab _ ihx =>
    rename_i a b x y _
    cases a with
    | none =>
      cases b with
      | none => simp only [strictSlots, map_cons, ihx ih]
      | some b => exact hab.elim
    | some a =>
      cases b with
      | none => exact hab.elim
      | some b =>
        have hrest : ∀ v ∈ x.filterMap id, ∀ b, eq v b = true →
            (strictPayload v).map unsign = (strictPayload b).map unsign :=
          fun v hv => ih v (mem_cons_of_mem a hv)
        simp only [strictSlots, map_cons, map_append, variantName_of_eq hab,
          ih a mem_cons_self b hab, ihx hrest]

/-- **Equal values write the same pieces**, but for the signs of zeros in JSON texts. -/
theorem strictPayload_congr (a : Value) : ∀ b, eq a b = true →
    (strictPayload a).map unsign = (strictPayload b).map unsign := by
  induction a using induction_members with
  | step a ih =>
    intro b h
    cases same_of_eq h with
    | refl => rfl
    | float x y hs => simp only [strictPayload, (hashFloat_eq_iff x y).1 hs]
    | float32 x y hs => simp only [strictPayload, (hashFloat32_eq_iff x y).1 hs]
    | decimal x y hs | zonedDateTime x y hs | zonedTime x y hs => simp only [strictPayload, hs]
    | vector x y hs =>
      have hmap := ((eq_vector_iff x y).1 hs).1
      have hlen : x.length = y.length := by simpa using congrArg List.length hmap
      simp only [strictPayload, hmap, hlen]
    | json x y hs =>
      have htexts := eq_of_beq hs
      simp only [strictPayload, map_cons, unsign, htexts]
    | list x y hs =>
      rw [eqList_iff] at hs
      have hrest : (strictList x).map unsign = (strictList y).map unsign := strictList_congr ih hs
      simp only [strictPayload, map_cons, hs.length_eq, hrest]
    | record x y hs =>
      rw [eqFields_iff] at hs
      have hrest : (strictFields x).map unsign = (strictFields y).map unsign :=
        strictFields_congr ih hs
      simp only [strictPayload, map_cons, hs.length_eq, hrest]
    | recordTyped t x y hs =>
      rw [eqSlots_iff] at hs
      have hrest : (strictSlots x).map unsign = (strictSlots y).map unsign :=
        strictSlots_congr ih hs
      simp only [strictPayload, map_cons, hs.length_eq, hrest]

theorem strictTokens_congr {a b : Value} (h : eq a b = true) :
    a.strictTokens.map unsign = b.strictTokens.map unsign := by
  rw [strictTokens, strictTokens, map_cons, map_cons, variantName_of_eq h,
    strictPayload_congr a b h]

end Value

end Selene.Graph
