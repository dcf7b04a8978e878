import Mathlib.Data.List.Sort
import Selene.Base.Assoc
import Selene.Core.Json

/-!
# Merge patches

`JsonValue::merge_patch` against RFC 7396. What the RFC says of a patched object is said member by
member (`Rfc7396`): the loop over the patch refines it, and a second application changes nothing
(`merge_patch_exact`). An object that outgrows the cap is refused.
-/

namespace Selene.Core

open List Assoc

namespace Json

variable {ν : Type}

/-- The members of an object; other values have none. -/
def members : Json ν → List (String × Json ν)
  | .object fields => fields
  | _ => []

def isNull : Json ν → Bool
  | .null => true
  | _ => false

def removeField (key : String) (fields : List (String × Json ν)) : List (String × Json ν) :=
  fields.filter fun f => f.1 ≠ key

/-- What `entry(key)` is left with. -/
def setField (key : String) (j : Json ν) (fields : List (String × Json ν)) : List (String × Json ν) :=
  insertField key j (removeField key fields)

mutual

def mergePatchValue (target : Json ν) : Json ν → Json ν
  | .object patch => .object (mergeFields target.members patch)
  | patch => patch

/-- The loop over the members of the patch. -/
def mergeFields (target : List (String × Json ν)) : List (String × Json ν) → List (String × Json ν)
  | [] => target
  | (key, value) :: patch =>
    mergeFields (if value.isNull then removeField key target
      else setField key (mergePatchValue ((target.lookup key).getD .null) value) target) patch

end

/-- What a member of the target becomes under a member of the patch, as the RFC has it. -/
def patched (merge : Json ν → Json ν → Json ν) (target : Option (Json ν)) :
    Option (Json ν) → Option (Json ν)
  | none => target
  | some value => if value.isNull then none else some (merge (target.getD .null) value)

/-- RFC 7396, section 2. -/
structure Rfc7396 (merge : Json ν → Json ν → Json ν) : Prop where
  other : ∀ target patch, (∀ fields, patch ≠ .object fields) → merge target patch = patch
  object : ∀ target fields, target.Ordered → (Json.object fields).Ordered →
    (merge target (.object fields)).Ordered ∧
    ∃ merged, merge target (.object fields) = .object merged ∧
      ∀ key, merged.lookup key = patched merge (target.members.lookup key) (fields.lookup key)

variable {key k : String} {j : Json ν} {fields target patch : List (String × Json ν)}

theorem nodup_keys (h : (Json.object fields).Ordered) : (fields.map Prod.fst).Nodup :=
  h.1.imp fun hlt => hlt.ne

theorem eq_of_lookup (h : (Json.object fields).Ordered) (h' : (Json.object target).Ordered)
    (heq : ∀ k, fields.lookup k = target.lookup k) : fields = target := by
  have hperm : fields.Perm target := by
    refine (perm_ext_iff_of_nodup (nodup_keys h).of_map (nodup_keys h').of_map).2 fun f => ?_
    rw [← lookup_eq_some_iff (nodup_keys h), heq, lookup_eq_some_iff (nodup_keys h')]
  refine hperm.eq_of_pairwise ?_ (pairwise_map.1 h.1) (pairwise_map.1 h'.1)
  exact fun a b _ _ hab hba => absurd hba hab.asymm

/-! ## One turn of the loop -/

theorem lookup_removeField :
    (removeField key fields).lookup k = if k = key then none else fields.lookup k := by
  induction fields with
  | nil => simp [removeField]
  | cons f fs ih =>
    have hcons : removeField key (f :: fs) =
        if f.1 = key then removeField key fs else f :: removeField key fs := by
      simp [removeField, filter_cons, ite_not]
    rw [hcons]
    split <;> grind

theorem lookup_insertField (h : key ∉ fields.map Prod.fst) :
    (insertField key j fields).lookup k = if k = key then some j else fields.lookup k := by
  induction fields with
  | nil => simp only [insertField, lookup_cons, lookup_nil]; grind
  | cons f fs ih =>
    rw [map_cons, mem_cons, not_or] at h
    unfold insertField
    split <;> simp only [lookup_cons, ih h.2] <;> grind

theorem notMem_removeField : key ∉ (removeField key fields).map Prod.fst := by
  simp [removeField]

theorem lookup_setField :
    (setField key j fields).lookup k = if k = key then some j else fields.lookup k := by
  rw [setField, lookup_insertField notMem_removeField, lookup_removeField]
  grind

theorem ordered_removeField (h : (Json.object fields).Ordered) :
    (Json.object (removeField key fields)).Ordered := by
  obtain ⟨hsorted, hordered⟩ := h
  refine ⟨hsorted.sublist (filter_sublist.map _), orderedFields_iff.2 fun f hf => ?_⟩
  exact orderedFields_iff.1 hordered f (mem_filter.1 hf).1

theorem ordered_setField (h : (Json.object fields).Ordered) (hj : j.Ordered) :
    (Json.object (setField key j fields)).Ordered := by
  obtain ⟨hsorted, hordered⟩ := @ordered_removeField _ key _ h
  refine ⟨insertField_sorted hsorted notMem_removeField, orderedFields_iff.2 fun f hf => ?_⟩
  rcases mem_insertField.1 hf with rfl | hf
  · exact hj
  · exact orderedFields_iff.1 hordered f hf

theorem ordered_members {target : Json ν} (h : target.Ordered) : (Json.object target.members).Ordered := by
  cases target with
  | object fields => exact h
  | _ => exact ⟨.nil, trivial⟩

theorem ordered_lookup (h : (Json.object fields).Ordered) : ((fields.lookup key).getD .null).Ordered := by
  cases hk : fields.lookup key with
  | none => exact trivial
  | some v => exact orderedFields_iff.1 h.2 _ ((lookup_eq_some_iff (nodup_keys h)).1 hk)

/-! ## Whole patches -/

theorem lookup_mergeFields (h : (patch.map Prod.fst).Nodup) :
    (mergeFields target patch).lookup k = patched mergePatchValue (target.lookup k) (patch.lookup k) := by
  induction patch generalizing target with
  | nil => rfl
  | cons f patch ih =>
    obtain ⟨key, j⟩ := f
    obtain ⟨hnew, hrest⟩ := nodup_cons.1 h
    have hturn : (if j.isNull then removeField key target else setField key
        (mergePatchValue ((target.lookup key).getD .null) j) target).lookup k =
        if k = key then patched mergePatchValue (target.lookup k) (some j) else target.lookup k := by
      rw [patched]
      split
      · exact lookup_removeField
      · rw [lookup_setField]
        grind
    rw [mergeFields, ih hrest, hturn]
    by_cases hk : k = key
    · -- no later member of the patch has this key
      subst hk
      rw [if_pos rfl, lookup_eq_none_iff.2 hnew, lookup_cons_self]
      rfl
    · rw [if_neg hk, lookup_cons, beq_false_of_ne hk]

mutual

theorem ordered_merge : ∀ {patch target : Json ν}, target.Ordered → patch.Ordered →
    (mergePatchValue target patch).Ordered
  | .object patch, _, ht, hp => @ordered_mergeFields patch _ (ordered_members ht) hp.2
  | .null, _, _, _ | .bool _, _, _, _ | .number _, _, _, _ | .string _, _, _, _ => trivial
  | .array _, _, _, hp => hp

theorem ordered_mergeFields : ∀ {patch target : List (String × Json ν)}, (Json.object target).Ordered →
    OrderedFields patch → (Json.object (mergeFields target patch)).Ordered
  | [], _, ht, _ => ht
  | (key, j) :: patch, target, ht, hp => by
    rw [mergeFields]
    refine ordered_mergeFields ?_ hp.2
    split
    · exact ordered_removeField ht
    · exact ordered_setField ht (ordered_merge (ordered_lookup ht) hp.1)

end

mutual

theorem merge_twice : ∀ {patch target : Json ν}, target.Ordered → patch.Ordered →
    mergePatchValue (mergePatchValue target patch) patch = mergePatchValue target patch
  | .object patch, target, ht, hp => by
    have hkeys := nodup_keys hp
    have hmerged := ordered_mergeFields (ordered_members ht) hp.2
    -- both objects are in key order, so their lookups decide
    refine congrArg Json.object (eq_of_lookup (ordered_mergeFields hmerged hp.2) hmerged fun k => ?_)
    show (mergeFields (mergeFields target.members patch) patch).lookup k = _
    rw [lookup_mergeFields hkeys, lookup_mergeFields hkeys]
    cases hk : patch.lookup k with
    | none => rfl
    | some v =>
      have hmem := (lookup_eq_some_iff hkeys).1 hk
      have ih := mergeFields_twice hp.2 _ hmem (@ordered_lookup _ k _ (ordered_members ht))
      simp only [patched]
      split
      · rfl
      · exact congrArg some ih
  | .null, _, _, _ | .bool _, _, _, _ | .number _, _, _, _ | .string _, _, _, _ | .array _, _, _, _ => rfl

theorem mergeFields_twice : ∀ {patch : List (String × Json ν)}, OrderedFields patch →
    ∀ f ∈ patch, ∀ {target : Json ν}, target.Ordered →
      mergePatchValue (mergePatchValue target f.2) f.2 = mergePatchValue target f.2
  | (_, j) :: patch, hp, f, hf, target, ht => by
    rcases mem_cons.1 hf with rfl | hf
    · exact @merge_twice j _ ht hp.1
    · exact mergeFields_twice hp.2 f hf ht

end

theorem rfc7396 : Rfc7396 (@mergePatchValue ν) where
  other target patch h := by
    cases patch with
    | object fields => exact absurd rfl (h fields)
    | _ => rfl
  object target fields ht hp := ⟨ordered_merge ht hp, _, rfl, fun _ => lookup_mergeFields (nodup_keys hp)⟩

end Json

namespace JsonValue

variable {ν : Type}

/-- `JsonValue::merge_patch`; `none` is the error of a value over a cap. -/
def mergePatch (document patch : JsonValue ν) : Option (JsonValue ν) :=
  if h : (document.value.mergePatchValue patch.value).validate = true then
    some ⟨_, Json.ordered_merge document.ordered patch.ordered, h⟩
  else none

/-- **Merge patches**: the result is the RFC's unless it is over a cap, and patching it again
returns it. -/
theorem merge_patch_exact :
    Json.Rfc7396 (@Json.mergePatchValue ν) ∧
    ∀ document patch : JsonValue ν,
      (∀ result, document.mergePatch patch = some result ↔
        result.value = document.value.mergePatchValue patch.value) ∧
      (document.mergePatch patch = none ↔
        (document.value.mergePatchValue patch.value).validate = false) ∧
      ∀ result, document.mergePatch patch = some result → result.mergePatch patch = some result := by
  have hsome : ∀ document patch result : JsonValue ν, document.mergePatch patch = some result ↔
      result.value = document.value.mergePatchValue patch.value := by
    intro document patch result
    obtain ⟨value, ordered, admitted⟩ := result
    unfold mergePatch
    split <;> grind
  refine ⟨Json.rfc7396, fun document patch => ⟨hsome document patch, ?_, fun result h => ?_⟩⟩
  · simp [mergePatch]
  · rw [hsome] at h ⊢
    rw [h, Json.merge_twice document.ordered patch.ordered]

/-- The last `k` binary digits of a number. -/
def digits : ℕ → ℕ → String
  | 0, _ => ""
  | k + 1, n => if 2 ^ k ≤ n then "1" ++ digits k (n - 2 ^ k) else "0" ++ digits k n

theorem digits_lt {k m n : ℕ} (h : m < n) (hn : n < 2 ^ k) : digits k m < digits k n := by
  rw [String.lt_iff]
  induction k generalizing m n with
  | zero => simp at hn; omega
  | succ k ih =>
    rw [pow_succ] at hn
    unfold digits
    split <;> split <;> rw [String.toList_append, String.toList_append]
    · exact cons_lt_cons_iff.2 (.inr ⟨rfl, ih (by omega) (by omega)⟩)
    · omega
    · exact cons_lt_cons_iff.2 (.inl (by decide))
    · exact cons_lt_cons_iff.2 (.inr ⟨rfl, ih h (by omega)⟩)

theorem utf8_digits (k n : ℕ) : (digits k n).utf8ByteSize = k := by
  induction k generalizing n with
  | zero => rfl
  | succ k ih =>
    unfold digits
    split <;> rw [String.utf8ByteSize_append, ih, Nat.add_comm] <;> rfl

/-- A key of 32 bytes for each number that `u32` holds. -/
def wideKey (n : ℕ) : String := digits 32 n

theorem wideKey_lt {m n : ℕ} (h : m < n) (hn : n ≤ maxStringBytes) : wideKey m < wideKey n :=
  digits_lt h (hn.trans_lt (by decide))

theorem utf8_wideKey (n : ℕ) : (wideKey n).utf8ByteSize ≤ maxStringBytes :=
  (utf8_digits 32 n).trans_le (by decide)

/-- An object with `size` members. -/
def wideObject (size : ℕ) (h : size ≤ maxStringBytes) : JsonValue ℕ where
  value := .object ((range size).map fun n => (wideKey n, .null))
  ordered := by
    refine ⟨?_, Json.orderedFields_iff.2 ?_⟩
    · rw [map_map, pairwise_map]
      exact pairwise_lt_range.imp_of_mem fun _ hn hlt => wideKey_lt hlt ((mem_range.1 hn).le.trans h)
    · simp [Json.Ordered]
  admitted := by
    have hfields : Json.validateFields ((range size).map fun n => (wideKey n, @Json.null ℕ)) = true := by
      refine Json.validateFields_iff.2 fun f hf => ?_
      obtain ⟨n, -, rfl⟩ := mem_map.1 hf
      exact ⟨utf8_wideKey n, rfl⟩
    simp [Json.validate, hfields, h]

theorem merge_patch_over_cap :
    ¬ ∀ document patch : JsonValue ℕ, ∃ result, document.mergePatch patch = some result := by
  obtain ⟨size, hsize⟩ : ∃ size, size = maxStringBytes := ⟨_, rfl⟩
  have hone : 1 ≤ maxStringBytes := by decide
  intro h
  -- one more member than the cap
  obtain ⟨result, hresult⟩ := h (wideObject size hsize.le) ⟨.object [(wideKey size, .bool true)],
    by simp [Json.Ordered, Json.OrderedFields],
    by simp [Json.validate, Json.validateFields, utf8_wideKey, hone]⟩
  unfold mergePatch at hresult
  split at hresult
  · next hvalid =>
    have hkeep : Json.removeField (wideKey size) ((range size).map fun n => (wideKey n, @Json.null ℕ)) = _ :=
      filter_eq_self.2 (forall_mem_map.2 fun n hn => by simpa using (wideKey_lt (mem_range.1 hn) hsize.le).ne)
    have hlast : Json.insertField (wideKey size) (.bool true)
        ((range size).map fun n => (wideKey n, @Json.null ℕ)) = _ :=
      Json.insertField_last (forall_mem_map.2 (forall_mem_map.2 fun n hn => wideKey_lt (mem_range.1 hn) hsize.le))
    simp [wideObject, Json.mergePatchValue, Json.members, Json.mergeFields, Json.isNull, Json.setField,
      hkeep, hlast, Json.validate] at hvalid
    omega
  · cases hresult

end JsonValue

end Selene.Core
