import Selene.Query.RuntimeKey

/-!
# Induction over the members of a value

The members of a list, a record or a typed record are smaller than it, so a property that a value
takes over from its members holds of every value (`induction_members`).
-/

namespace Selene.Graph.Value

/-- The values directly inside a value. -/
def members : Value → List Value
  | list values => values
  | record fields => fields.map Prod.snd
  | recordTyped _ values => values.filterMap id
  | _ => []

theorem sizeOf_lt_of_mem_members {v w : Value} (h : w ∈ v.members) : sizeOf w < sizeOf v := by
  cases v with
  | list values =>
    have hmem : w ∈ values := h
    have := List.sizeOf_lt_of_mem hmem
    simp only [list.sizeOf_spec]
    omega
  | record fields =>
    obtain ⟨⟨n, w⟩, hmem, rfl⟩ := List.mem_map.1 h
    have := List.sizeOf_lt_of_mem hmem
    simp only [record.sizeOf_spec, Prod.mk.sizeOf_spec] at this ⊢
    omega
  | recordTyped t values =>
    obtain ⟨slot, hmem, hslot⟩ := List.mem_filterMap.1 h
    obtain rfl : slot = some w := hslot
    have := List.sizeOf_lt_of_mem hmem
    simp only [recordTyped.sizeOf_spec, Option.some.sizeOf_spec] at this ⊢
    omega
  | _ => simp [members] at h

/-- **A property that passes from the members to the value holds of every value.** -/
theorem induction_members {P : Value → Prop} (step : ∀ v, (∀ w ∈ v.members, P w) → P v)
    (v : Value) : P v :=
  (measure (sizeOf : Value → ℕ)).wf.induction v fun v ih =>
    step v fun w hw => ih w (sizeOf_lt_of_mem_members hw)

/-! ## Members of runtime values -/

theorem properList_iff {values : List Value} :
    properList values = true ↔ ∀ v ∈ values, v.proper = true := by
  induction values with
  | nil => simp [properList]
  | cons v values ih => simp [properList, ih]

theorem properFields_iff {fields : List (DbString × Value)} :
    properFields fields = true ↔ ∀ field ∈ fields, field.2.proper = true := by
  induction fields with
  | nil => simp [properFields]
  | cons field fields ih => simp [properFields, ih]

theorem properSlots_iff {values : List (Option Value)} :
    properSlots values = true ↔ ∀ v, some v ∈ values → v.proper = true := by
  induction values with
  | nil => simp [properSlots]
  | cons slot values ih => cases slot <;> simp [properSlots, ih]

theorem nodup_of_proper {fields : List (DbString × Value)} (h : (record fields).proper = true) :
    (fields.map Prod.fst).Nodup := by
  rw [proper, Bool.and_eq_true, decide_eq_true_eq] at h
  exact h.1

theorem proper_members {v w : Value} (h : v.proper = true) (hw : w ∈ v.members) :
    w.proper = true := by
  cases v with
  | list values =>
    rw [proper, properList_iff] at h
    exact h w hw
  | record fields =>
    obtain ⟨field, hmem, rfl⟩ := List.mem_map.1 hw
    rw [proper, Bool.and_eq_true, properFields_iff] at h
    exact h.2 field hmem
  | recordTyped t values =>
    obtain ⟨slot, hmem, hslot⟩ := List.mem_filterMap.1 hw
    obtain rfl : slot = some w := hslot
    rw [proper, properSlots_iff] at h
    exact h w hmem
  | _ => simp [members] at hw

theorem inRange_of_proper {v : Value} (h : v.proper = true) : v.inRange = true := by
  cases v <;> first | rfl | (simpa [proper] using h)

end Selene.Graph.Value
