import Mathlib.Data.List.Perm.Basic

/-!
# Three truth values

`none` is unknown. A conjunction is false when a part is false, else unknown when a part is, else true
(`conj_eq`).
-/

namespace Selene.Kleene

/-- Kleene's conjunction. -/
def and : Option Bool → Option Bool → Option Bool
  | some false, _ | _, some false => some false
  | some true, some true => some true
  | _, _ => none

def conj (parts : List (Option Bool)) : Option Bool := parts.foldr and (some true)

variable {parts : List (Option Bool)}

theorem and_eq_false {a b : Option Bool} : and a b = some false ↔ a = some false ∨ b = some false := by
  rcases a with _ | _ | _ <;> rcases b with _ | _ | _ <;> simp [and]

theorem and_eq_true {a b : Option Bool} : and a b = some true ↔ a = some true ∧ b = some true := by
  rcases a with _ | _ | _ <;> rcases b with _ | _ | _ <;> simp [and]

theorem conj_eq_false : conj parts = some false ↔ some false ∈ parts := by
  induction parts with
  | nil => simp [conj]
  | cons p parts ih =>
    rw [conj, List.foldr_cons, and_eq_false, List.mem_cons, ← ih, conj, eq_comm]

theorem conj_eq_true : conj parts = some true ↔ ∀ p ∈ parts, p = some true := by
  induction parts with
  | nil => simp [conj]
  | cons p parts ih =>
    rw [conj, List.foldr_cons, and_eq_true, List.forall_mem_cons, ← ih, conj]

theorem conj_eq_none : conj parts = none ↔ some false ∉ parts ∧ none ∈ parts := by
  rw [← conj_eq_false]
  rcases h : conj parts with _ | _ | _
  · have hfalse : conj parts ≠ some false := by simp [h]
    have htrue : ¬ ∀ p ∈ parts, p = some true := by simp [← conj_eq_true, h]
    simp only [not_forall] at htrue
    obtain ⟨p, hp, hne⟩ := htrue
    rcases p with _ | _ | _
    · simp [hp]
    · exact absurd (conj_eq_false.2 hp) hfalse
    · exact absurd rfl hne
  · simp
  · have hall := conj_eq_true.1 h
    refine iff_of_false (by simp) ?_
    rintro ⟨-, hnone⟩
    exact absurd (hall none hnone) (by simp)

theorem conj_eq (parts : List (Option Bool)) :
    conj parts = if some false ∈ parts then some false else if none ∈ parts then none else some true := by
  split_ifs with hfalse hnone
  · exact conj_eq_false.2 hfalse
  · exact conj_eq_none.2 ⟨hfalse, hnone⟩
  · refine conj_eq_true.2 fun p hp => ?_
    rcases p with _ | _ | _
    · exact absurd hp hnone
    · exact absurd hp hfalse
    · rfl

end Selene.Kleene
