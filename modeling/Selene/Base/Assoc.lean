import Mathlib.Data.List.Nodup
import Mathlib.Data.List.Perm.Subperm

/-!
# Association lists with distinct keys

A lookup finds what is there (`lookup_eq_some_iff`). Sorted by their keys, two lists are the same
exactly when one is a permutation of the other (`sort_eq_iff`), which is to say that each entry of the
first has its counterpart in the second and the lengths agree (`perm_iff_lookup`).
-/

namespace Selene.Assoc

open Prod List

variable {κ α β : Type}

section Lookup

variable [DecidableEq κ]

theorem lookup_eq_some_iff {x : List (κ × α)} (hx : (x.map Prod.fst).Nodup) {k : κ} {v : α} :
    x.lookup k = some v ↔ (k, v) ∈ x := by
  induction x with
  | nil => simp
  | cons p x ih =>
    rw [map_cons, nodup_cons] at hx
    obtain ⟨n, a⟩ := p
    rw [lookup_cons]
    by_cases hk : k = n
    · subst hk
      have hnot : (k, v) ∉ x := fun hmem => hx.1 (mem_map.2 ⟨(k, v), hmem, rfl⟩)
      simp [hnot, eq_comm]
    · have hbeq : (k == n) = false := by simpa using hk
      simp [hbeq, ih hx.2, hk]

theorem lookup_eq_none_iff {x : List (κ × α)} {k : κ} : x.lookup k = none ↔ k ∉ x.map Prod.fst := by
  induction x with
  | nil => simp
  | cons p x ih =>
    obtain ⟨n, a⟩ := p
    rw [lookup_cons]
    by_cases hk : k = n
    · simp [hk]
    · have hbeq : (k == n) = false := by simpa using hk
      simp [hbeq, ih, hk]

end Lookup

theorem eq_of_key_eq {x : List (κ × α)} (hx : (x.map Prod.fst).Nodup) {p q : κ × α} (hp : p ∈ x)
    (hq : q ∈ x) (h : p.1 = q.1) : p = q :=
  inj_on_of_nodup_map hx hp hq h

theorem keys_subset_of_subset {x : List (κ × α)} {y : List (κ × β)} (hx : (x.map Prod.fst).Nodup)
    (hlen : x.length = y.length) (h : ∀ p ∈ x, p.1 ∈ y.map Prod.fst) :
    ∀ q ∈ y, q.1 ∈ x.map Prod.fst := by
  have hsubset : x.map Prod.fst ⊆ y.map Prod.fst := by
    intro k hk
    obtain ⟨p, hp, rfl⟩ := mem_map.1 hk
    exact h p hp
  have hperm := (hx.subperm hsubset).perm_of_length_le (by simp [hlen])
  exact fun q hq => hperm.symm.subset (mem_map_of_mem hq)

theorem map_fst_map (f : α → β) (x : List (κ × α)) :
    (x.map (Prod.map id f)).map Prod.fst = x.map Prod.fst := by
  rw [List.map_map]
  rfl

theorem perm_iff_lookup [DecidableEq κ] (f : α → β) {x y : List (κ × α)}
    (hx : (x.map Prod.fst).Nodup) (hy : (y.map Prod.fst).Nodup) :
    (x.map (Prod.map id f)).Perm (y.map (Prod.map id f)) ↔
      x.length = y.length ∧ ∀ p ∈ x, ∃ w, y.lookup p.1 = some w ∧ f p.2 = f w := by
  constructor
  · intro h
    refine ⟨by simpa using h.length_eq, fun p hp => ?_⟩
    obtain ⟨q, hq, hqp⟩ := mem_map.1 (h.subset (mem_map_of_mem (f := Prod.map id f) hp))
    obtain ⟨hname, hvalue⟩ : q.1 = p.1 ∧ f q.2 = f p.2 := mk.inj hqp
    exact ⟨q.2, (lookup_eq_some_iff hy).2 (hname ▸ hq), hvalue.symm⟩
  · rintro ⟨hlen, h⟩
    have hnodup : (x.map (Prod.map id f)).Nodup := by
      apply List.Nodup.of_map Prod.fst
      rwa [map_fst_map]
    have hsubset : x.map (Prod.map id f) ⊆ y.map (Prod.map id f) := by
      intro r hr
      obtain ⟨p, hp, rfl⟩ := mem_map.1 hr
      obtain ⟨w, hw, hf⟩ := h p hp
      refine mem_map.2 ⟨(p.1, w), (lookup_eq_some_iff hy).1 hw, ?_⟩
      exact Prod.ext rfl hf.symm
    exact (hnodup.subperm hsubset).perm_of_length_le (by simp [hlen])

section Sorted

variable (le : κ → κ → Bool) (htrans : ∀ a b c, le a b = true → le b c = true → le a c = true)
  (htotal : ∀ a b, (le a b || le b a) = true) (hanti : ∀ a b, le a b = true → le b a = true → a = b)

include htrans htotal hanti in
theorem sort_eq_iff {x y : List (κ × α)} (hx : (x.map Prod.fst).Nodup) :
    (x.mergeSort fun a b => le a.1 b.1) = (y.mergeSort fun a b => le a.1 b.1) ↔ x.Perm y := by
  have hpx := x.mergeSort_perm fun a b => le a.1 b.1
  have hpy := y.mergeSort_perm fun a b => le a.1 b.1
  constructor
  · intro h
    rw [h] at hpx
    exact hpx.symm.trans hpy
  · intro h
    refine List.Perm.eq_of_pairwise ?_ (pairwise_mergeSort (fun a b c => htrans a.1 b.1 c.1)
      (fun a b => htotal a.1 b.1) x) (pairwise_mergeSort (fun a b c => htrans a.1 b.1 c.1)
      (fun a b => htotal a.1 b.1) y) (hpx.trans (h.trans hpy.symm))
    intro a b ha hb hab hba
    exact eq_of_key_eq hx (hpx.subset ha) (h.symm.subset (hpy.subset hb)) (hanti _ _ hab hba)

end Sorted

end Selene.Assoc
