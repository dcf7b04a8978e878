import Mathlib.Data.String.Basic
import Selene.Base.Assoc
import Selene.Proof.StrictEquality

/-!
# Normal forms of values

`equal_non_null` identifies numbers of all representations, durations of one order key, paths that
differ in the directions of their edges and records that differ in the order of their fields. A
value's normal form forgets just that: two runtime values are equal keys exactly when their normal
forms are the same (`keyEqual_iff`). So equality of keys is an equivalence, and rows are grouped by
the normal forms of their key values.
-/

namespace Selene.Graph

open Value List Option NumericKey

/-- Values that `==` identifies. -/
def strictSetoid : Setoid Value where
  r a b := a = b ∨ Value.eq a b = true
  iseqv := by
    refine ⟨fun a => .inl rfl, ?_, ?_⟩
    · rintro a b (rfl | h)
      · exact .inl rfl
      · exact .inr (eq_symm a b h)
    · rintro a b c (rfl | h) (rfl | h')
      · exact .inl rfl
      · exact .inr h'
      · exact .inr h
      · exact .inr (eq_trans a b c h h')

inductive Normal where
  | null
  | number (key : NumericKey)
  | duration (key : ℤ × ℤ)
  | path (graph : ℕ) (start : NodeId) (segments : List (EdgeId × NodeId))
  | list (items : List Normal)
  | record (fields : List (DbString × Normal))
  | other (form : Quotient strictSetoid)

namespace Value

mutual

def normal (v : Value) : Normal :=
  match of v with
  | some key => .number key
  | none =>
    match v with
    | null => .null
    | duration s => .duration s.orderKey
    | path graph start segments => .path graph start (segments.map fun s => (s.1, s.2.2))
    | list values => .list (normalList values)
    | record fields => .record (sortByName (normalFields fields))
    | v => .other (Quotient.mk strictSetoid v)

def normalList : List Value → List Normal
  | [] => []
  | v :: values => normal v :: normalList values

def normalFields : List (DbString × Value) → List (DbString × Normal)
  | [] => []
  | (name, v) :: fields => (name, normal v) :: normalFields fields

end

theorem normalList_eq (values : List Value) : normalList values = values.map normal := by
  induction values with
  | nil => simp [normalList]
  | cons v values ih => simp [normalList, ih]

theorem normalFields_eq (fields : List (DbString × Value)) :
    normalFields fields = fields.map (Prod.map id normal) := by
  induction fields with
  | nil => simp [normalFields]
  | cons field fields ih =>
    obtain ⟨name, v⟩ := field
    simp [normalFields, ih]

/-! ## Kinds -/

/-- How `equal_non_null` looks at a value. -/
inductive Kind where
  | null
  | number
  | duration
  | path
  | list
  | record
  | other
deriving DecidableEq

def kind (v : Value) : Kind :=
  if (of v).isSome then .number
  else match v with
    | null => .null
    | duration _ => .duration
    | path _ _ _ => .path
    | list _ => .list
    | record _ => .record
    | _ => .other

@[simp] theorem kind_null : null.kind = .null := rfl

@[simp] theorem kind_duration (s : Span) : (duration s).kind = .duration := rfl

@[simp] theorem kind_path (g : ℕ) (s : NodeId) (x : List (EdgeId × EdgeDirection × NodeId)) :
    (path g s x).kind = .path := rfl

@[simp] theorem kind_list (x : List Value) : (list x).kind = .list := rfl

@[simp] theorem kind_record (x : List (DbString × Value)) : (record x).kind = .record := rfl

variable {a b : Value}

theorem kind_of_eq (h : eq a b = true) : a.kind = b.kind := by
  cases same_of_eq h with
  | refl => rfl
  | _ => simp only [kind, of, isSome_some, isSome_none, if_true, Bool.false_eq_true, if_false]

theorem kind_number {v : Value} : v.kind = .number ↔ ∃ key, of v = some key := by
  rw [← isSome_iff_exists]
  unfold kind
  split_ifs with h
  · exact iff_of_true rfl h
  · refine iff_of_false ?_ h
    split <;> simp

theorem of_eq_none {v : Value} (h : v.kind ≠ .number) : of v = none := by
  rcases hkey : of v with _ | k
  · rfl
  · exact absurd (kind_number.2 ⟨k, hkey⟩) h

/-- A value by its kind. -/
inductive View : Value → Prop
  | null : View null
  | number (v : Value) (key : NumericKey) (h : of v = some key) : View v
  | duration (s : Span) : View (duration s)
  | path (graph : ℕ) (start : NodeId) (segments : List (EdgeId × EdgeDirection × NodeId)) :
      View (path graph start segments)
  | list (values : List Value) : View (list values)
  | record (fields : List (DbString × Value)) : View (record fields)
  | other (v : Value) (h : v.kind = .other) : View v

theorem view (v : Value) : View v := by
  rcases hkey : of v with _ | key
  · cases v <;> first
      | exact .null
      | exact .duration _
      | exact .path _ _ _
      | exact .list _
      | exact .record _
      | exact .other _ (by simp only [kind, hkey, isSome_none, Bool.false_eq_true, if_false])
  · exact .number v key hkey

theorem kind_eq_null {v : Value} (h : v.kind = .null) : v = null := by
  cases view v with
  | null => rfl
  | number v key hkey => rw [kind_number.2 ⟨key, hkey⟩] at h; cases h
  | other v hother => rw [hother] at h; cases h
  | _ => cases h

/-- Two values of one kind. -/
inductive ViewPair : Value → Value → Prop
  | null : ViewPair null null
  | number (a b : Value) (k l : NumericKey) (ha : of a = some k)
      (hb : of b = some l) : ViewPair a b
  | duration (s t : Span) : ViewPair (duration s) (duration t)
  | path (g h : ℕ) (s t : NodeId) (x y : List (EdgeId × EdgeDirection × NodeId)) :
      ViewPair (path g s x) (path h t y)
  | list (x y : List Value) : ViewPair (list x) (list y)
  | record (x y : List (DbString × Value)) : ViewPair (record x) (record y)
  | other (a b : Value) (ha : a.kind = .other) (hb : b.kind = .other) : ViewPair a b

theorem viewPair (h : a.kind = b.kind) : ViewPair a b := by
  cases view b with
  | number b l hb =>
    obtain ⟨k, ha⟩ := kind_number.1 (h.trans (kind_number.2 ⟨l, hb⟩))
    exact .number a b k l ha hb
  | other b hb => exact .other a b (h.trans hb) hb
  | _ =>
    -- the remaining kinds have one constructor each
    cases view a with
    | number a k ha => rw [kind_number.2 ⟨k, ha⟩] at h; cases h
    | other a ha => rw [ha] at h; cases h
    | _ =>
      first
        | (cases h; done)
        | exact .null | exact .duration .. | exact .path .. | exact .list .. | exact .record ..

/-! ## Equality of keys -/

/-- `runtime_values_equal`, and `value_key_equal` inside containers. -/
def keyEqual (a b : Value) : Bool := valueKeyEqual (equalNonNull a b) a b

theorem equalList_iff {x y : List Value} (h : x.length = y.length) :
    equalList x y = true ↔ List.Forall₂ (fun a b => keyEqual a b = true) x y := by
  induction x generalizing y with
  | nil =>
    obtain rfl : y = [] := length_eq_zero_iff.1 h.symm
    simp [equalList]
  | cons a x ih =>
    obtain ⟨b, y, rfl⟩ := exists_cons_of_length_eq_add_one h.symm
    simp [equalList, keyEqual, ih (by simpa using h)]

theorem equalFields_iff {x y : List (DbString × Value)} :
    equalFields x y = true ↔ ∀ p ∈ x, ∃ w, y.lookup p.1 = some w ∧ keyEqual p.2 w = true := by
  induction x with
  | nil => simp [equalFields]
  | cons p x ih =>
    obtain ⟨name, a⟩ := p
    rw [equalFields, Bool.and_eq_true, ih, forall_mem_cons]
    cases hw : y.lookup name with
    | none => simp
    | some w => simp [keyEqual]

theorem equalNonNull_number {k l : NumericKey} (ha : of a = some k)
    (hb : of b = some l) : equalNonNull a b = (k == l) := by
  rw [equalNonNull.eq_def]
  simp only [ha, hb]

theorem kind_of_equalNonNull (h : equalNonNull a b = true) : a.kind = b.kind := by
  rw [equalNonNull.eq_def] at h
  split at h
  · next k l ha hb => rw [kind_number.2 ⟨k, ha⟩, kind_number.2 ⟨l, hb⟩]
  · split at h
    · rfl
    · rfl
    · rfl
    · rfl
    · exact kind_of_eq h

theorem equalNonNull_other (ha : a.kind = .other) : equalNonNull a b = eq a b := by
  have hkey : of a = none := of_eq_none (by rw [ha]; decide)
  rw [equalNonNull.eq_def]
  simp only [hkey]
  cases a <;> first
    | rfl
    | (simp only [kind, of, isSome_none, Bool.false_eq_true, if_false] at ha
       exact absurd ha (by decide))

theorem keyEqual_eq (ha : a.kind ≠ .null) (hb : b.kind ≠ .null) :
    keyEqual a b = equalNonNull a b := by
  rw [keyEqual, valueKeyEqual.eq_def]
  split
  · exact absurd rfl ha
  · exact absurd rfl ha
  · exact absurd rfl hb
  · rfl

theorem kind_of_keyEqual (h : keyEqual a b = true) : a.kind = b.kind := by
  rw [keyEqual, valueKeyEqual.eq_def] at h
  split at h
  · rfl
  · cases h
  · cases h
  · exact kind_of_equalNonNull h

/-! ## Normal forms by kind -/

theorem normal_list (x : List Value) : (list x).normal = .list (x.map normal) := by
  simp only [normal, of, normalList_eq]

theorem normal_record (x : List (DbString × Value)) :
    (record x).normal = .record (sortByName (x.map (Prod.map id normal))) := by
  simp only [normal, of, normalFields_eq]

theorem normal_number {v : Value} {key : NumericKey} (h : of v = some key) :
    v.normal = .number key := by
  rw [normal.eq_def]
  simp only [h]

theorem normal_other {v : Value} (h : v.kind = .other) :
    v.normal = .other (Quotient.mk strictSetoid v) := by
  have hkey : of v = none := of_eq_none (by rw [h]; decide)
  rw [normal.eq_def]
  simp only [hkey]
  cases v <;> first
    | rfl
    | (simp only [kind, of, isSome_none, Bool.false_eq_true, if_false] at h
       exact absurd h (by decide))

end Value

/-- The kind of the values of a normal form. -/
def Normal.kind : Normal → Value.Kind
  | null => .null
  | number _ => .number
  | duration _ => .duration
  | path _ _ _ => .path
  | list _ => .list
  | record _ => .record
  | other _ => .other

namespace Value

theorem kind_normal (v : Value) : v.normal.kind = v.kind := by
  cases view v with
  | number v key h => rw [normal_number h, kind_number.2 ⟨key, h⟩]; rfl
  | other v h => rw [normal_other h, h]; rfl
  | _ => simp [normal, of, kind, Normal.kind]

theorem pathCompare_eq_iff {g h : ℕ} {s t : NodeId} {x y : List (EdgeId × EdgeDirection × NodeId)} :
    pathCompare g s x h t y = .eq ↔
      g = h ∧ s = t ∧ (x.map fun p => (p.1, p.2.2)) = y.map fun p => (p.1, p.2.2) := by
  have hsegments : (List.zipWith (fun p q => (compare p.1 q.1).then (compare p.2.2 q.2.2)) x y).foldr
      Ordering.then (compare x.length y.length) = .eq ↔
      (x.map fun p => (p.1, p.2.2)) = y.map fun p => (p.1, p.2.2) := by
    induction x generalizing y with
    | nil => cases y <;> simp
    | cons p x ih =>
      cases y with
      | nil => simp
      | cons q y =>
        have hlen : compare (p :: x).length (q :: y).length = compare x.length y.length := by
          simp [Nat.compare_eq_ite_lt]
        simp only [zipWith_cons_cons, foldr_cons, Ordering.then_eq_eq, hlen, ih,
          map_cons, List.cons.injEq, Prod.mk.injEq, Nat.compare_eq_eq]
  simp only [pathCompare, Ordering.then_eq_eq, hsegments, Nat.compare_eq_eq]

theorem sortByName_eq_iff {α : Type} {x y : List (DbString × α)} (hx : (x.map Prod.fst).Nodup) :
    sortByName x = sortByName y ↔ x.Perm y := by
  refine Assoc.sort_eq_iff (fun a b : DbString => decide (a ≤ b)) ?_ ?_ ?_ hx
  · intro a b c hab hbc
    exact decide_eq_true ((of_decide_eq_true hab).trans (of_decide_eq_true hbc))
  · intro a b
    rw [Bool.or_eq_true, decide_eq_true_eq, decide_eq_true_eq]
    exact le_total a b
  · intro a b hab hba
    exact le_antisymm (of_decide_eq_true hab) (of_decide_eq_true hba)

section Maps

variable {α β : Type} {R : α → α → Prop} {f : α → β} {x y : List α}

theorem map_eq_of_forall₂ (hf : ∀ a ∈ x, ∀ b ∈ y, R a b → f a = f b) (h : List.Forall₂ R x y) :
    x.map f = y.map f := by
  induction h with
  | nil => rfl
  | cons hab _ ih =>
    rw [map_cons, map_cons, hf _ mem_cons_self _ mem_cons_self hab,
      ih fun a ha b hb => hf a (mem_cons_of_mem _ ha) b (mem_cons_of_mem _ hb)]

theorem forall₂_of_map_eq (hf : ∀ a ∈ x, ∀ b ∈ y, f a = f b → R a b) (h : x.map f = y.map f) :
    List.Forall₂ R x y := by
  induction x generalizing y with
  | nil =>
    obtain rfl : y = [] := map_eq_nil_iff.1 h.symm
    exact .nil
  | cons a x ih =>
    cases y with
    | nil => simp at h
    | cons b y =>
      rw [map_cons, map_cons, List.cons.injEq] at h
      refine .cons (hf a mem_cons_self b mem_cons_self h.1) (ih ?_ h.2)
      exact fun a ha b hb => hf a (mem_cons_of_mem _ ha) b (mem_cons_of_mem _ hb)

theorem map_eq_of_map_eq {γ : Type} {g : α → γ}
    (hg : ∀ a ∈ x, ∀ b ∈ y, f a = f b → g a = g b) (h : x.map f = y.map f) : x.map g = y.map g :=
  map_eq_of_forall₂ (fun _ _ _ _ hab => hab) (forall₂_of_map_eq hg h)

end Maps

/-- **Two runtime values are equal keys exactly when they have one normal form.** -/
theorem keyEqual_iff (a : Value) : ∀ b, a.proper = true → b.proper = true →
    (keyEqual a b = true ↔ a.normal = b.normal) := by
  induction a using induction_members with
  | step a ih =>
    intro b ha hb
    by_cases hkind : a.kind = b.kind
    · cases viewPair hkind with
      | null => exact iff_of_true rfl rfl
      | number _ _ k l hk hl =>
        have hka := kind_number.2 ⟨k, hk⟩
        have hkb := kind_number.2 ⟨l, hl⟩
        rw [keyEqual_eq (by simp [hka]) (by simp [hkb]), equalNonNull_number hk hl,
          normal_number hk, normal_number hl, beq_iff_eq, Normal.number.injEq]
      | duration s t =>
        rw [keyEqual_eq (by simp) (by simp)]
        simp [equalNonNull, of, normal]
      | path g h s t x y =>
        rw [keyEqual_eq (by simp) (by simp)]
        simp [equalNonNull, of, normal, pathCompare_eq_iff]
      | list x y =>
        rw [keyEqual_eq (by simp) (by simp)]
        simp only [equalNonNull, of, normal, Bool.and_eq_true, beq_iff_eq,
          Normal.list.injEq, normalList_eq]
        have hmembers : ∀ v ∈ x, ∀ w ∈ y, keyEqual v w = true ↔ v.normal = w.normal :=
          fun v hv w hw => ih v hv w (proper_members ha hv) (proper_members hb hw)
        constructor
        · rintro ⟨hlen, h⟩
          rw [equalList_iff hlen] at h
          exact map_eq_of_forall₂ (fun v hv w hw => (hmembers v hv w hw).1) h
        · intro h
          have hlen : x.length = y.length := by simpa using congrArg List.length h
          refine ⟨hlen, (equalList_iff hlen).2 (forall₂_of_map_eq ?_ h)⟩
          exact fun v hv w hw => (hmembers v hv w hw).2
      | record x y =>
        have hx := nodup_of_proper ha
        have hy := nodup_of_proper hb
        rw [keyEqual_eq (by simp) (by simp)]
        simp only [equalNonNull, of, normal, Bool.and_eq_true, beq_iff_eq,
          Normal.record.injEq, normalFields_eq]
        rw [sortByName_eq_iff (by rwa [Assoc.map_fst_map]), Assoc.perm_iff_lookup normal hx hy,
          equalFields_iff]
        -- both sides look up each field of the first record in the second
        refine and_congr_right fun _ => forall₂_congr fun p hp => exists_congr fun w => ?_
        refine and_congr_right fun hw => ?_
        have hmem := (Assoc.lookup_eq_some_iff hy).1 hw
        have hpm : p.2 ∈ (record x).members := mem_map_of_mem hp
        have hwm : w ∈ (record y).members := mem_map.2 ⟨_, hmem, rfl⟩
        exact ih p.2 hpm w (proper_members ha hpm) (proper_members hb hwm)
      | other _ _ hoa hob =>
        rw [keyEqual_eq (by simp [hoa]) (by simp [hob]), equalNonNull_other hoa,
          normal_other hoa, normal_other hob, Normal.other.injEq, Quotient.eq]
        refine ⟨.inr, ?_⟩
        rintro (rfl | h)
        · exact eq_self a ha
        · exact h
    · refine iff_of_false (fun h => hkind (kind_of_keyEqual h)) (fun h => hkind ?_)
      rw [← kind_normal, h, kind_normal]

theorem equalNonNull_iff {a b : Value} (ha : a.proper = true) (hb : b.proper = true)
    (hna : a.kind ≠ .null) (hnb : b.kind ≠ .null) :
    equalNonNull a b = true ↔ a.normal = b.normal := by
  rw [← keyEqual_eq hna hnb, keyEqual_iff a b ha hb]

end Value

end Selene.Graph
