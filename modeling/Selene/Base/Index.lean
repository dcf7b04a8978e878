import Mathlib.Data.Finset.Card

/-!
# An index kept up to date row by row

An index files the rows of a table under keys. What it makes of one row is a `Keying`: the row is
not the index's business, it has a key, it drifted (it should have a key and has none), or it is
skipped. The index keeps the set of rows of every key and the number of drifted rows.

`Index.Exact ix view` says that the index files every row as `view` says. `insert` and `remove`
keep it, one row at a time, so a table and its index can be changed together without looking at
the other rows.
-/

open Function List

inductive Keying (κ : Type) where
  | absent
  | keyed (key : κ)
  | drifted
  | skipped
deriving DecidableEq

/-- Filed the same way: a skipped row leaves no more in an index than an absent one. -/
def Keying.filed {κ : Type} : Keying κ → Keying κ
  | .skipped => .absent
  | k => k

@[simp] theorem Keying.filed_absent {κ : Type} : (absent : Keying κ).filed = .absent := rfl

theorem Keying.filed_keyed {κ : Type} {k : Keying κ} {key : κ} :
    k.filed = .keyed key ↔ k = .keyed key := by
  cases k <;> simp [filed]

theorem Keying.filed_drifted {κ : Type} {k : Keying κ} : k.filed = .drifted ↔ k = .drifted := by
  cases k <;> simp [filed]

structure Index (κ : Type) where
  buckets : κ → Finset ℕ
  drifted : ℕ

namespace Index

variable {κ : Type} [DecidableEq κ]

def insert (k : Keying κ) (row : ℕ) (ix : Index κ) : Index κ :=
  match k with
  | .keyed key =>
    { ix with buckets := update ix.buckets key (Insert.insert row (ix.buckets key)) }
  | .drifted => { ix with drifted := ix.drifted + 1 }
  | .absent | .skipped => ix

def remove (k : Keying κ) (row : ℕ) (ix : Index κ) : Index κ :=
  match k with
  | .keyed key => { ix with buckets := update ix.buckets key ((ix.buckets key).erase row) }
  | .drifted => { ix with drifted := ix.drifted - 1 }
  | .absent | .skipped => ix

omit [DecidableEq κ] in
/-- **Exactness**: the buckets and the tally say of every row what `view` says. -/
structure Exact (ix : Index κ) (view : ℕ → Keying κ) : Prop where
  buckets : ∀ key row, row ∈ ix.buckets key ↔ view row = .keyed key
  drifted : ∃ rows : Finset ℕ, (∀ row, row ∈ rows ↔ view row = .drifted) ∧ ix.drifted = rows.card

variable {ix : Index κ} {view : ℕ → Keying κ} {row : ℕ}

omit [DecidableEq κ] in
theorem Exact.congr {view' : ℕ → Keying κ} (h : ix.Exact view)
    (hv : ∀ row, (view row).filed = (view' row).filed) : ix.Exact view' := by
  constructor
  · intro key row
    rw [h.buckets key row, ← Keying.filed_keyed, hv, Keying.filed_keyed]
  · obtain ⟨rows, hrows, hcard⟩ := h.drifted
    refine ⟨rows, fun row => ?_, hcard⟩
    rw [hrows row, ← Keying.filed_drifted, hv, Keying.filed_drifted]

theorem Exact.insert (h : ix.Exact view) (row : ℕ) (k : Keying κ)
    (hrow : (view row).filed = .absent) : (ix.insert k row).Exact (update view row k) := by
  have hother : ∀ r, r ≠ row → update view row k r = view r := fun r hr =>
    update_of_ne hr _ _
  have hkey : ∀ key, view row ≠ .keyed key := fun key hk => by rw [hk] at hrow; cases hrow
  have hdrift : view row ≠ .drifted := fun hk => by rw [hk] at hrow; cases hrow
  obtain ⟨rows, hrows, hcard⟩ := h.drifted
  have hnot : row ∉ rows := fun hm => hdrift ((hrows row).1 hm)
  constructor
  · intro key r
    by_cases hr : r = row
    · subst hr
      have hn : r ∉ ix.buckets key := fun hm => hkey key ((h.buckets key r).1 hm)
      rw [update_self]
      cases k with
      | keyed key' =>
        by_cases hk : key = key'
        · subst hk; simp [Index.insert]
        · simp [Index.insert, update_of_ne hk, hn, Ne.symm hk]
      | absent | drifted | skipped => simp [Index.insert, hn]
    · rw [hother r hr, ← h.buckets key r]
      cases k with
      | keyed key' =>
        by_cases hk : key = key'
        · subst hk; simp [Index.insert, hr]
        · simp [Index.insert, update_of_ne hk]
      | absent | drifted | skipped => rfl
  · by_cases hk : k = .drifted
    · subst hk
      refine ⟨Insert.insert row rows, fun r => ?_, ?_⟩
      · by_cases hr : r = row
        · subst hr; simp
        · rw [hother r hr, Finset.mem_insert, hrows r]; simp [hr]
      · rw [Finset.card_insert_of_notMem hnot]
        simp [Index.insert, hcard]
    · refine ⟨rows, fun r => ?_, ?_⟩
      · by_cases hr : r = row
        · subst hr; rw [update_self]; simp [hnot, hk]
        · rw [hother r hr, hrows r]
      · cases k <;> simp_all [Index.insert]

theorem Exact.remove (h : ix.Exact view) (row : ℕ) :
    (ix.remove (view row) row).Exact (update view row .absent) := by
  have hother : ∀ r, r ≠ row → update view row .absent r = view r := fun r hr =>
    update_of_ne hr _ _
  obtain ⟨rows, hrows, hcard⟩ := h.drifted
  constructor
  · intro key r
    by_cases hr : r = row
    · subst hr
      rw [update_self]
      cases hv : view r with
      | keyed key' =>
        by_cases hk : key = key'
        · subst hk; simp [Index.remove]
        · have := (h.buckets key r).not.2 (by rw [hv]; simpa using Ne.symm hk)
          simp [Index.remove, update_of_ne hk, this]
      | absent | drifted | skipped => simp [Index.remove, h.buckets key r, hv]
    · rw [hother r hr, ← h.buckets key r]
      cases view row with
      | keyed key' =>
        by_cases hk : key = key'
        · subst hk; simp [Index.remove, hr]
        · simp [Index.remove, update_of_ne hk]
      | absent | drifted | skipped => rfl
  · by_cases hk : view row = .drifted
    · have hin : row ∈ rows := (hrows row).2 hk
      refine ⟨rows.erase row, fun r => ?_, ?_⟩
      · by_cases hr : r = row
        · subst hr; simp
        · rw [hother r hr, Finset.mem_erase, hrows r]; simp [hr]
      · rw [Finset.card_erase_of_mem hin, hk]
        simp [Index.remove, hcard]
    · have hnot : row ∉ rows := fun hm => hk ((hrows row).1 hm)
      refine ⟨rows, fun r => ?_, ?_⟩
      · by_cases hr : r = row
        · subst hr; rw [update_self]; simp [hnot]
        · rw [hother r hr, hrows r]
      · cases hv : view row <;> simp_all [Index.remove]

/-- **Refiling**: a row is taken out under its old key and filed under the new one. -/
theorem Exact.refile (h : ix.Exact view) (k : Keying κ) :
    ((ix.remove (view row) row).insert k row).Exact (update view row k) := by
  have := (h.remove row).insert row k (by rw [update_self]; rfl)
  rwa [update_idem] at this

/-- **A visit of one row**, which refiles it or finds it filed alike on both sides. -/
theorem Exact.visit {π : Type} {f : π → Keying κ} {payload : ℕ → π} {new : π} {ix' : Index κ}
    (h : ix.Exact fun r => f (payload r))
    (hix : ix' = (ix.remove (f (payload row)) row).insert (f new) row ∨
      f (payload row) = f new ∧ ix' = ix) : ix'.Exact fun r => f (update payload row new r) := by
  change ix'.Exact (f ∘ update payload row new)
  rw [comp_update]
  rcases hix with rfl | ⟨hsame, rfl⟩
  · exact h.refile _
  · have hself : update (f ∘ payload) row (f (payload row)) = f ∘ payload :=
      update_eq_self row (f ∘ payload)
    rwa [← hsame, hself]

omit [DecidableEq κ] in
theorem Exact.unique {ix' : Index κ} {view' : ℕ → Keying κ} (h : ix.Exact view)
    (h' : ix'.Exact view') (hv : ∀ row, (view row).filed = (view' row).filed) : ix = ix' := by
  have h := h.congr hv
  obtain ⟨rows, hrows, hcard⟩ := h.drifted
  obtain ⟨rows', hrows', hcard'⟩ := h'.drifted
  have hb : ix.buckets = ix'.buckets := by
    funext key; ext r; rw [h.buckets, h'.buckets]
  have hr : rows = rows' := by ext r; rw [hrows, hrows']
  cases ix; cases ix'
  simp only [mk.injEq] at hb ⊢
  exact ⟨hb, by simp_all⟩

omit [DecidableEq κ] in
theorem Exact.filed_eq {k : Keying κ} (h : ix.Exact view)
    (h' : ix.Exact (update view row k)) : k.filed = (view row).filed := by
  obtain ⟨rows, hrows, hcard⟩ := h.drifted
  obtain ⟨rows', hrows', hcard'⟩ := h'.drifted
  have hkey : ∀ key, view row = .keyed key ↔ k = .keyed key := fun key => by
    rw [← h.buckets key row, h'.buckets key row, update_self]
  -- the two sets of drifted rows agree off `row`, and their sizes agree
  have hself : row ∈ rows' ↔ k = .drifted := by rw [hrows', update_self]
  have heq : rows'.erase row = rows.erase row := by
    ext r
    by_cases hr : r = row
    · subst hr; simp
    · simp [hr, hrows, hrows']
  have hdrift : view row = .drifted ↔ k = .drifted := by
    rw [← hrows row, ← hself]
    have hsize : rows.card = rows'.card := by omega
    constructor
    · intro hm
      by_contra hm'
      rw [Finset.erase_eq_of_notMem hm'] at heq
      have := Finset.card_erase_lt_of_mem hm
      rw [← heq] at this
      omega
    · intro hm
      by_contra hm'
      rw [Finset.erase_eq_of_notMem hm'] at heq
      have := Finset.card_erase_lt_of_mem hm
      rw [heq] at this
      omega
  cases hv : view row with
  | keyed key => rw [(hkey key).1 hv]
  | drifted => rw [hdrift.1 hv]
  | absent | skipped =>
    cases k with
    | keyed key => exact absurd ((hkey key).2 rfl) (by rw [hv]; simp)
    | drifted => exact absurd (hdrift.2 rfl) (by rw [hv]; simp)
    | absent | skipped => rfl

omit [DecidableEq κ] in
/-- A visit to every index of a family leaves it as it is exactly when each index files the row alike
before and after. -/
theorem visits_eq_self_iff {ι α π : Type} {entries : ι → Option α} {v : α → Index κ} {g : ι → α → α}
    {f : ι → α → π → Keying κ} {payload : ℕ → π} {new : π}
    (h : ∀ i a, entries i = some a → (v a).Exact fun r => f i a (payload r))
    (hvisit : ∀ i a, entries i = some a →
      (v (g i a)).Exact fun r => f i a (update payload row new r))
    (hext : ∀ i a, v (g i a) = v a → g i a = a) :
    (fun i => (entries i).map (g i)) = entries ↔
      ∀ i a, entries i = some a → (f i a (payload row)).filed = (f i a new).filed := by
  constructor
  · intro hsame i a ha
    have hself : (entries i).map (g i) = entries i := congrFun hsame i
    rw [ha, Option.map_some, Option.some.injEq] at hself
    have hview : (fun r => f i a (update payload row new r)) =
        update (fun r => f i a (payload r)) row (f i a new) :=
      comp_update (f i a) payload row new
    have hv := hvisit i a ha
    rw [hself, hview] at hv
    exact ((h i a ha).filed_eq hv).symm
  · intro hfiled
    funext i
    cases ha : entries i with
    | none => rfl
    | some a =>
      refine congrArg some (hext i a ((hvisit i a ha).unique (h i a ha) fun r => ?_))
      by_cases hr : r = row
      · subst hr
        rw [update_self]
        exact (hfiled i a ha).symm
      · rw [update_of_ne hr]

theorem Exact.build (view : ℕ → Keying κ) (n : ℕ) :
    ((range n).foldl (fun ix row => ix.insert (view row) row) (⟨fun _ => ∅, 0⟩ : Index κ)).Exact
      fun row => if row < n then view row else .absent := by
  induction n with
  | zero =>
    constructor
    · intro key row
      simp
    · exact ⟨∅, by simp, rfl⟩
  | succ n ih =>
    rw [range_succ, foldl_append]
    have hstep := ih.insert n (view n) (by simp)
    refine hstep.congr fun row => ?_
    by_cases hr : row = n
    · subst hr; simp
    · have : row < n + 1 ↔ row < n := by omega
      simp [hr, this]

/-- A build of anything that holds an index and files row after row. `keep` is what filing leaves
alone. -/
theorem Exact.build_steps {ε : Type} (toIndex : ε → Index κ) (keep : ε → Prop) {step : ε → ℕ → ε}
    {view : ℕ → Keying κ} {e : ε} {n : ℕ} (hstep : ∀ e row, keep e → keep (step e row) ∧
      toIndex (step e row) = (toIndex e).insert (view row) row) (he : keep e)
    (hempty : toIndex e = ⟨fun _ => ∅, 0⟩) (hn : ∀ row, n ≤ row → view row = .absent) :
    (toIndex ((range n).foldl step e)).Exact view := by
  have hfold : ∀ (rows : List ℕ) e, keep e → toIndex (rows.foldl step e) =
      rows.foldl (fun ix row => ix.insert (view row) row) (toIndex e) := by
    intro rows
    induction rows with
    | nil => exact fun _ _ => rfl
    | cons row rows ih =>
      intro e he
      obtain ⟨hkeep, hix⟩ := hstep e row he
      rw [foldl_cons, foldl_cons, ← hix]
      exact ih _ hkeep
  rw [hfold _ e he, hempty]
  refine (build view n).congr fun row => ?_
  split
  · rfl
  · next h => rw [hn row (by omega)]

end Index

/-! ## Tables changed entry by entry -/

section Table

variable {κ ν β : Type} [DecidableEq κ] (key : β → κ) (f : β → Option ν → Option ν)

theorem foldl_update_of_notMem {l : List β} {k : κ} (h : k ∉ l.map key) (t : κ → Option ν) :
    l.foldl (fun t b => update t (key b) (f b (t (key b)))) t k = t k := by
  induction l generalizing t with
  | nil => rfl
  | cons b l ih =>
    simp only [map_cons, mem_cons, not_or] at h
    rw [foldl_cons, ih h.2, update_of_ne h.1]

theorem foldl_update_of_mem {l : List β} (hl : (l.map key).Nodup) {b : β} (hb : b ∈ l)
    (t : κ → Option ν) :
    l.foldl (fun t b => update t (key b) (f b (t (key b)))) t (key b) = f b (t (key b)) := by
  induction l generalizing t with
  | nil => cases hb
  | cons c l ih =>
    simp only [map_cons, nodup_cons] at hl
    rw [foldl_cons]
    rcases mem_cons.1 hb with rfl | hb
    · rw [foldl_update_of_notMem key f hl.1, update_self]
    · have hne : key b ≠ key c := fun h => hl.1 (h ▸ mem_map_of_mem hb)
      rw [ih hl.2 hb, update_of_ne hne]

end Table

/-! ## Tables looked up by way of ids -/

theorem bind_eq_update {α : Type} {rows rows' : ℕ → Option ℕ} {cell cell' : ℕ → Option α} {i row : ℕ}
    {a : α} (hi : rows' i = some row) (hother : ∀ j, j ≠ i → rows' j = rows j ∧ rows j ≠ some row)
    (hcell : cell' = update cell row (some a)) :
    (fun j => (rows' j).bind cell') = update (fun j => (rows j).bind cell) i (some a) := by
  funext j
  by_cases hj : j = i
  · subst hj
    rw [update_self, hi, hcell, Option.bind_some, update_self]
  · obtain ⟨hrows, hne⟩ := hother j hj
    rw [update_of_ne hj, hrows, hcell]
    cases hr : rows j with
    | none => rfl
    | some r =>
      have hr' : r ≠ row := fun h => hne (h ▸ hr)
      rw [Option.bind_some, Option.bind_some, update_of_ne hr']

/-! ## Lists swept row by row -/

variable {σ : Type} {store : List σ} {row : ℕ}

theorem modify_congr {f g : σ → σ}
    (h : ∀ s, store[row]? = some s → f s = g s) : store.modify row f = store.modify row g := by
  refine ext_getElem? fun i => ?_
  rw [getElem?_modify, getElem?_modify]
  by_cases hi : row = i
  · subst hi
    cases hs : store[row]? with
    | none => rfl
    | some s => simp [h s hs]
  · simp [hi]

theorem modify_fixed {f : σ → σ}
    (h : ∀ s, store[row]? = some s → f s = s) : store.modify row f = store :=
  (modify_congr h).trans (modify_id row store)

variable {σ : Type} (f : σ → σ) (store : List σ)

theorem getElem?_foldl_modify_range (n i : ℕ) :
    ((range n).foldl (fun st row => st.modify row f) store)[i]? =
      if i < n then store[i]?.map f else store[i]? := by
  induction n generalizing i with
  | zero => simp
  | succ n ih =>
    rw [range_succ, foldl_append, foldl_cons, foldl_nil, getElem?_modify, ih i]
    by_cases hi : n = i
    · subst hi
      cases store[n]? <;> simp
    · have : i < n + 1 ↔ i < n := by omega
      simp only [this, hi, if_false]
      simp

theorem foldl_modify_range :
    (range store.length).foldl (fun st row => st.modify row f) store = store.map f := by
  refine ext_getElem? fun i => ?_
  rw [getElem?_foldl_modify_range, getElem?_map]
  split
  · rfl
  · next hi => rw [getElem?_eq_none (by omega)]; rfl

/-! ## What a loop collects -/

theorem foldl_adds_iff {σ α : Type} {f : σ → α → σ} {Q : σ → Prop} {P : α → Prop}
    (h : ∀ s a, Q (f s a) ↔ Q s ∨ P a) (l : List α) (s : σ) :
    Q (l.foldl f s) ↔ Q s ∨ ∃ a ∈ l, P a := by
  induction l generalizing s with
  | nil => simp
  | cons a l ih =>
    rw [foldl_cons, ih, h, or_assoc]
    simp
