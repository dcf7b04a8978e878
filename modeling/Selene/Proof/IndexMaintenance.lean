import Selene.Graph.Consistency

/-!
# Index maintenance, one row at a time

The indexes of a graph are functions of the payloads of its live rows. A data operation changes
the payload of one row, and its index work must turn the indexes of the old payloads into those
of the new ones. For every family of indexes:

* what the loop of the source leaves at one index (`applyNodeCreate_apply` and companions): one
  visit, which takes the row out under its old value and files it under the new one;
* that this keeps the family exact (`Exact.update`).
-/

namespace Selene.Graph

open Attempt List Option Prod TypedIndex Except VectorIndexEntry
open Function (update update_self update_of_ne update_eq_self)

/-- Labels and properties of a live row. -/
abbrev Payload := LabelSet × PropertyMap

/-- The value a property index reads from a row. -/
def payloadValue (key : IndexKey) (p : Option Payload) : Option Value :=
  p.bind fun p => indexableValue p.1 p.2 key

def payloadValues (label : DbString) (properties : List DbString) (p : Option Payload) :
    Option (List Value) :=
  p.bind fun p => indexableValues p.1 p.2 label properties

/-! ## The loops of the source -/

section Loops

variable {labels : LabelSet} {props : PropertyMap} {key : IndexKey} {value : Value}

theorem nodup_toList (labels : LabelSet) : labels.toList.Nodup := by
  have h := labels.distinct_toList
  exact h.imp fun h he => h (by simp [he])

theorem nodup_keys_toList (props : PropertyMap) : (props.toList.map fst).Nodup := by
  have h := props.distinct_keys_toList
  rw [nodup_iff_pairwise_ne, pairwise_map]
  exact h.imp fun h he => h (by simp [he])

theorem nodup_footprint {labels : List DbString} (h : labels.Nodup) (props : PropertyMap) :
    ((footprint labels props).map fst).Nodup := by
  have hp : ((props.toList.filter fun e => !e.2.isNull).map fst).Nodup :=
    (filter_sublist.map _).nodup (nodup_keys_toList props)
  have he : (footprint labels props).map fst = labels.flatMap fun label =>
      ((props.toList.filter fun e => !e.2.isNull).map fst).map fun p => (label, p) := by
    simp [footprint, map_flatMap, Function.comp_def]
  rw [he]
  exact h.product hp

theorem mem_footprint {labels : List DbString} : (key, value) ∈ footprint labels props ↔
    key.1 ∈ labels ∧ props[key.2]? = some value ∧ value.isNull = false := by
  obtain ⟨label, property⟩ := key
  constructor
  · intro h
    obtain ⟨l, hl, h⟩ := mem_flatMap.1 h
    obtain ⟨⟨p, v⟩, hv, he⟩ := mem_map.1 h
    obtain ⟨hm, hn⟩ := mem_filter.1 hv
    cases he
    exact ⟨hl, Std.ExtTreeMap.mem_toList_iff_getElem?_eq_some.1 hm, by simpa using hn⟩
  · rintro ⟨hl, hp, hn⟩
    refine mem_flatMap.2 ⟨label, hl, mem_map.2 ⟨(property, value), ?_, rfl⟩⟩
    exact mem_filter.2 ⟨Std.ExtTreeMap.mem_toList_iff_getElem?_eq_some.2 hp, by simpa using hn⟩

theorem indexableValue_eq_some : indexableValue labels props key = some value ↔
    key.1 ∈ labels ∧ props[key.2]? = some value ∧ value.isNull = false := by
  unfold indexableValue
  split
  · next h => simp [h, filter_eq_some_iff]
  · next h => simp [h]

theorem mem_footprint_toList :
    (key, value) ∈ footprint labels.toList props ↔ indexableValue labels props key = some value := by
  rw [mem_footprint, indexableValue_eq_some, Std.ExtTreeSet.mem_toList]

theorem indexableValue_eq_none
    (h : key ∉ (footprint labels.toList props).map fst) : indexableValue labels props key = none := by
  cases hv : indexableValue labels props key with
  | none => rfl
  | some v => exact absurd (mem_map.2 ⟨(key, v), mem_footprint_toList.2 hv, rfl⟩) h

variable {labels' : LabelSet} {props' : PropertyMap} {registered : IndexKey → Bool}

theorem nodup_candidateKeys : (candidateKeys registered labels props labels' props').Nodup :=
  ((nodup_toList _).product (nodup_toList _)).filter _

/-- Every registered index with a value of the row on either side is a candidate. -/
theorem mem_candidateKeys (hr : registered key = true)
    (hl : key.1 ∈ labels ∨ key.1 ∈ labels') (hp : key.2 ∈ props ∨ key.2 ∈ props') :
    key ∈ candidateKeys registered labels props labels' props' := by
  refine mem_filter.2 ⟨mem_flatMap.2 ⟨key.1, ?_, mem_map.2 ⟨key.2, ?_, rfl⟩⟩, hr⟩
  · rw [Std.ExtTreeSet.mem_toList, Std.ExtTreeSet.mem_insertMany_list]
    rcases hl with hl | hl
    · exact .inl hl
    · exact .inr (by simpa using hl)
  · rw [Std.ExtTreeSet.mem_toList, Std.ExtTreeSet.mem_insertMany_list]
    refine .inr ?_
    simpa using hp

theorem candidateKeys_of_notMem (h : key ∉ candidateKeys registered labels props labels' props')
    (hr : registered key = true) :
    (key.1 ∉ labels ∨ key.2 ∉ props) ∧ (key.1 ∉ labels' ∨ key.2 ∉ props') := by
  by_contra hn
  rw [not_and_or] at hn
  refine h ?_
  rcases hn with hn | hn
  · push Not at hn
    exact mem_candidateKeys hr (.inl hn.1) (.inl hn.2)
  · push Not at hn
    exact mem_candidateKeys hr (.inr hn.1) (.inr hn.2)

end Loops

theorem indexableValue_of_notMem {labels : LabelSet} {props : PropertyMap} {key : IndexKey}
    (h : key.1 ∉ labels ∨ key.2 ∉ props) : indexableValue labels props key = none := by
  unfold indexableValue
  rcases h with h | h
  · rw [if_neg h]
  · rw [Std.ExtTreeMap.getElem?_eq_none h]
    simp

/-- **The loop over a footprint**, at one key: the visit of the value the row has there. -/
theorem footprint_loop {ν : Type} (f : Value → ν → ν) (labels : LabelSet) (props : PropertyMap)
    (table : IndexKey → Option ν) (key : IndexKey) :
    (footprint labels.toList props).foldl
        (fun t e => update t e.1 ((t e.1).map (f e.2))) table key =
      (table key).map fun x => (indexableValue labels props key).elim x fun v => f v x := by
  by_cases h : key ∈ (footprint labels.toList props).map fst
  · obtain ⟨⟨key, value⟩, hm, rfl⟩ := mem_map.1 h
    refine (foldl_update_of_mem fst (fun b o => o.map (f b.2))
      (nodup_footprint (nodup_toList labels) props) hm table).trans ?_
    simp only [mem_footprint_toList.1 hm, elim_some]
  · refine (foldl_update_of_notMem fst (fun b o => o.map (f b.2)) h table).trans ?_
    simp only [indexableValue_eq_none h, Option.elim_none, Option.map_id']

/-- **The loop over the candidates of an update**, at one key; a registered index that is not a
candidate has no value of the row on either side. -/
theorem candidate_loop {ν : Type} (f : IndexKey → ν → ν) (labels labels' : LabelSet)
    (props props' : PropertyMap) (table : IndexKey → Option ν)
    (hf : ∀ key, (key.1 ∉ labels ∨ key.2 ∉ props) → (key.1 ∉ labels' ∨ key.2 ∉ props') →
      ∀ x, f key x = x) (key : IndexKey) :
    (candidateKeys (fun key => (table key).isSome) labels props labels' props').foldl
        (fun t k => update t k ((t k).map (f k))) table key = (table key).map (f key) := by
  by_cases h : key ∈ candidateKeys (fun key => (table key).isSome) labels props labels' props'
  · refine foldl_update_of_mem id (fun k o => o.map (f k)) ?_ h table
    rw [List.map_id]
    exact nodup_candidateKeys
  · refine (foldl_update_of_notMem id (fun k o => o.map (f k)) ?_ table).trans ?_
    · rwa [List.map_id]
    · cases hk : table key with
      | none => rfl
      | some x =>
        obtain ⟨hold, hnew⟩ := candidateKeys_of_notMem h (by rw [hk]; rfl)
        rw [map_some, hf key hold hnew]

/-! ## Property indexes -/

/-- The buckets and the drift tally of an entry. -/
def PropertyIndexEntry.toIndex (entry : PropertyIndexEntry) : Index TypedKey :=
  ⟨entry.index.rows, entry.driftedRows⟩

namespace PropertyIndexEntry

variable (entry : PropertyIndexEntry) (value : Value) (row : Row)

theorem insertCommit_spec : (entry.insertCommit value row).index.kind = entry.index.kind ∧
    (entry.insertCommit value row).toIndex =
      entry.toIndex.insert (TypedIndex.keying entry.index.kind (some value)) row := by
  unfold insertCommit TypedIndex.insert
  rw [TypedIndex.keying]
  cases TypedIndex.key entry.index.kind value with
  | ok k => exact ⟨rfl, rfl⟩
  | error e => simp only [bind, Except.bind]; split <;> exact ⟨rfl, rfl⟩

theorem removeCommit_spec : (entry.removeCommit value row).index.kind = entry.index.kind ∧
    (entry.removeCommit value row).toIndex =
      entry.toIndex.remove (TypedIndex.keying entry.index.kind (some value)) row := by
  unfold removeCommit remove
  rw [TypedIndex.keying]
  cases TypedIndex.key entry.index.kind value with
  | ok k => exact ⟨rfl, rfl⟩
  | error e => simp only [bind, Except.bind]; split <;> exact ⟨rfl, rfl⟩

end PropertyIndexEntry

namespace TypedIndex

/-- Equal values have equal keys, or are rejected alike. Floats are the exception: their equality
does not tell the zeros or the NaNs apart, and `raw_value_same` compares their bits. -/
theorem keying_of_rawValueSame {v w : Value} (kind : TypedIndexKind) (h : rawValueSame v w = true) :
    keying kind (some v) = keying kind (some w) := by
  unfold rawValueSame at h
  split at h
  · rw [beq_iff_eq] at h
    rw [h]
  · rw [beq_iff_eq] at h
    rw [h]
  · next hf hf32 =>
    -- one case for every variant: equal payloads, no key at all, or equal numbers and instants
    unfold Value.eq at h
    split at h <;> first
      | (cases h; done)
      | (simp only [beq_iff_eq] at h; subst h; rfl)
      | (exact (hf _ _ rfl rfl).elim)
      | (exact (hf32 _ _ rfl rfl).elim)
      | (simp only [beq_iff_eq] at h; simp [keying, key, typedKey, h])
      | (simp [keying, key, typedKey, countsAsDrift, Value.variantName, bind, Except.bind])

/-- The shortcut of an update is taken for values that are filed alike. -/
theorem keying_of_valuesShareKey {v w : Value} {kind : TypedIndexKind}
    (h : valuesShareKey kind v w = true) : keying kind (some v) = keying kind (some w) := by
  unfold valuesShareKey at h
  split at h
  · next k l hk hl =>
    rw [beq_iff_eq] at h
    simp only [keying, hk, hl, h]
  · exact keying_of_rawValueSame kind h

end TypedIndex

namespace PropertyIndexEntry

variable (entry : PropertyIndexEntry) (old new : Option Value) (row : Row)

theorem replaceCommit_kind : (entry.replaceCommit old new row).index.kind = entry.index.kind := by
  unfold replaceCommit
  split
  · rfl
  · split
    · rfl
    · rw [(insertCommit_spec ..).1, (removeCommit_spec ..).1]
  · exact (removeCommit_spec ..).1
  · exact (insertCommit_spec ..).1

theorem replaceCommit_toIndex : (entry.replaceCommit old new row).toIndex =
        (entry.toIndex.remove (TypedIndex.keying entry.index.kind old) row).insert
          (TypedIndex.keying entry.index.kind new) row ∨
      TypedIndex.keying entry.index.kind old = TypedIndex.keying entry.index.kind new ∧
        (entry.replaceCommit old new row).toIndex = entry.toIndex := by
  unfold replaceCommit
  split
  · exact .inl rfl
  · next v w =>
    split
    · next h => exact .inr ⟨keying_of_valuesShareKey h, rfl⟩
    · rw [(insertCommit_spec ..).2, (removeCommit_spec ..).2, (removeCommit_spec ..).1]
      exact .inl rfl
  · rw [(removeCommit_spec ..).2]
    exact .inl rfl
  · rw [(insertCommit_spec ..).2]
    exact .inl rfl

end PropertyIndexEntry

namespace PropertyIndex

/-- Every index files every live row as `typed_key` reads its value. -/
def Exact (indexes : PropertyIndexMap) (payload : Row → Option Payload) : Prop :=
  ∀ key entry, indexes key = some entry →
    entry.toIndex.Exact fun row => TypedIndex.keying entry.index.kind (payloadValue key (payload row))

/-- What a data operation leaves at one index. -/
def visited (old new : Option Payload) (row : Row) (indexes : PropertyIndexMap) : PropertyIndexMap :=
  fun key => (indexes key).map fun entry =>
    entry.replaceCommit (payloadValue key old) (payloadValue key new) row

variable {indexes : PropertyIndexMap} {payload : Row → Option Payload} {row : Row}

theorem Exact.update (h : Exact indexes payload) (new : Option Payload) :
    Exact (visited (payload row) new row indexes) (update payload row new) := by
  intro key entry' hentry
  obtain ⟨entry, hkey, rfl⟩ := map_eq_some_iff.1 hentry
  rw [entry.replaceCommit_kind]
  exact (h key entry hkey).visit (f := fun p => TypedIndex.keying entry.index.kind (payloadValue key p))
    (entry.replaceCommit_toIndex _ _ row)

variable (labels labels' : LabelSet) (props props' : PropertyMap) (row)

variable (indexes : PropertyIndexMap)

theorem applyNodeCreate_apply :
    applyNodeCreate labels props row indexes = visited none (some (labels, props)) row indexes := by
  funext key
  refine (footprint_loop (fun v e => e.insertCommit v row) labels props indexes key).trans ?_
  simp only [visited, payloadValue, bind_none, bind_some]
  cases indexableValue labels props key <;> rfl

theorem applyNodeDelete_apply :
    applyNodeDelete labels props row indexes = visited (some (labels, props)) none row indexes := by
  funext key
  refine (footprint_loop (fun v e => e.removeCommit v row) labels props indexes key).trans ?_
  simp only [visited, payloadValue, bind_none, bind_some]
  cases indexableValue labels props key <;> rfl

theorem applyNodeUpdate_apply : applyNodeUpdate labels props labels' props' row indexes =
      visited (some (labels, props)) (some (labels', props')) row indexes := by
  funext key
  refine candidate_loop (fun k e => e.replaceCommit (indexableValue labels props k)
    (indexableValue labels' props' k) row) labels labels' props props' indexes ?_ key
  intro k hold hnew e
  rw [indexableValue_of_notMem hold, indexableValue_of_notMem hnew]
  rfl

variable (label : DbString) (indexes : PropertyIndexMap)

theorem applyEdgeCreate_apply :
    applyEdgeCreate label props row indexes = visited none (some ({label}, props)) row indexes :=
  applyNodeCreate_apply row {label} props indexes

theorem applyEdgeDelete_apply :
    applyEdgeDelete label props row indexes = visited (some ({label}, props)) none row indexes :=
  applyNodeDelete_apply row {label} props indexes

theorem applyEdgeUpdate_apply : applyEdgeUpdate label props props' row indexes =
      visited (some ({label}, props)) (some ({label}, props')) row indexes :=
  applyNodeUpdate_apply row {label} {label} props props' indexes

end PropertyIndex

/-! ## Composite indexes -/

def CompositePropertyIndexEntry.toIndex (entry : CompositePropertyIndexEntry) :
    Index (List TypedKey) :=
  ⟨entry.rows, entry.driftedRows⟩

namespace CompositePropertyIndexEntry

variable (entry : CompositePropertyIndexEntry) (values : List Value)
  (old new : Option (List Value)) (row : Row)

theorem removeCommit_kinds : (entry.removeCommit values row).kinds = entry.kinds := by
  unfold removeCommit
  repeat' split
  all_goals rfl

theorem insertCommit_toIndex : (entry.insertCommit values row).toIndex =
    entry.toIndex.insert (keying entry.kinds (some values)) row := by
  unfold insertCommit
  rw [keying]
  cases compositeKeyFromValues entry.kinds values with
  | ok k => rfl
  | error e => dsimp only; split <;> rfl

theorem removeCommit_toIndex : (entry.removeCommit values row).toIndex =
    entry.toIndex.remove (keying entry.kinds (some values)) row := by
  unfold removeCommit
  rw [keying]
  cases compositeKeyFromValues entry.kinds values with
  | ok k => rfl
  | error e => dsimp only; split <;> rfl

theorem keying_of_valuesShareKey {v w : List Value} (h : entry.valuesShareKey v w = true) :
    keying entry.kinds (some v) = keying entry.kinds (some w) := by
  unfold valuesShareKey at h
  split at h
  · next k l hk hl =>
    rw [beq_iff_eq] at h
    simp only [keying, hk, hl, h]
  · next e e' hk hl =>
    rw [beq_iff_eq] at h
    simp only [keying, hk, hl, h]
  · cases h

theorem replaceCommit_declared : (entry.replaceCommit old new row).kinds = entry.kinds ∧
    (entry.replaceCommit old new row).declaredProperties = entry.declaredProperties ∧
    (entry.replaceCommit old new row).name = entry.name := by
  unfold replaceCommit insertCommit removeCommit
  repeat' split
  all_goals exact ⟨rfl, rfl, rfl⟩

theorem replaceCommit_toIndex : (entry.replaceCommit old new row).toIndex =
        (entry.toIndex.remove (keying entry.kinds old) row).insert (keying entry.kinds new) row ∨
      keying entry.kinds old = keying entry.kinds new ∧
        (entry.replaceCommit old new row).toIndex = entry.toIndex := by
  unfold replaceCommit
  split
  · exact .inl rfl
  · next v w =>
    split
    · next h => exact .inr ⟨entry.keying_of_valuesShareKey h, rfl⟩
    · rw [insertCommit_toIndex, removeCommit_toIndex, removeCommit_kinds]
      exact .inl rfl
  · rw [removeCommit_toIndex]
    exact .inl rfl
  · rw [insertCommit_toIndex]
    exact .inl rfl

end CompositePropertyIndexEntry

namespace CompositeIndex

variable (indexes : CompositeIndexMap)

def Exact (payload : Row → Option Payload) : Prop :=
  ∀ key entry, indexes key = some entry →
    entry.toIndex.Exact fun row => CompositePropertyIndexEntry.keying entry.kinds
      (payloadValues key.1 entry.declaredProperties (payload row))

/-- What a data operation leaves at one index. -/
def visited (old new : Option Payload) (row : Row) (indexes : CompositeIndexMap) :
    CompositeIndexMap :=
  fun key => (indexes key).map fun entry =>
    entry.replaceCommit (payloadValues key.1 entry.declaredProperties old)
      (payloadValues key.1 entry.declaredProperties new) row

variable {indexes : CompositeIndexMap} {payload : Row → Option Payload} {row : Row}

theorem Exact.update (h : Exact indexes payload) (new : Option Payload) :
    Exact (visited (payload row) new row indexes) (update payload row new) := by
  intro key entry' hentry
  obtain ⟨entry, hkey, rfl⟩ := map_eq_some_iff.1 hentry
  obtain ⟨hkinds, hprops, -⟩ := entry.replaceCommit_declared
    (payloadValues key.1 entry.declaredProperties (payload row))
    (payloadValues key.1 entry.declaredProperties new) row
  rw [hkinds, hprops]
  exact (h key entry hkey).visit (f := fun p => CompositePropertyIndexEntry.keying entry.kinds
    (payloadValues key.1 entry.declaredProperties p)) (entry.replaceCommit_toIndex _ _ row)

variable (labels labels' : LabelSet) (props props' : PropertyMap) (row)

theorem applyNodeCreate_apply :
    applyNodeCreate labels props row indexes = visited none (some (labels, props)) row indexes := by
  funext key
  simp only [applyNodeCreate, visited, payloadValues, bind_none, bind_some]
  congr 1
  funext entry
  cases indexableValues labels props key.1 entry.declaredProperties <;> rfl

theorem applyNodeDelete_apply :
    applyNodeDelete labels props row indexes = visited (some (labels, props)) none row indexes := by
  funext key
  simp only [applyNodeDelete, visited, payloadValues, bind_none, bind_some]
  congr 1
  funext entry
  cases indexableValues labels props key.1 entry.declaredProperties <;> rfl

theorem applyNodeUpdate_apply : applyNodeUpdate labels props labels' props' row indexes =
      visited (some (labels, props)) (some (labels', props')) row indexes := rfl

end CompositeIndex

/-! ## Vector indexes -/

namespace VectorIndexEntry

/-- No value, or one the index takes. -/
def Admits (entry : VectorIndexEntry) (value : Option Value) : Prop :=
  ∀ v, value = some v → entry.admitValue v = .ok ()

/-- What an admitted visit leaves. -/
def settled (entry : VectorIndexEntry) (old new : Option Value) (row : Row) : VectorIndexEntry :=
  match old, new with
  | _, some w => entry.insertValue row w
  | some _, none => entry.removeRow row
  | none, none => entry

variable {entry : VectorIndexEntry} {old new : Option Value} {row : Row} {key : IndexKey}

theorem admitCommit_ok {v : Value} {u : Unit} :
    entry.admitCommit key v = .ok u ↔ entry.admitValue v = .ok () := by
  unfold admitCommit
  cases entry.admitValue v <;> simp [Except.mapError]

theorem commit_of_admits (hold : entry.Admits old) (hnew : entry.Admits new) :
    entry.commit key old new row = .ok (entry.settled old new row) := by
  have hadmitted : ∀ v, entry.admitValue v = .ok () → entry.admitCommit key v = .ok () :=
    fun v h => admitCommit_ok.2 h
  cases old with
  | none =>
    cases new with
    | none => rfl
    | some w => simp only [commit, hadmitted w (hnew w rfl)]; rfl
  | some v =>
    cases new with
    | none => simp only [commit, hadmitted v (hold v rfl)]; rfl
    | some w => simp only [commit, hadmitted v (hold v rfl), hadmitted w (hnew w rfl)]; rfl

theorem admits_of_commit {entry' : VectorIndexEntry}
    (h : entry.commit key old new row = .ok entry') : entry.Admits old ∧ entry.Admits new := by
  constructor
  · rintro v rfl
    cases hv : entry.admitCommit key v with
    | ok u => exact admitCommit_ok.1 hv
    | error e => cases new <;> simp [commit, hv, bind, Except.bind] at h
  · rintro w rfl
    cases hw : entry.admitCommit key w with
    | ok u => exact admitCommit_ok.1 hw
    | error e =>
      cases old with
      | none => simp [commit, hw, bind, Except.bind] at h
      | some v => cases hv : entry.admitCommit key v <;> simp [commit, hv, hw, bind, Except.bind] at h

theorem settled_admitValue {v : Value} : (entry.settled old new row).admitValue v = entry.admitValue v := by
  unfold settled
  split <;> rfl

end VectorIndexEntry

namespace VectorIndex

open VectorIndexEntry (Admits)

variable {row : Row} {indexes indexes' : VectorIndexMap} {e : GraphError}

/-- The index under a key, if there is one, takes both values. -/
def AdmitsAt (indexes : VectorIndexMap) (key : IndexKey) (old new : Option Value) : Prop :=
  ∀ entry, indexes key = some entry → entry.Admits old ∧ entry.Admits new

variable {key : IndexKey} {old new : Option Value}

theorem commit_returns (h : AdmitsAt indexes key old new) : commit key old new row indexes =
      (.ok (), update indexes key ((indexes key).map fun e => e.settled old new row)) := by
  unfold commit
  cases hk : indexes key with
  | none =>
    have hsame : update indexes key none = indexes := by rw [← hk, update_eq_self]
    simp [hsame]
  | some entry =>
    obtain ⟨hold, hnew⟩ := h entry hk
    simp [commit_of_admits hold hnew]

theorem admitsAt_of_commit {u : Unit}
    (h : commit key old new row indexes = (.ok u, indexes')) : AdmitsAt indexes key old new := by
  intro entry hk
  cases hc : entry.commit key old new row with
  | ok entry' => exact admits_of_commit hc
  | error e => simp [commit, hk, hc] at h

theorem commit_refuses (h : commit key old new row indexes = (.error e, indexes')) :
    indexes' = indexes ∧ ¬ AdmitsAt indexes key old new := by
  constructor
  · unfold commit at h
    split at h
    · cases h
    · split at h
      · cases h
      · exact (mk.inj h).2.symm
  · intro ha
    rw [commit_returns ha] at h
    cases h

section Loop

variable {β : Type} {key : β → IndexKey} {old new : β → Option Value}

/-- The visits of a loop that admits everything. -/
def visitAll (key : β → IndexKey) (old new : β → Option Value) (row : Row) (l : List β)
    (indexes : VectorIndexMap) : VectorIndexMap :=
  l.foldl (fun t b => update t (key b) ((t (key b)).map fun e =>
    e.settled (old b) (new b) row)) indexes

theorem each_commit_ok (key : β → IndexKey) (old new : β → Option Value) {l : List β}
    (hl : (l.map key).Nodup) {indexes indexes' : VectorIndexMap} :
    each (fun b => commit (key b) (old b) (new b) row) l indexes = (.ok (), indexes') ↔
      (∀ b ∈ l, AdmitsAt indexes (key b) (old b) (new b)) ∧
        indexes' = visitAll key old new row l indexes := by
  induction l generalizing indexes with
  | nil => simp [visitAll, eq_comm]
  | cons b l ih =>
    obtain ⟨hb, hl⟩ := nodup_cons.1 hl
    -- the keys of the other visits are untouched by the first
    have hother : ∀ c ∈ l, ∀ v, update indexes (key b) v (key c) = indexes (key c) := by
      intro c hc v
      refine update_of_ne ?_ _ _
      intro h
      exact hb (h ▸ mem_map_of_mem hc)
    rw [each_cons, bind_ok]
    constructor
    · rintro ⟨⟨⟩, t, hfirst, hrest⟩
      have ha := admitsAt_of_commit hfirst
      rw [commit_returns ha] at hfirst
      cases hfirst
      obtain ⟨hall, rfl⟩ := (ih hl).1 hrest
      refine ⟨fun c hc => ?_, rfl⟩
      rcases mem_cons.1 hc with rfl | hc
      · exact ha
      · have := hall c hc
        rwa [AdmitsAt, hother c hc] at this
    · rintro ⟨hall, rfl⟩
      refine ⟨(), _, commit_returns (hall b mem_cons_self), (ih hl).2 ⟨fun c hc => ?_, rfl⟩⟩
      rw [AdmitsAt, hother c hc]
      exact hall c (mem_cons_of_mem b hc)

theorem each_commit_error {l : List β} (hl : (l.map key).Nodup)
    (h : each (fun b => commit (key b) (old b) (new b) row) l indexes = (.error e, indexes')) :
    ∃ pre c post, l = pre ++ c :: post ∧ (∀ b ∈ pre, AdmitsAt indexes (key b) (old b) (new b)) ∧
      ¬ AdmitsAt indexes (key c) (old c) (new c) ∧
        indexes' = visitAll key old new row pre indexes := by
  obtain ⟨pre, c, post, u, rfl, hpre, hc⟩ := each_error h
  rw [map_append, map_cons] at hl
  obtain ⟨hall, rfl⟩ := (each_commit_ok key old new (List.Nodup.of_append_left hl)).1 hpre
  obtain ⟨rfl, hrefuse⟩ := commit_refuses hc
  refine ⟨pre, c, post, rfl, hall, ?_, rfl⟩
  have hnot : key c ∉ pre.map key := by
    intro hm
    exact (nodup_append.1 hl).2.2 _ hm _ mem_cons_self rfl
  rwa [AdmitsAt, visitAll, foldl_update_of_notMem key (fun b o => o.map fun e : VectorIndexEntry =>
    e.settled (old b) (new b) row) hnot] at hrefuse

end Loop

/-- What a data operation leaves at one index. -/
def visited (old new : Option Payload) (row : Row) (indexes : VectorIndexMap) : VectorIndexMap :=
  fun key => (indexes key).map fun entry =>
    entry.settled (payloadValue key old) (payloadValue key new) row

/-- No index refuses the old or the new payload. -/
def Admitted (indexes : VectorIndexMap) (old new : Option Payload) : Prop :=
  ∀ key, AdmitsAt indexes key (payloadValue key old) (payloadValue key new)

theorem admitsAt_none (indexes : VectorIndexMap) (key : IndexKey) : AdmitsAt indexes key none none :=
  fun _ _ => ⟨fun _ h => (nomatch h), fun _ h => (nomatch h)⟩

section Spec

variable {labels labels' : LabelSet} {props props' : PropertyMap}

/-- The loop over a footprint, whose visits see each value on one side or on both. -/
theorem each_footprint_ok (old new : Option Value → Option Value) (hold : old none = none)
    (hnew : new none = none) :
    each (fun b => commit b.1 (old (some b.2)) (new (some b.2)) row) (footprint labels.toList props)
        indexes = (.ok (), indexes') ↔
      (∀ key, AdmitsAt indexes key (old (indexableValue labels props key))
        (new (indexableValue labels props key))) ∧
      indexes' = fun key => (indexes key).map fun e =>
        e.settled (old (indexableValue labels props key)) (new (indexableValue labels props key)) row := by
  refine (each_commit_ok fst (fun b => old (some b.2)) (fun b => new (some b.2))
    (nodup_footprint (nodup_toList labels) props)).trans (and_congr ?_ ?_)
  · constructor
    · intro h key
      cases hv : indexableValue labels props key with
      | none =>
        rw [hold, hnew]
        exact admitsAt_none indexes key
      | some v => exact h (key, v) (mem_footprint_toList.2 hv)
    · rintro h ⟨key, v⟩ hm
      have := h key
      rwa [mem_footprint_toList.1 hm] at this
  · suffices visitAll fst (fun b => old (some b.2)) (fun b => new (some b.2)) row
        (footprint labels.toList props) indexes = _ by rw [this]
    funext key
    refine (footprint_loop (fun v (e : VectorIndexEntry) => e.settled (old (some v)) (new (some v)) row)
      labels props indexes key).trans ?_
    cases indexableValue labels props key with
    | none =>
      rw [hold, hnew]
      rfl
    | some v => rfl

theorem applyNodeCreate_ok : applyNodeCreate labels props row indexes = (.ok (), indexes') ↔
      Admitted indexes none (some (labels, props)) ∧
        indexes' = visited none (some (labels, props)) row indexes :=
  each_footprint_ok (fun _ => none) id rfl rfl

theorem applyNodeDelete_ok : applyNodeDelete labels props row indexes = (.ok (), indexes') ↔
      Admitted indexes (some (labels, props)) none ∧
        indexes' = visited (some (labels, props)) none row indexes :=
  each_footprint_ok id (fun _ => none) rfl rfl

theorem applyNodeUpdate_ok :
    applyNodeUpdate labels props labels' props' row indexes = (.ok (), indexes') ↔
      Admitted indexes (some (labels, props)) (some (labels', props')) ∧
        indexes' = visited (some (labels, props)) (some (labels', props')) row indexes := by
  refine (each_commit_ok id (indexableValue labels props) (indexableValue labels' props')
    (by rw [List.map_id]; exact nodup_candidateKeys)).trans (and_congr ?_ ?_)
  · constructor
    · intro h key
      by_cases hm : key ∈ candidateKeys (fun key => (indexes key).isSome) labels props labels' props'
      · exact h key hm
      · intro entry hk
        obtain ⟨hold, hnew⟩ := candidateKeys_of_notMem hm (by rw [hk]; rfl)
        simp only [payloadValue, bind_some, indexableValue_of_notMem hold,
          indexableValue_of_notMem hnew]
        exact admitsAt_none indexes key entry hk
    · intro h key _
      exact h key
  · suffices visitAll id (indexableValue labels props) (indexableValue labels' props') row
        (candidateKeys (fun key => (indexes key).isSome) labels props labels' props') indexes =
        visited (some (labels, props)) (some (labels', props')) row indexes by rw [this]
    funext key
    refine candidate_loop (fun k (e : VectorIndexEntry) => e.settled (indexableValue labels props k)
      (indexableValue labels' props' k) row) labels labels' props props' indexes ?_ key
    intro k hold hnew e
    rw [indexableValue_of_notMem hold, indexableValue_of_notMem hnew]
    rfl

end Spec

/-- The row set of every index: the live rows with a value it takes. -/
def Exact (indexes : VectorIndexMap) (payload : Row → Option Payload) : Prop :=
  ∀ key entry, indexes key = some entry →
    ∀ row, row ∈ entry.rows ↔ ∃ v, payloadValue key (payload row) = some v ∧ entry.admitValue v = .ok ()

theorem Exact.update {payload : Row → Option Payload} {new : Option Payload}
    (h : Exact indexes payload) (ha : Admitted indexes (payload row) new) :
    Exact (visited (payload row) new row indexes) (update payload row new) := by
  intro key entry' hentry r
  obtain ⟨entry, hkey, rfl⟩ := map_eq_some_iff.1 hentry
  obtain ⟨hold, hnew⟩ := ha key entry hkey
  simp only [settled_admitValue]
  by_cases hr : r = row
  · subst hr
    rw [update_self]
    cases hw : payloadValue key new with
    | some w =>
      have := hnew w hw
      simp [settled, insertValue, this]
    | none =>
      cases hv : payloadValue key (payload r) with
      | some v => simp [settled, removeRow]
      | none => simp [settled, h key entry hkey r, hv]
  · rw [update_of_ne hr, ← h key entry hkey r]
    unfold settled
    split <;> simp [insertValue, removeRow, hr]

end VectorIndex

/-! ## Text indexes -/

def payloadText (key : IndexKey) (p : Option Payload) : Option String :=
  p.bind fun p => indexableText p.1 p.2 key

theorem indexableText_eq (labels : LabelSet) (props : PropertyMap) (key : IndexKey) :
    indexableText labels props key = (indexableValue labels props key).bind fun v =>
      match v with
      | .string text => some text
      | _ => none := by
  unfold indexableText indexableValue
  split
  · cases hv : props[key.2]? with
    | none => rfl
    | some v => cases v <;> simp [Option.filter, Value.isNull]
  · rfl

namespace TextIndex

/-- The document a text makes: its tokens, if there are any. -/
def document (index : TextIndex) (text : Option String) : Option (List String) :=
  (text.map index.tokenize).filter (· ≠ [])

theorem document_some (index : TextIndex) (text : String) : index.document (some text) =
    if index.tokenize text = [] then none else some (index.tokenize text) := by
  by_cases h : index.tokenize text = [] <;> simp [document, Option.filter, h]

/-- The index holds the documents of the live nodes. -/
structure Exact (index : TextIndex) (key : IndexKey) (nodes : Row → Option NodeSlot) : Prop where
  rows : ∀ row, row ∈ index.rows ↔
    ∃ s, nodes row = some s ∧ index.document (indexableText s.labels s.properties key) ≠ none
  terms : ∀ node ts, index.documentTerms node = some ts ↔
    ∃ row s, nodes row = some s ∧ s.id = node ∧
      index.document (indexableText s.labels s.properties key) = some ts

variable {index : TextIndex} {row : Row} {node : NodeId}

theorem replaceDocument_tokenize (old new : Option String) :
    (index.replaceDocument old new row node).tokenize = index.tokenize := by
  unfold replaceDocument insertDocument removeDocument
  repeat' split
  all_goals rfl

/-- A visit leaves the row with the new document, whatever stood there, unless the document stays. -/
theorem replaceDocument_spec {old : Option String} (new : Option String)
    (hrow : row ∈ index.rows ↔ index.document old ≠ none)
    (hterms : index.documentTerms node = index.document old) :
    (∀ r, r ∈ (index.replaceDocument old new row node).rows ↔
        if r = row then index.document new ≠ none else r ∈ index.rows) ∧
      (index.replaceDocument old new row node).documentTerms =
        update index.documentTerms node (index.document new) := by
  have hinsert : ∀ text, (∀ r, r ∈ (index.insertDocument row node text).rows ↔
        if r = row then index.document (some text) ≠ none else r ∈ index.rows) ∧
      (index.insertDocument row node text).documentTerms =
        update index.documentTerms node (index.document (some text)) := by
    intro text
    unfold insertDocument
    split
    · next h =>
      rw [document_some, if_pos h]
      refine ⟨fun r => ?_, rfl⟩
      by_cases hr : r = row <;> simp [removeDocument, hr]
    · next h =>
      rw [document_some, if_neg h]
      refine ⟨fun r => ?_, rfl⟩
      by_cases hr : r = row <;> simp [hr]
  have hkeep : index.document old = index.document new → (∀ r, r ∈ index.rows ↔
        if r = row then index.document new ≠ none else r ∈ index.rows) ∧
      index.documentTerms = update index.documentTerms node (index.document new) := by
    intro h
    refine ⟨fun r => ?_, by rw [← h, ← hterms, update_eq_self]⟩
    by_cases hr : r = row
    · subst hr; rw [if_pos rfl, ← h]; exact hrow
    · rw [if_neg hr]
  unfold replaceDocument
  split
  · next text text' =>
    split
    · next h => exact hkeep (by rw [h])
    · exact hinsert text'
  · next text =>
    refine ⟨fun r => ?_, by simp [removeDocument, document]⟩
    by_cases hr : r = row <;> simp [removeDocument, document, hr]
  · next text' => exact hinsert text'
  · exact hkeep rfl

/-- **A visit keeps the index exact** when one live node changes its payload. No other live node
has its id. -/
theorem Exact.replace {key : IndexKey} {nodes : Row → Option NodeSlot} (h : Exact index key nodes)
    (row : Row) (node : NodeId) (new : Option NodeSlot)
    (hid : ∀ r s, nodes r = some s → (s.id = node ↔ r = row))
    (hnew : ∀ s, new = some s → s.id = node) :
    Exact (index.replaceDocument
        ((nodes row).bind fun s => indexableText s.labels s.properties key)
        (new.bind fun s => indexableText s.labels s.properties key) row node)
      key (update nodes row new) := by
  have hdoc : ∀ text, (index.replaceDocument
      ((nodes row).bind fun s => indexableText s.labels s.properties key)
      (new.bind fun s => indexableText s.labels s.properties key) row node).document text =
      index.document text := by
    intro text
    simp only [document, replaceDocument_tokenize]
  -- before the visit the index holds the old document of the node, and no other
  have hrow : row ∈ index.rows ↔ index.document
      ((nodes row).bind fun s => indexableText s.labels s.properties key) ≠ none := by
    rw [h.rows]
    cases nodes row <;> simp [document]
  have hterms : index.documentTerms node = index.document
      ((nodes row).bind fun s => indexableText s.labels s.properties key) := by
    ext ts
    rw [h.terms]
    constructor
    · rintro ⟨r, s, hs, hsid, hts⟩
      obtain rfl := (hid r s hs).1 hsid
      rw [hs]
      exact hts
    · intro hts
      cases hs : nodes row with
      | none => rw [hs] at hts; cases hts
      | some s => rw [hs] at hts; exact ⟨row, s, hs, (hid row s hs).2 rfl, hts⟩
  obtain ⟨hrows', hterms'⟩ := replaceDocument_spec
    (new.bind fun s => indexableText s.labels s.properties key) hrow hterms
  constructor
  · intro r
    simp only [hdoc]
    rw [hrows']
    by_cases hr : r = row
    · subst hr
      rw [if_pos rfl, update_self]
      cases new <;> simp [document]
    · rw [if_neg hr, update_of_ne hr, h.rows]
  · intro n ts
    simp only [hdoc]
    rw [hterms']
    by_cases hn : n = node
    · subst hn
      rw [update_self]
      constructor
      · intro hts
        cases hs : new with
        | none => rw [hs] at hts; cases hts
        | some s => rw [hs] at hts; exact ⟨row, s, update_self .., hnew s hs, hts⟩
      · rintro ⟨r, s, hs, hsid, hts⟩
        by_cases hr : r = row
        · subst hr
          rw [update_self] at hs
          rw [hs]
          exact hts
        · rw [update_of_ne hr] at hs
          exact absurd ((hid r s hs).1 hsid) hr
    · rw [update_of_ne hn, h.terms]
      constructor
      · rintro ⟨r, s, hs, hsid, hts⟩
        have hr : r ≠ row := fun hr => hn (by rw [← hsid]; exact (hid r s hs).2 hr)
        exact ⟨r, s, by rw [update_of_ne hr]; exact hs, hsid, hts⟩
      · rintro ⟨r, s, hs, hsid, hts⟩
        by_cases hr : r = row
        · subst hr
          rw [update_self] at hs
          exact absurd (hsid.symm.trans (hnew s hs)) hn
        · rw [update_of_ne hr] at hs
          exact ⟨r, s, hs, hsid, hts⟩

/-- What a data operation leaves at one index. -/
def visited (old new : Option Payload) (row : Row) (node : NodeId) (indexes : TextIndexMap) :
    TextIndexMap :=
  fun key => (indexes key).map fun index =>
    index.replaceDocument (payloadText key old) (payloadText key new) row node

variable (labels labels' : LabelSet) (props props' : PropertyMap) (row node)

variable (indexes : TextIndexMap)

theorem applyNodeCreate_apply : applyNodeCreate labels props row node indexes =
      visited none (some (labels, props)) row node indexes := by
  funext key
  refine (footprint_loop (fun v (index : TextIndex) => match v with
    | .string text => index.insertDocument row node text
    | _ => index) labels props indexes key).trans ?_
  simp only [visited, payloadText, bind_none, bind_some, indexableText_eq]
  congr 1
  funext index
  cases indexableValue labels props key with
  | none => rfl
  | some v => cases v <;> rfl

theorem applyNodeDelete_apply : applyNodeDelete labels props row node indexes =
      visited (some (labels, props)) none row node indexes := by
  funext key
  refine (footprint_loop (fun v (index : TextIndex) => match v with
    | .string _ => index.removeDocument row node
    | _ => index) labels props indexes key).trans ?_
  simp only [visited, payloadText, bind_none, bind_some, indexableText_eq]
  congr 1
  funext index
  cases indexableValue labels props key with
  | none => rfl
  | some v => cases v <;> rfl

theorem applyNodeUpdate_apply : applyNodeUpdate labels props labels' props' row node indexes =
      visited (some (labels, props)) (some (labels', props')) row node indexes := by
  funext key
  refine candidate_loop (fun k (index : TextIndex) => index.replaceDocument
    (indexableText labels props k) (indexableText labels' props' k) row node)
    labels labels' props props' indexes ?_ key
  intro k hold hnew index
  rw [indexableText_eq, indexableText_eq, indexableValue_of_notMem hold, indexableValue_of_notMem hnew]
  rfl

end TextIndex

/-! ## Label bitmaps -/

variable (labels : List DbString) (row r : Row) (index : DbString → Finset Row) (label : DbString)

open Mutator in
theorem mem_insertIndexRows :
    r ∈ labels.foldl (fun ix label => insertIndexRow label row ix) index label ↔
      r ∈ index label ∨ r = row ∧ label ∈ labels := by
  induction labels generalizing index with
  | nil => simp
  | cons l labels ih =>
    rw [foldl_cons, ih, insertIndexRow]
    by_cases h : label = l
    · subst h
      simp only [update_self, Finset.mem_insert, mem_cons, true_or, and_true]
      tauto
    · simp [h]

open Mutator in
theorem mem_removeIndexRows :
    r ∈ labels.foldl (fun ix label => removeIndexRow label row ix) index label ↔
      r ∈ index label ∧ ¬ (r = row ∧ label ∈ labels) := by
  induction labels generalizing index with
  | nil => simp
  | cons l labels ih =>
    rw [foldl_cons, ih, removeIndexRow]
    by_cases h : label = l
    · subst h
      simp only [update_self, Finset.mem_erase, mem_cons, true_or, and_true]
      tauto
    · simp [h]

end Selene.Graph
