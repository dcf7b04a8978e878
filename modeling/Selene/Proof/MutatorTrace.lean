import Selene.Proof.ReplayEquivalence

/-!
# What a refused operation leaves behind

A refused operation keeps what it wrote before the refusal. The checks that come first write
nothing; the one refusal that comes after a write is a vector index's. `LeavesNoTrace` says, for
every operation, when nothing was written before it (`refused_without_trace_iff`); operations
refused under it can be followed by others and a commit, so that runs of such transactions publish
consistent snapshots (`published_snapshots_consistent`) and log what they publish (`run_replays`).
-/

namespace Selene.Graph

open Mutator Attempt Function List Option VectorIndexEntry VectorIndex

variable {labels : LabelSet} {id : NodeId} {s : NodeSlot} {diff : PropertyDiff} {props : PropertyMap}
  {payload : Row → Option Payload}

/-! ## Indexes that a visit does not change -/

theorem PropertyIndexEntry.replaceCommit_name (entry : PropertyIndexEntry) (old new : Option Value)
    (row : Row) : (entry.replaceCommit old new row).name = entry.name := by
  unfold replaceCommit insertCommit removeCommit
  repeat' split
  all_goals rfl

theorem PropertyIndexEntry.eq_of_toIndex {entry entry' : PropertyIndexEntry}
    (hix : entry'.toIndex = entry.toIndex) (hkind : entry'.index.kind = entry.index.kind)
    (hname : entry'.name = entry.name) : entry' = entry := by
  obtain ⟨⟨kind, rows⟩, name, drifted⟩ := entry
  obtain ⟨⟨kind', rows'⟩, name', drifted'⟩ := entry'
  obtain ⟨rfl, rfl⟩ := Index.mk.inj hix
  obtain rfl := hkind
  obtain rfl := hname
  rfl

theorem PropertyIndex.visited_eq_self_iff {indexes : PropertyIndexMap}
    {row : Row} {new : Option Payload} (h : Exact indexes payload) :
    visited (payload row) new row indexes = indexes ↔ ∀ key entry, indexes key = some entry →
        (TypedIndex.keying entry.index.kind (payloadValue key (payload row))).filed =
          (TypedIndex.keying entry.index.kind (payloadValue key new)).filed := by
  refine Index.visits_eq_self_iff (v := PropertyIndexEntry.toIndex)
    (f := fun key entry p => TypedIndex.keying entry.index.kind (payloadValue key p)) h ?_ ?_
  · intro key entry hkey
    exact (h key entry hkey).visit (f := fun p => TypedIndex.keying _ (payloadValue key p))
      (entry.replaceCommit_toIndex _ _ row)
  · intro key entry hix
    exact PropertyIndexEntry.eq_of_toIndex hix (entry.replaceCommit_kind ..)
      (entry.replaceCommit_name ..)

theorem CompositePropertyIndexEntry.eq_of_toIndex {entry entry' : CompositePropertyIndexEntry}
    (hix : entry'.toIndex = entry.toIndex)
    (h : entry'.kinds = entry.kinds ∧ entry'.declaredProperties = entry.declaredProperties ∧
      entry'.name = entry.name) : entry' = entry := by
  obtain ⟨kinds, rows, properties, name, drifted⟩ := entry
  obtain ⟨kinds', rows', properties', name', drifted'⟩ := entry'
  obtain ⟨rfl, rfl⟩ := Index.mk.inj hix
  obtain ⟨rfl, rfl, rfl⟩ := h
  rfl

theorem CompositeIndex.visited_eq_self_iff {indexes : CompositeIndexMap}
    {row : Row} {new : Option Payload} (h : Exact indexes payload) :
    visited (payload row) new row indexes = indexes ↔ ∀ key entry, indexes key = some entry →
        (CompositePropertyIndexEntry.keying entry.kinds
            (payloadValues key.1 entry.declaredProperties (payload row))).filed =
          (CompositePropertyIndexEntry.keying entry.kinds
            (payloadValues key.1 entry.declaredProperties new)).filed := by
  refine Index.visits_eq_self_iff (v := CompositePropertyIndexEntry.toIndex)
    (f := fun (key : DbString × List DbString) entry p => CompositePropertyIndexEntry.keying entry.kinds
      (payloadValues key.1 entry.declaredProperties p)) h ?_ ?_
  · intro key entry hkey
    exact (h key entry hkey).visit (f := fun p => CompositePropertyIndexEntry.keying _
      (payloadValues key.1 _ p)) (entry.replaceCommit_toIndex _ _ row)
  · intro key entry hix
    exact CompositePropertyIndexEntry.eq_of_toIndex hix (entry.replaceCommit_declared ..)

/-! Of a vector index that has the row before and after, the search structure may change. -/

theorem upsert_eq_self_iff {α : Type} {p : α → Bool} {f : α → α} {new : α} {l : List α} :
    upsert p f new l = l ↔ (∃ a ∈ l, p a = true) ∧ ∀ a ∈ l, p a = true → f a = a := by
  unfold upsert
  split
  · next hany =>
    have hmap := map_inj_left (l := l) (f := fun a => if p a then f a else a) (g := id)
    rw [List.map_id] at hmap
    rw [and_iff_right (any_eq_true.1 hany), hmap]
    refine forall₂_congr fun a _ => ?_
    by_cases hp : p a = true <;> simp [hp]
  · next hany =>
    refine iff_of_false (by simp) fun h => hany (any_eq_true.2 h.1)

/-- The structure stores for the row what an insertion of the vector would store. An HNSW index gets a
new node with every insertion. -/
def Accelerator.Holds (row : Row) (vector : List UInt32) : Accelerator → Prop
  | .none => True
  | .hnsw _ => False
  | .ivf trained entries => (∃ e ∈ entries, e.row = row ∧ e.deleted = false) ∧
      ∀ e ∈ entries, e.row = row → e.deleted = false →
        e.vector = vector ∧ (trained = true → e.pendingRetrain = true)
  | .turboQuant encode slots => (∃ slot ∈ slots, slot.1 = row) ∧
      ∀ slot ∈ slots, slot.1 = row → slot.2 = encode vector

theorem Accelerator.insert_eq_self_iff {row : Row} {vector : List UInt32} {acc : Accelerator} :
    acc.insert row vector = acc ↔ acc.Holds row vector := by
  cases acc with
  | none => simp [Accelerator.insert, Holds]
  | hnsw nodes =>
    refine iff_of_false (fun h => ?_) id
    have := congrArg length (Accelerator.hnsw.inj h)
    simp [retire] at this
  | ivf trained entries =>
    have hentry : ∀ e : IvfEntry, { e with vector, pendingRetrain := e.pendingRetrain || trained } = e ↔
        e.vector = vector ∧ (trained = true → e.pendingRetrain = true) := by
      rintro ⟨r, v, d, pending⟩
      cases pending <;> cases trained <;> simp [eq_comm]
    simp [Accelerator.insert, Holds, upsert_eq_self_iff, hentry]
  | turboQuant encode slots =>
    simp only [Accelerator.insert, Holds, turboQuant.injEq, true_and, upsert_eq_self_iff,
      decide_eq_true_eq]
    refine and_congr_right fun _ => forall₂_congr fun slot _ => forall_congr' fun hrow => ?_
    obtain ⟨r, code⟩ := slot
    obtain rfl := hrow
    simp [eq_comm]

/-- A visit that leaves the index as it is: the row is filed on neither side, or on both and with what
the search structure holds of it. -/
def VectorIndexEntry.Unmoved (entry : VectorIndexEntry) (row : Row) : Option Value → Option Value → Prop
  | none, none => True
  | some _, some w => entry.accelerator.Holds row w.components
  | _, _ => False

namespace VectorIndex

instance (entry : VectorIndexEntry) (value : Option Value) : Decidable (entry.Admits value) :=
  match value with
  | none => isTrue nofun
  | some v => decidable_of_iff (entry.admitValue v = .ok ()) <| by simp [VectorIndexEntry.Admits]

instance (indexes : VectorIndexMap) (key : IndexKey) (old new : Option Value) :
    Decidable (AdmitsAt indexes key old new) :=
  match h : indexes key with
  | none => isTrue fun _ hentry => by rw [h] at hentry; cases hentry
  | some entry => decidable_of_iff (entry.Admits old ∧ entry.Admits new) <| by simp [AdmitsAt, h]

/-- The keys whose visits are made before the first refusal. -/
def beforeRefusal (indexes : VectorIndexMap) (order : List IndexKey) (old new : Option Payload) :
    List IndexKey :=
  order.takeWhile fun key => AdmitsAt indexes key (payloadValue key old) (payloadValue key new)

/-- What a refused loop leaves. -/
def visitedAt (keys : List IndexKey) (old new : Option Payload) (row : Row) (indexes : VectorIndexMap) :
    VectorIndexMap :=
  fun key => if key ∈ keys then visited old new row indexes key else indexes key

variable {indexes indexes' : VectorIndexMap} {row : Row} {old new : Option Payload}

theorem each_commit_refused {β : Type} (key : β → IndexKey) (v w : β → Option Value)
    (old new : Option Payload) {l : List β} {e : GraphError} (hl : (l.map key).Nodup)
    (hv : ∀ b ∈ l, v b = payloadValue (key b) old) (hw : ∀ b ∈ l, w b = payloadValue (key b) new)
    (h : each (fun b => commit (key b) (v b) (w b) row) l indexes = (.error e, indexes')) :
    ¬ Admitted indexes old new ∧
      indexes' = visitedAt (beforeRefusal indexes (l.map key) old new) old new row indexes := by
  obtain ⟨pre, c, post, rfl, hpre, hc, rfl⟩ := each_commit_error hl h
  rw [hv c (by simp), hw c (by simp)] at hc
  refine ⟨fun ha => hc (ha _), ?_⟩
  have hadmitted : ∀ b ∈ pre, AdmitsAt indexes (key b) (payloadValue (key b) old)
      (payloadValue (key b) new) := by
    intro b hb
    have := hpre b hb
    rwa [hv b (by simp [hb]), hw b (by simp [hb])] at this
  have hbefore : beforeRefusal indexes ((pre ++ c :: post).map key) old new = pre.map key := by
    unfold beforeRefusal
    rw [map_append, map_cons, takeWhile_append_of_pos, takeWhile_cons_of_neg, append_nil]
    · simpa using hc
    · intro k hk
      obtain ⟨b, hb, rfl⟩ := mem_map.1 hk
      simpa using hadmitted b hb
  rw [hbefore]
  rw [map_append, map_cons] at hl
  have hnodup := List.Nodup.of_append_left hl
  funext k
  unfold visitAll visitedAt
  by_cases hk : k ∈ pre.map key
  · obtain ⟨b, hb, rfl⟩ := mem_map.1 hk
    rw [if_pos hk, foldl_update_of_mem key (fun b o => o.map fun e : VectorIndexEntry =>
      e.settled (v b) (w b) row) hnodup hb, hv b (by simp [hb]), hw b (by simp [hb])]
    rfl
  · rw [if_neg hk, foldl_update_of_notMem key (fun b o => o.map fun e : VectorIndexEntry =>
      e.settled (v b) (w b) row) hk]

theorem applyNodeCreate_refused {e : GraphError}
    (h : applyNodeCreate labels props row indexes = (.error e, indexes')) :
    ¬ Admitted indexes none (some (labels, props)) ∧
      indexes' = visitedAt (beforeRefusal indexes ((footprint labels.toList props).map Prod.fst) none
        (some (labels, props))) none (some (labels, props)) row indexes := by
  refine each_commit_refused Prod.fst (fun _ => none) (fun b => some b.2) none (some (labels, props))
    (nodup_footprint (nodup_toList labels) props) (fun _ _ => rfl) ?_ h
  rintro ⟨key, v⟩ hm
  exact (mem_footprint_toList.1 hm).symm

theorem applyNodeDelete_refused {e : GraphError}
    (h : applyNodeDelete labels props row indexes = (.error e, indexes')) :
    ¬ Admitted indexes (some (labels, props)) none := by
  refine (each_commit_refused Prod.fst (fun b => some b.2) (fun _ => none) (some (labels, props)) none
    (nodup_footprint (nodup_toList labels) props) ?_ (fun _ _ => rfl) h).1
  rintro ⟨key, v⟩ hm
  exact (mem_footprint_toList.1 hm).symm

theorem applyNodeUpdate_refused {labels' : LabelSet} {props' : PropertyMap} {e : GraphError}
    (h : applyNodeUpdate labels props labels' props' row indexes = (.error e, indexes')) :
    ¬ Admitted indexes (some (labels, props)) (some (labels', props')) ∧
      indexes' = visitedAt (beforeRefusal indexes
        (candidateKeys (fun key => (indexes key).isSome) labels props labels' props')
        (some (labels, props)) (some (labels', props')))
        (some (labels, props)) (some (labels', props')) row indexes := by
  have := each_commit_refused id (indexableValue labels props) (indexableValue labels' props')
    (some (labels, props)) (some (labels', props')) (by rw [List.map_id]; exact nodup_candidateKeys)
    (fun _ _ => rfl) (fun _ _ => rfl) h
  rwa [List.map_id] at this

theorem settled_eq_self_iff (h : Exact indexes payload)
    {key : IndexKey} {entry : VectorIndexEntry} (hkey : indexes key = some entry)
    (ha : AdmitsAt indexes key (payloadValue key (payload row)) (payloadValue key new)) :
    entry.settled (payloadValue key (payload row)) (payloadValue key new) row = entry ↔
      entry.Unmoved row (payloadValue key (payload row)) (payloadValue key new) := by
  obtain ⟨hold, hnew⟩ := ha entry hkey
  have hrow : row ∈ entry.rows ↔ (payloadValue key (payload row)).isSome = true := by
    rw [h key entry hkey row, isSome_iff_exists]
    exact exists_congr fun v => and_iff_left_of_imp fun hv => hold v hv
  cases hv : payloadValue key (payload row) with
  | none =>
    cases payloadValue key new with
    | none => simp [settled, Unmoved]
    | some w =>
      have hnot : row ∉ entry.rows := by rw [hrow, hv]; simp
      refine iff_of_false (fun hsame => hnot ?_) id
      exact congrArg rows hsame ▸ Finset.mem_insert_self row entry.rows
  | some v =>
    have hin : row ∈ entry.rows := by rw [hrow, hv]; rfl
    cases payloadValue key new with
    | none =>
      refine iff_of_false (fun hsame => ?_) id
      have herase : entry.rows.erase row = entry.rows := congrArg rows hsame
      exact Finset.erase_eq_self.1 herase hin
    | some w =>
      -- the row set stays as it is: what is left is the search structure
      rw [Unmoved, ← Accelerator.insert_eq_self_iff, settled, insertValue, Finset.insert_eq_of_mem hin]
      exact ⟨congrArg accelerator, fun hsame => by rw [hsame]⟩

theorem visitedAt_eq_self_iff (h : Exact indexes payload) (order : List IndexKey) :
    visitedAt (beforeRefusal indexes order (payload row) new) (payload row) new row indexes = indexes ↔
      ∀ key ∈ beforeRefusal indexes order (payload row) new, ∀ entry, indexes key = some entry →
        entry.Unmoved row (payloadValue key (payload row)) (payloadValue key new) := by
  have hadmitted : ∀ key ∈ beforeRefusal indexes order (payload row) new,
      AdmitsAt indexes key (payloadValue key (payload row)) (payloadValue key new) := by
    intro key hkey
    have hall := all_takeWhile (l := order) (p := fun key =>
      decide (AdmitsAt indexes key (payloadValue key (payload row)) (payloadValue key new)))
    simpa using all_eq_true.1 hall key hkey
  constructor
  · intro hsame key hkey entry hentry
    refine (settled_eq_self_iff h hentry (hadmitted key hkey)).1 ?_
    have := congrFun hsame key
    rw [visitedAt, if_pos hkey, visited, hentry] at this
    exact Option.some.inj this
  · intro hsome
    funext key
    unfold visitedAt
    split
    · next hkey =>
      unfold visited
      cases hentry : indexes key with
      | none => rfl
      | some entry =>
        have hsame := (settled_eq_self_iff h hentry (hadmitted key hkey)).2
          (hsome key hkey entry hentry)
        rw [map_some, hsame]
    · rfl

end VectorIndex

/-! ## Refusals -/

variable {t t' : WriteTxn} {e : GraphError}

/-- Everything but the id allocator is as before. -/
def Untouched (t t' : WriteTxn) : Prop := t' = { t with allocator := t'.allocator }

theorem Untouched.refl (t : WriteTxn) : Untouched t t := rfl

theorem Untouched.graph (h : Untouched t t') : t'.graph = t.graph := by
  rw [h]

theorem Untouched.changes (h : Untouched t t') : t'.changes = t.changes := by
  rw [h]

/-- The property and composite indexes, and the vector indexes visited before the one that
refuses, hold of a row the same under the old and the new payload. -/
structure FiledAlike (g : SeleneGraph) (order : List IndexKey) (old new : Option Payload) (row : Row) :
    Prop where
  property : ∀ key entry, g.propertyIndex key = some entry →
    (TypedIndex.keying entry.index.kind (payloadValue key old)).filed =
      (TypedIndex.keying entry.index.kind (payloadValue key new)).filed
  composite : ∀ key entry, g.compositePropertyIndex key = some entry →
    (CompositePropertyIndexEntry.keying entry.kinds
        (payloadValues key.1 entry.declaredProperties old)).filed =
      (CompositePropertyIndexEntry.keying entry.kinds
        (payloadValues key.1 entry.declaredProperties new)).filed
  vector : ∀ key ∈ beforeRefusal g.vectorIndex order old new, ∀ entry, g.vectorIndex key = some entry →
    entry.Unmoved row (payloadValue key old) (payloadValue key new)

/-- The graph at a vector index's refusal of a create or an update. -/
def refusedGraph (g : SeleneGraph) (order : List IndexKey) (old new : Option Payload) (row : Row) :
    SeleneGraph :=
  { g with
    propertyIndex := PropertyIndex.visited old new row g.propertyIndex
    compositePropertyIndex := CompositeIndex.visited old new row g.compositePropertyIndex
    vectorIndex := visitedAt (beforeRefusal g.vectorIndex order old new) old new
      row g.vectorIndex }

theorem refusedGraph_eq_self_iff {g : SeleneGraph} (h : Derived g ∅ ∅) (order : List IndexKey)
    (row : Row) (new : Option Payload) :
    refusedGraph g order (g.nodePayload row) new row = g ↔
      FiledAlike g order (g.nodePayload row) new row := by
  constructor
  · intro hsame
    exact ⟨(PropertyIndex.visited_eq_self_iff h.property).1 (congrArg SeleneGraph.propertyIndex hsame),
      (CompositeIndex.visited_eq_self_iff h.composite).1
        (congrArg SeleneGraph.compositePropertyIndex hsame),
      (visitedAt_eq_self_iff h.vector order).1 (congrArg SeleneGraph.vectorIndex hsame)⟩
  · rintro ⟨hp, hc, hv⟩
    unfold refusedGraph
    rw [(PropertyIndex.visited_eq_self_iff h.property).2 hp,
      (CompositeIndex.visited_eq_self_iff h.composite).2 hc,
      (visitedAt_eq_self_iff h.vector order).2 hv]

/-- The order in which `create_node` visits the vector indexes. -/
def createOrder (labels : LabelSet) (props : PropertyMap) : List IndexKey :=
  (footprint labels.toList props).map Prod.fst

/-- The order in which an update visits them. -/
def updateOrder (g : SeleneGraph) (old new : Payload) : List IndexKey :=
  candidateKeys (fun key => (g.vectorIndex key).isSome) old.1 old.2 new.1 new.2

theorem onVectorIndex_bind_error {α : Type} {m : Attempt VectorIndexMap GraphError Unit}
    {k : Unit → Mutator α} (hk : ∀ t, (k () t).1.isOk = true)
    (h : (onVectorIndex m >>= k) t = (.error e, t')) :
    ∃ v, m t.graph.vectorIndex = (.error e, v) ∧
      t' = { t with graph := { t.graph with vectorIndex := v } } := by
  rcases bind_error.1 h with h | ⟨⟨⟩, s, -, h⟩
  · exact onVectorIndex_error.1 h
  · have := hk s
    rw [h] at this
    cases this

theorem createNode_refused (h : createNode labels props t = (.error e, t')) :
    Untouched t t' ∧ (∀ props', prepareNode t.graph labels props = .ok props' →
        t.allocator.nextNodeId + 1 < 2 ^ 64 → maxRows ≤ t.graph.nodeStore.length) ∨
      ∃ props', prepareNode t.graph labels props = .ok props' ∧
        t.allocator.nextNodeId + 1 < 2 ^ 64 ∧ t.graph.nodeStore.length < maxRows ∧
        t' = { t with
          graph := refusedGraph t.graph (createOrder labels props') none (some (labels, props'))
            t.graph.nodeStore.length
          allocator := { t.allocator with nextNodeId := t.allocator.nextNodeId + 1 } } := by
  rcases check_bind_error.1 h with ⟨hprep, rfl⟩ | ⟨props', hprep, h⟩
  · refine .inl ⟨.refl _, fun props' hprep' => ?_⟩
    rw [hprep] at hprep'
    cases hprep'
  rcases bind_error.1 h with h | ⟨id, s, halloc, h⟩
  · unfold allocateNode at h
    split at h
    · cases h
    · next hfull =>
      cases h
      exact .inl ⟨.refl _, fun _ _ hspace => absurd hspace hfull⟩
  obtain ⟨hspace, rfl, rfl⟩ := allocateNode_ok.1 halloc
  rcases check_bind_error.1 h with ⟨hrow, rfl⟩ | ⟨row, hrow, h⟩
  · refine .inl ⟨rfl, fun _ _ _ => ?_⟩
    unfold nextRow at hrow
    split at hrow
    · cases hrow
    · next hlen => exact not_lt.1 hlen
  obtain ⟨hlen, rfl⟩ := nextRow_ok.1 hrow
  obtain ⟨v, hvec, rfl⟩ := onVectorIndex_bind_error (fun _ => rfl) h
  obtain ⟨-, rfl⟩ := applyNodeCreate_refused hvec
  refine .inr ⟨props', hprep, hspace, hlen, ?_⟩
  simp only [refusedGraph, createOrder, PropertyIndex.applyNodeCreate_apply,
    CompositeIndex.applyNodeCreate_apply]

theorem updateIndexes_refused {row : Row} {labels' : LabelSet} {props' : PropertyMap}
    (h : updateIndexes id row labels props labels' props' t = (.error e, t')) :
    t' = { t with
      graph := refusedGraph t.graph (updateOrder t.graph (labels, props) (labels', props'))
        (some (labels, props)) (some (labels', props')) row } := by
  unfold updateIndexes at h
  obtain ⟨v, hvec, rfl⟩ := onVectorIndex_bind_error (fun _ => rfl) h
  obtain ⟨-, rfl⟩ := applyNodeUpdate_refused hvec
  simp only [refusedGraph, updateOrder, refileNode, PropertyIndex.applyNodeUpdate_apply,
    CompositeIndex.applyNodeUpdate_apply]

theorem updateNode_refused {labelsDiff : LabelDiff} (h : updateNode id labelsDiff diff t = (.error e, t')) :
    t' = t ∧ (∀ found, prepareUpdate t.graph id labelsDiff diff ≠ .ok found) ∨
      ∃ row s diff' props, prepareUpdate t.graph id labelsDiff diff = .ok (row, s, diff', props) ∧
        t' = { t with
          graph := refusedGraph t.graph
            (updateOrder t.graph (s.labels, s.properties) (applyLabelDiff s.labels labelsDiff, props))
            (some (s.labels, s.properties)) (some (applyLabelDiff s.labels labelsDiff, props)) row } := by
  rcases check_bind_error.1 h with ⟨hprep, rfl⟩ | ⟨⟨row, s, diff', props⟩, hprep, h⟩
  · refine .inl ⟨rfl, fun found hfound => ?_⟩
    rw [hprep] at hfound
    cases hfound
  · rcases bind_error.1 h with h | ⟨⟨⟩, t1, -, h⟩
    · exact .inr ⟨row, s, diff', props, hprep, updateIndexes_refused h⟩
    · cases h

/-! ### Edges -/

theorem untouched_of_check {α β : Type} {g : WriteTxn → Except GraphError α} {k : α → Mutator β}
    (h : (check g >>= k) t = (.error e, t'))
    (hk : ∀ a, k a t = (.error e, t') → Untouched t t') : Untouched t t' := by
  rcases check_bind_error.1 h with ⟨-, rfl⟩ | ⟨a, -, h⟩
  · exact .refl _
  · exact hk a h

theorem createMixedEdge_refused {label : DbString} {first second : NodeId} {d : EdgeDirectionality}
    (h : createMixedEdge label first second d props t = (.error e, t')) : Untouched t t' := by
  refine untouched_of_check h fun props' h => ?_
  rcases bind_error.1 h with h | ⟨id, s, halloc, h⟩
  · unfold allocateEdge at h
    split at h <;> cases h
    exact .refl _
  obtain ⟨-, rfl, rfl⟩ := allocateEdge_ok.1 halloc
  rcases check_bind_error.1 h with ⟨-, rfl⟩ | ⟨⟨⟩, -, h⟩
  · rfl
  rcases check_bind_error.1 h with ⟨-, rfl⟩ | ⟨⟨⟩, -, h⟩
  · rfl
  rcases check_bind_error.1 h with ⟨-, rfl⟩ | ⟨row, -, h⟩
  · rfl
  · cases h

theorem updateEdge_refused {id : EdgeId} (h : updateEdge id diff t = (.error e, t')) : Untouched t t' :=
  untouched_of_check h fun _ h => by cases h

theorem removeEdgeProperty_refused {id : EdgeId} {property : DbString}
    (h : removeEdgeProperty id property t = (.error e, t')) : Untouched t t' := by
  refine untouched_of_check h fun ⟨row, s⟩ h => ?_
  dsimp only at h
  split at h
  · exact untouched_of_check h fun _ h => by cases h
  · cases h

/-! ### Removals from a node -/

theorem not_untouched_of_setNode {g' : SeleneGraph} {row : Row} (hs : t.graph.nodeAt row = some s)
    (hstore : g'.nodeStore = t.graph.nodeStore.modify row fun s => { s with labels, properties := props })
    (hne : labels ≠ s.labels ∨ props ≠ s.properties) : ¬ Untouched t { t with graph := g' } := by
  intro hsame
  have hgraph : g' = t.graph := hsame.graph
  have hget := (t.graph.nodeAt_eq_some.1 hs).1
  have hrow : (t.graph.nodeStore.modify row fun s => { s with labels, properties := props })[row]? =
      some { s with labels, properties := props } := by
    simp [hget]
  rw [← hstore, hgraph, hget, Option.some.injEq] at hrow
  rcases hne with hne | hne
  · exact hne (congrArg NodeSlot.labels hrow).symm
  · exact hne (congrArg NodeSlot.properties hrow).symm

theorem removeNodeProperty_refused {property : DbString}
    (h : removeNodeProperty id property t = (.error e, t')) :
    Untouched t t' ↔ ∀ row s, t.graph.requireLiveNode id = .ok (row, s) → property ∈ s.properties →
      rejectImmutableNodeUpdate t.graph id s.labels (removalDiff property) ≠ .ok () := by
  rcases check_bind_error.1 h with ⟨hlive, rfl⟩ | ⟨⟨row, s⟩, hlive, h⟩
  · refine iff_of_true (.refl _) fun row s hlive' => ?_
    rw [hlive] at hlive'
    cases hlive'
  dsimp only at h
  split at h
  · next hp =>
    rcases check_bind_error.1 h with ⟨himm, rfl⟩ | ⟨⟨⟩, himm, h⟩
    · refine iff_of_true (.refl _) fun row' s' hlive' _ => ?_
      obtain ⟨rfl, rfl⟩ := Prod.mk.inj (Except.ok.inj (hlive.symm.trans hlive'))
      rw [himm]
      simp
    · rw [onGraph_bind] at h
      rcases bind_error.1 h with h | ⟨⟨⟩, t1, -, h⟩
      · rw [updateIndexes_refused h]
        refine iff_of_false (not_untouched_of_setNode (requireLiveNode_ok.1 hlive).2 rfl (.inr ?_))
          fun hall => hall row s hlive hp himm
        intro hsame
        rw [← hsame] at hp
        simp at hp
      · cases h
  · cases h

theorem removeNodeLabel_refused {label : DbString} (h : removeNodeLabel id label t = (.error e, t')) :
    Untouched t t' ↔ ∀ row s, t.graph.requireLiveNode id = .ok (row, s) → label ∉ s.labels := by
  rcases check_bind_error.1 h with ⟨hlive, rfl⟩ | ⟨⟨row, s⟩, hlive, h⟩
  · refine iff_of_true (.refl _) fun row s hlive' => ?_
    rw [hlive] at hlive'
    cases hlive'
  dsimp only at h
  split at h
  · next hl =>
    rw [onGraph_bind] at h
    rcases bind_error.1 h with h | ⟨⟨⟩, t1, -, h⟩
    · rw [updateIndexes_refused h]
      refine iff_of_false (not_untouched_of_setNode (requireLiveNode_ok.1 hlive).2 rfl (.inl ?_))
        fun hall => hall row s hlive hl
      intro hsame
      rw [← hsame] at hl
      simp at hl
    · cases h
  · cases h

/-! ### `delete_elements` -/

theorem removeNodeRow_refused {row : Row} (h : removeNodeRow id row s t = (.error e, t')) :
    ¬ Deletable t.graph s ∧ t'.changes = t.changes ∧
      t'.graph.idxLabel = s.labels.toList.foldl (fun ix label => removeIndexRow label row ix)
        t.graph.idxLabel := by
  rcases check_bind_error.1 h with ⟨hinc, -⟩ | ⟨edges, -, h⟩
  · cases hinc
  obtain ⟨v, hvec, rfl⟩ := onVectorIndex_bind_error (fun _ => rfl) h
  exact ⟨applyNodeDelete_refused hvec, rfl, rfl⟩

theorem exists_label_of_not_deletable {g : SeleneGraph} (h : ¬ Deletable g s) :
    ∃ label, label ∈ s.labels := by
  by_contra hnone
  refine h fun key => ?_
  have hold : payloadValue key (some (s.labels, s.properties)) = none := by
    refine eq_none_iff_forall_ne_some.2 fun v hv => ?_
    exact hnone ⟨key.1, (indexableValue_eq_some.1 hv).1⟩
  rw [hold]
  exact admitsAt_none g.vectorIndex key

theorem deleteNode_refused (h : Derived t.graph ∅ ∅)
    (hs : LiveNode t.graph id s) (hrun : deleteNode id t = (.error e, t')) :
    t'.changes = t.changes ∧ t'.graph ≠ t.graph := by
  obtain ⟨row, hrow, hat⟩ := hs
  have hnot : ¬ Deletable t.graph s := by
    intro hadm
    obtain ⟨g', hok, -⟩ := deleteNode_spec h hrow hat hadm
    rw [hrun] at hok
    cases hok
  rcases check_bind_error.1 hrun with ⟨hlive, -⟩ | ⟨⟨row', s'⟩, hlive, hrun⟩
  · rw [requireLiveNode_ok.2 ⟨hrow, hat⟩] at hlive
    cases hlive
  obtain ⟨hrow', hat'⟩ := requireLiveNode_ok.1 hlive
  obtain rfl := mem_unique hrow hrow'
  obtain rfl := mem_unique hat hat'
  rcases bind_error.1 hrun with hrun | ⟨incident, t1, hremove, -⟩
  · obtain ⟨-, hchanges, hidx⟩ := removeNodeRow_refused hrun
    refine ⟨hchanges, fun hsame => ?_⟩
    obtain ⟨label, hl⟩ := exists_label_of_not_deletable hnot
    have hin : row ∈ t.graph.idxLabel label := (h.labels label row).2 ⟨s, hat, hl⟩
    rw [← hsame, hidx, mem_removeIndexRows] at hin
    exact hin.2 ⟨rfl, Std.ExtTreeSet.mem_toList.2 hl⟩
  · exact absurd (removeNodeRow_ok.1 hremove).1 hnot

/-- A refused `delete_elements` was refused by its first check or by a vector index, and then the
node it refused is half removed or a node before it is gone. -/
theorem deleteElements_refused (h : Derived t.graph ∅ ∅) {nodes : List NodeId} {edges : List EdgeId}
    (hrun : deleteElements nodes edges t = (.error e, t')) :
    Untouched t t' ↔ validateDeleteSet t.graph nodes edges ≠ .ok () := by
  rcases check_bind_error.1 hrun with ⟨hset, rfl⟩ | ⟨⟨⟩, hset, hrun⟩
  · refine iff_of_true (.refl _) ?_
    rw [hset]
    simp
  refine iff_of_false ?_ fun hne => hne hset
  obtain ⟨hnodes, hedges⟩ := validateDeleteSet_ok hset
  -- what the turns before the refusal keep
  let I (u : WriteTxn) : Prop := Derived u.graph ∅ ∅ ∧ u.graph.nodeRows = t.graph.nodeRows ∧
    u.graph.edgeRows = t.graph.edgeRows ∧ (u = t ∨ t.changes.length < u.changes.length)
  have hturn : ∀ (id : NodeId) (u u' : WriteTxn), I u → deleteLiveNode id u = (.ok (), u') → I u' := by
    rintro id u u' ⟨hd, hrows, herows, hlog⟩ hid
    obtain ⟨b, -, hid⟩ := check_bind_ok.1 hid
    cases b with
    | false => cases hid; exact ⟨hd, hrows, herows, hlog⟩
    | true =>
      obtain ⟨s, ⟨row, hrow, hs⟩, hadm⟩ := deleteNode_ok hid
      obtain ⟨g', hid', hd', hrem⟩ := deleteNode_spec hd hrow hs hadm
      cases hid.symm.trans hid'
      refine ⟨hd', hrem.nodeRows.trans hrows, hrem.edgeRows.trans herows, .inr ?_⟩
      have hle : t.changes.length ≤ u.changes.length := by
        rcases hlog with rfl | hlt
        · exact le_rfl
        · exact hlt.le
      simp only [length_append, length_cons]
      omega
  have hkept : ∀ {ids : List NodeId} {u}, each deleteLiveNode ids t = (.ok (), u) → I u := fun hrun =>
    each_ok (I := fun _ u => I u) (fun id _ u u' hI hb => hturn id u u' hI hb) ⟨h, rfl, rfl, .inl rfl⟩ hrun
  rcases bind_error.1 hrun with hrun | ⟨⟨⟩, u, hloop, hrun⟩
  · obtain ⟨pre, id, post, u, rfl, hpre, hid⟩ := each_error hrun
    obtain ⟨hd, hrows, -, hlog⟩ := hkept hpre
    have hknown : u.graph.nodeRows id ≠ none := by
      rw [hrows]
      exact hnodes id (by simp)
    rcases hd.nodeCanBeDeleted hknown with ⟨hcan, s, hs⟩ | ⟨hcan, -⟩
    all_goals rw [deleteLiveNode, Attempt.bind_apply, check_apply, hcan] at hid
    · obtain ⟨hchanges, hgraph⟩ := deleteNode_refused hd hs hid
      intro hsame
      rcases hlog with rfl | hlt
      · exact hgraph hsame.graph
      · rw [← hsame.changes, hchanges] at hlt
        exact lt_irrefl _ hlt
    · cases hid
  · -- the edges that were checked can all be deleted
    obtain ⟨hd, -, herows, -⟩ := hkept hloop
    obtain ⟨g', cs, hok, -⟩ := each_deleteLiveEdge hd (by rwa [herows])
    rw [hrun] at hok
    cases hok

/-! ## All operations on elements -/

/-- Truncations and the reset. -/
def DataOperation.isBulk : DataOperation → Bool
  | .truncateNodeType _ | .truncateEdgeType _ | .factoryReset => true
  | _ => false

/-- When a refused operation has written nothing: a create or an update, when no index it comes to
before the refusal files the row differently; a removal from a node or a deletion, when it was
refused by a check and not by a vector index; an operation on edges, always. -/
def DataOperation.LeavesNoTrace (t : WriteTxn) : DataOperation → Prop
  | .createNode labels props => ∀ props', prepareNode t.graph labels props = .ok props' →
      t.allocator.nextNodeId + 1 < 2 ^ 64 → t.graph.nodeStore.length < maxRows →
        FiledAlike t.graph (createOrder labels props') none (some (labels, props'))
          t.graph.nodeStore.length
  | .updateNode id labelsDiff diff => ∀ row s diff' props,
      prepareUpdate t.graph id labelsDiff diff = .ok (row, s, diff', props) →
        FiledAlike t.graph
          (updateOrder t.graph (s.labels, s.properties) (applyLabelDiff s.labels labelsDiff, props))
          (some (s.labels, s.properties)) (some (applyLabelDiff s.labels labelsDiff, props)) row
  | .removeNodeProperty id property => ∀ row s, t.graph.requireLiveNode id = .ok (row, s) →
      property ∈ s.properties →
        rejectImmutableNodeUpdate t.graph id s.labels (removalDiff property) ≠ .ok ()
  | .removeNodeLabel id label => ∀ row s, t.graph.requireLiveNode id = .ok (row, s) → label ∉ s.labels
  | .deleteNode id => ∀ s, ¬ LiveNode t.graph id s
  | .deleteElements nodes edges => validateDeleteSet t.graph nodes edges ≠ .ok ()
  | _ => True

section

variable (h : Derived t.graph ∅ ∅)
include h

theorem createNode_untouched_iff (hrun : createNode labels props t = (.error e, t')) :
    Untouched t t' ↔ DataOperation.LeavesNoTrace t (.createNode labels props) := by
  rcases createNode_refused hrun with ⟨hsame, hfull⟩ | ⟨props', hprep, hspace, hlen, rfl⟩
  · refine iff_of_true hsame fun props' hprep hspace hlen => ?_
    exact absurd hlen (not_lt.2 (hfull props' hprep hspace))
  · have hnone : t.graph.nodePayload t.graph.nodeStore.length = none := by
      rw [SeleneGraph.nodePayload, t.graph.nodeAt_eq_none le_rfl]
      rfl
    have hiff := refusedGraph_eq_self_iff h (createOrder labels props') t.graph.nodeStore.length
      (some (labels, props'))
    rw [hnone] at hiff
    constructor
    · intro hsame props'' hprep' _ _
      obtain rfl := Except.ok.inj (hprep.symm.trans hprep')
      exact hiff.1 hsame.graph
    · intro hfiled
      unfold Untouched
      rw [hiff.2 (hfiled props' hprep hspace hlen)]

theorem updateNode_untouched_iff {labelsDiff : LabelDiff}
    (hrun : updateNode id labelsDiff diff t = (.error e, t')) :
    Untouched t t' ↔ DataOperation.LeavesNoTrace t (.updateNode id labelsDiff diff) := by
  rcases updateNode_refused hrun with ⟨rfl, hnone⟩ | ⟨row, s, diff', props, hprep, rfl⟩
  · exact iff_of_true (.refl _) fun row s diff' props hprep => absurd hprep (hnone _)
  · have hpayload : t.graph.nodePayload row = some (s.labels, s.properties) := by
      rw [SeleneGraph.nodePayload, (prepareUpdate_ok hprep).2.1]
      rfl
    have hiff := refusedGraph_eq_self_iff h
      (updateOrder t.graph (s.labels, s.properties) (applyLabelDiff s.labels labelsDiff, props)) row
      (some (applyLabelDiff s.labels labelsDiff, props))
    rw [hpayload] at hiff
    constructor
    · intro hsame row' s' diff'' props'' hprep'
      cases hprep.symm.trans hprep'
      exact hiff.1 hsame.graph
    · intro hfiled
      unfold Untouched
      rw [hiff.2 (hfiled row s diff' props hprep)]

theorem deleteNode_untouched_iff (hrun : deleteNode id t = (.error e, t')) :
    Untouched t t' ↔ ∀ s, ¬ LiveNode t.graph id s := by
  by_cases hlive : ∃ s, LiveNode t.graph id s
  · obtain ⟨s, hs⟩ := hlive
    exact iff_of_false (fun hsame => (deleteNode_refused h hs hrun).2 hsame.graph) fun hdead => hdead s hs
  · push Not at hlive
    refine iff_of_true ?_ hlive
    rcases check_bind_error.1 hrun with ⟨-, rfl⟩ | ⟨⟨row, s⟩, hfound, -⟩
    · exact .refl _
    · exact absurd ⟨row, requireLiveNode_ok.1 hfound⟩ (hlive s)

omit h in
theorem deleteEdge_refused {id : EdgeId} (hrun : deleteEdge id t = (.error e, t')) :
    Untouched t t' :=
  untouched_of_check hrun fun _ h => by cases h

theorem DataOperation.untouched_iff {op : DataOperation}
    (hop : op.isBulk = false) (hrun : op.run t = (.error e, t')) :
    Untouched t t' ↔ op.LeavesNoTrace t := by
  cases op with
  | createNode labels props =>
    rcases bind_error.1 hrun with hrun | ⟨id, t1, -, hrun⟩
    · exact createNode_untouched_iff h hrun
    · cases hrun
  | createMixedEdge label first second d props =>
    rcases bind_error.1 hrun with hrun | ⟨id, t1, -, hrun⟩
    · exact iff_of_true (createMixedEdge_refused hrun) trivial
    · cases hrun
  | updateNode id labelsDiff diff => exact updateNode_untouched_iff h hrun
  | updateEdge id diff => exact iff_of_true (updateEdge_refused hrun) trivial
  | removeNodeProperty id property => exact removeNodeProperty_refused hrun
  | removeEdgeProperty id property => exact iff_of_true (removeEdgeProperty_refused hrun) trivial
  | removeNodeLabel id label => exact removeNodeLabel_refused hrun
  | deleteNode id => exact deleteNode_untouched_iff h hrun
  | deleteEdge id => exact iff_of_true (deleteEdge_refused hrun) trivial
  | deleteElements nodes edges => exact deleteElements_refused h hrun
  | truncateNodeType label => cases hop
  | truncateEdgeType label => cases hop
  | factoryReset => cases hop

end

/-! ## Transactions that go on after a refusal -/

/-- Every refused call is one on elements that has left no trace. -/
def DataOperation.Clean : List DataOperation → WriteTxn → Prop
  | [], _ => True
  | op :: ops, t =>
    (∀ e, (op.run t).1 = .error e → op.isBulk = false ∧ op.LeavesNoTrace t) ∧ Clean ops (op.run t).2

open DataOperation

/-- **The run rule**: what returned calls keep, and what does not depend on the allocator's progress,
holds after calls of which the refused ones have left no trace. -/
theorem runAll_keeps {I : WriteTxn → Prop} (hderived : ∀ {t}, I t → Derived t.graph ∅ ∅)
    (hok : ∀ {op : DataOperation} {t t'}, I t → op.run t = (.ok (), t') → I t')
    (hsame : ∀ {t t'}, I t → Advances t t' → Untouched t t' → I t')
    {ops : List DataOperation} (h : I t) (hclean : Clean ops t) :
    I (runAll ops t) := by
  induction ops generalizing t with
  | nil => exact h
  | cons op ops ih =>
    obtain ⟨hop, hclean⟩ := hclean
    refine ih ?_ hclean
    have hadv := Advances.run op t
    rcases hrun : op.run t with ⟨res, t'⟩
    rw [hrun] at hop hadv
    cases res with
    | ok u => exact hok h hrun
    | error e =>
      obtain ⟨hbulk, htrace⟩ := hop e rfl
      exact hsame h hadv ((untouched_iff (hderived h) hbulk hrun).2 htrace)

theorem Intact.untouched (h : Intact t) (hadv : Advances t t') (hsame : Untouched t t') : Intact t' := by
  have hfloor := h.floor.mono hadv.1 hadv.2
  rw [← hsame.graph] at hfloor
  exact ⟨hsame.graph ▸ h.derived, hfloor⟩

theorem Logged.untouched (hsame : Untouched t t') : Logged t t' :=
  ⟨[], by rw [hsame.changes, append_nil], fun r hr => ⟨r, rfl, hsame.graph ▸ hr⟩⟩

theorem runAll_logged {ops : List DataOperation} (h : Sound t) (hclean : Clean ops t) :
    Logged t (runAll ops t) ∧ Sound (runAll ops t) := by
  refine runAll_keeps (I := fun u => Logged t u ∧ Sound u) (fun hu => hu.2.intact.derived)
    (fun hu hrun => ?_) (fun hu hadv hsame => ?_) ⟨.refl t, h⟩ hclean
  · obtain ⟨hlog, hsound⟩ := run_logged hu.2 hrun
    exact ⟨hu.1.trans hlog, hsound⟩
  · refine ⟨hu.1.trans (.untouched hsame), hu.2.intact.untouched hadv hsame, ?_⟩
    rw [hsame.graph]
    exact hu.2.stored

theorem runAll_advances (ops : List DataOperation) (t : WriteTxn) :
    Advances t (runAll ops t) := by
  induction ops generalizing t with
  | nil => exact .refl t
  | cons op ops ih => exact (Advances.run op t).trans (ih _)

theorem clean_of_returned {ops : List DataOperation} {t : WriteTxn}
    (h : (each DataOperation.run ops t).1.isOk = true) : Clean ops t := by
  induction ops generalizing t with
  | nil => trivial
  | cons op ops ih =>
    rw [each_cons, Attempt.bind_apply] at h
    rw [Clean]
    rcases hrun : op.run t with ⟨res, t'⟩
    rw [hrun] at h
    cases res with
    | ok u => exact ⟨nofun, ih h⟩
    | error e => cases h

/-! ## Runs -/

namespace SharedGraph

/-- In every transaction that commits, the refused calls have left no trace. -/
def CleanRun (s : SharedGraph) : List Transaction → Prop
  | [] => True
  | txn :: txns => (txn.commits = true → Clean txn.operations s.beginWrite) ∧
      (s.transact txn).CleanRun txns

/-- The change lists of the transactions that commit, in order. -/
def history (s : SharedGraph) : List Transaction → List Change
  | [] => []
  | txn :: txns =>
    (if txn.commits then (runAll txn.operations s.beginWrite).changes else []) ++
      (s.transact txn).history txns

variable {s : SharedGraph} {txn : Transaction} {txns : List Transaction}

theorem transact_intact (h : s.Intact)
    (hclean : txn.commits = true → Clean txn.operations s.beginWrite) :
    (s.transact txn).Intact := by
  have hadv := runAll_advances txn.operations s.beginWrite
  rw [transact]
  cases hc : txn.commits with
  | false => exact ⟨h.consistent, h.floor.mono hadv.1 hadv.2⟩
  | true =>
    have ht := runAll_keeps (I := Graph.Intact) Intact.derived (fun h => DataOperation.run_intact h)
      Intact.untouched (h.operations (l := []) rfl) (hclean hc)
    exact ⟨assertIndexesConsistent_iff.2 ht.derived, ht.floor⟩

theorem run_intact (h : s.Intact) (hclean : s.CleanRun txns) : (txns.foldl transact s).Intact := by
  induction txns generalizing s with
  | nil => exact h
  | cons txn txns ih => exact ih (transact_intact h hclean.1) hclean.2

/-- A graph with the content of the one before a run is brought to the content of the one behind it. -/
theorem history_replays (h : s.Sound) (hclean : s.CleanRun txns) :
    ∀ {r : SeleneGraph}, SameContent r s.snapshot →
    ∃ r', Replay.applyAll r (s.history txns) = .ok r' ∧
      SameContent r' (txns.foldl transact s).snapshot := by
  induction txns generalizing s with
  | nil => exact fun {r} hr => ⟨r, rfl, hr⟩
  | cons txn txns ih =>
    intro r hr
    have hintact := transact_intact h.intact hclean.1
    rw [history, foldl_cons]
    cases hc : txn.commits with
    | false =>
      have hkept : (s.transact txn).snapshot = s.snapshot := by simp [transact, hc]
      rw [← hkept] at hr
      exact ih ⟨hintact, hkept ▸ h.stored⟩ hclean.2 hr
    | true =>
      have hnew : (s.transact txn).snapshot =
          (runAll txn.operations s.beginWrite).graph := by simp [transact, hc]
      obtain ⟨⟨cs, hcs, hreplay⟩, hsound⟩ := runAll_logged h.beginWrite (hclean.1 hc)
      obtain ⟨r₁, happly, hr₁⟩ := hreplay r hr
      rw [← hnew] at hr₁
      obtain ⟨r', hrest, hr'⟩ := ih ⟨hintact, hnew ▸ hsound.stored⟩ hclean.2 hr₁
      rw [if_pos rfl, hcs]
      exact ⟨r', (Replay.applyAll_append happly).trans hrest, hr'⟩

end SharedGraph

open SharedGraph

/-- **Refused operations.** On a consistent working graph a refused operation on elements leaves
everything but the id allocator as it was exactly when `LeavesNoTrace` holds of it; and a
transaction that goes on after such refusals ends with a consistent graph whose change list
replays to it. -/
theorem refused_without_trace_iff (s : SharedGraph) (ops : List DataOperation) :
    (∀ (op : DataOperation) (t t' : WriteTxn) (e : GraphError), AssertIndexesConsistent t.graph →
      op.isBulk = false → op.run t = (.error e, t') → (Untouched t t' ↔ op.LeavesNoTrace t)) ∧
    (s.Sound → Clean ops s.beginWrite →
      AssertIndexesConsistent (runAll ops s.beginWrite).graph ∧
      ∃ r, Replay.applyAll s.snapshot (runAll ops s.beginWrite).changes = .ok r ∧
        (∀ id, r.node id = (runAll ops s.beginWrite).graph.node id) ∧
        ∀ id, r.edge id = (runAll ops s.beginWrite).graph.edge id) := by
  refine ⟨fun op t t' e hc hop hrun => ?_, fun h hclean => ?_⟩
  · exact untouched_iff (assertIndexesConsistent_iff.1 hc) hop hrun
  · obtain ⟨⟨cs, hcs, hreplay⟩, hsound⟩ := runAll_logged h.beginWrite hclean
    obtain ⟨r, happly, hr⟩ := hreplay s.snapshot (SameContent.refl s.snapshot)
    refine ⟨assertIndexesConsistent_iff.2 hsound.intact.derived, r, ?_, hr.node, hr.edge⟩
    rw [hcs]
    exact happly

/-- **Derived state.** A data operation that returns takes a consistent graph to a consistent graph,
and keeps the ids below the allocator's marks; and a run publishes consistent snapshots only, if the
calls refused in its committed transactions have left no trace. -/
theorem published_snapshots_consistent (s : SharedGraph) (txns : List Transaction) :
    (∀ (op : DataOperation) (t t' : WriteTxn), AssertIndexesConsistent t.graph →
      AllocatorFloor t.graph t.allocator → op.run t = (.ok (), t') →
        AssertIndexesConsistent t'.graph ∧ AllocatorFloor t'.graph t'.allocator) ∧
    (s.Intact → s.CleanRun txns →
      AssertIndexesConsistent (txns.foldl transact s).snapshot) := by
  refine ⟨fun op t t' hc hfloor hrun => ?_, fun h hclean => (run_intact h hclean).consistent⟩
  have h' := DataOperation.run_intact ⟨assertIndexesConsistent_iff.1 hc, hfloor⟩ hrun
  exact ⟨assertIndexesConsistent_iff.2 h'.derived, h'.floor⟩

/-- A refused deletion, two nodes and an edge are committed, and the first node goes with its edge; the
transaction between them is dropped, and has used up an id. -/
theorem published_snapshots_consistent_of_empty :
    let s := [⟨[.deleteNode 9, .createNode {"A"} ∅, .createNode {"B"} ∅,
        .createMixedEdge "K" 1 2 .directed ∅], true⟩,
      ⟨[.createNode ∅ ∅, .deleteNode 9], false⟩, ⟨[.deleteNode 1], true⟩].foldl
        transact ⟨.empty, ⟨1, 1⟩⟩
    s.allocator = ⟨4, 2⟩ ∧ s.snapshot.nodeStore.map (·.alive) = [false, true] ∧
      AssertIndexesConsistent s.snapshot := by
  refine ⟨by decide, by decide,
    (published_snapshots_consistent _ _).2 intact_empty ?_⟩
  refine ⟨fun _ => ⟨fun _ _ => ⟨rfl, ?_⟩, clean_of_returned (by decide)⟩, nofun,
    fun _ => clean_of_returned (by decide), trivial⟩
  rintro s ⟨row, hrow, -⟩
  cases hrow

/-- **The log is the database.** Replaying what the transactions of a run have logged, over the graph
the run started from, gives the live nodes and edges of the graph it ends with. -/
theorem run_replays (s : SharedGraph) (txns : List Transaction) (h : s.Sound)
    (hclean : s.CleanRun txns) :
    ∃ r, Replay.applyAll s.snapshot (s.history txns) = .ok r ∧
      (∀ id, r.node id = (txns.foldl transact s).snapshot.node id) ∧
      ∀ id, r.edge id = (txns.foldl transact s).snapshot.edge id := by
  obtain ⟨r, hr, hsame⟩ := history_replays h hclean (.refl _)
  exact ⟨r, hr, hsame.node, hsame.edge⟩

/-- Nodes `A` are indexed by `p`, an integer, and by `v`, a vector of two components. -/
def indexedGraph : SeleneGraph :=
  { SeleneGraph.empty with
    propertyIndex := fun key => if key = ("A", "p") then some (.new .i64) else none
    vectorIndex := fun key => if key = ("A", "v") then some ⟨.flat, 2, ∅, none, .none⟩ else none }

def indexed : SharedGraph := ⟨indexedGraph, ⟨1, 1⟩⟩

theorem sound_indexed : indexed.Sound where
  intact := by
    refine ⟨assertIndexesConsistent_registered _ _ ?_ nofun nofun ?_ nofun,
      Nat.one_pos, Nat.one_pos, nofun, nofun⟩
    · intro key entry h
      split at h <;> cases h
      exact ⟨rfl, rfl⟩
    · intro key entry h
      split at h <;> cases h
      rfl
  stored := ⟨nofun, Nat.zero_le _, Nat.zero_le _⟩

/-- A node whose `v` is no vector. -/
def noVector : PropertyMap := (∅ : PropertyMap).insert "v" (.int 1)

def unfit : PropertyMap := noVector.insert "p" (.int 1)

theorem not_consistent_of_filed {g : SeleneGraph}
    (h : (g.propertyIndex ("A", "p")).map (fun entry => (entry.index.rows (.i64 1),
      (g.buildPropertyIndexLenient ("A", "p") entry.index.kind).index.rows (.i64 1))) =
      some ({0}, ∅)) : ¬ AssertIndexesConsistent g := by
  intro hc
  obtain ⟨entry, hentry, heq⟩ := map_eq_some_iff.1 h
  obtain ⟨h₁, h₂⟩ := Prod.mk.inj heq
  have := congrFun (hc.propertyIndexes _ entry hentry).2 (.i64 1)
  rw [h₁, h₂] at this
  exact absurd this (by decide)

/-- The node is refused after the property index has filed its `p`. -/
theorem refused_create_stays_filed :
    let run := Mutator.createNode {"A"} unfit indexed.beginWrite
    AssertIndexesConsistent indexedGraph ∧ run.1.isOk = false ∧
      (indexedGraph.propertyIndex ("A", "p")).map (·.index.rows (.i64 1)) = some ∅ ∧
      (run.2.graph.propertyIndex ("A", "p")).map (·.index.rows (.i64 1)) = some {0} ∧
      ¬ AssertIndexesConsistent run.2.graph :=
  ⟨sound_indexed.intact.consistent, by decide, by decide, by decide,
    not_consistent_of_filed (by decide)⟩

/-- The transaction goes on and commits. -/
theorem refused_create_is_published :
    indexed.Intact ∧ ¬ AssertIndexesConsistent
      (indexed.transact ⟨[.createNode {"A"} unfit], true⟩).snapshot :=
  ⟨sound_indexed.intact, not_consistent_of_filed (by decide)⟩

/-- The same node without its `p`: nothing was filed before the refusal. -/
theorem leavesNoTrace_without_property :
    LeavesNoTrace indexed.beginWrite
      (.createNode {"A"} noVector) := by
  intro props' hprep _ _
  have hsame : prepareNode indexedGraph {"A"} noVector = .ok noVector := rfl
  obtain rfl := Except.ok.inj (hsame.symm.trans hprep)
  refine ⟨?_, nofun, ?_⟩
  · intro key entry hkey
    change (if key = ("A", "p") then _ else _) = _ at hkey
    split at hkey <;> cases hkey
    next hkey => subst hkey; decide
  · have hnone : beforeRefusal indexedGraph.vectorIndex
        (createOrder {"A"} noVector) none
        (some ({"A"}, noVector)) = [] := by decide
    intro key hkey
    exact absurd (hnone ▸ hkey : key ∈ []) not_mem_nil

theorem refused_without_trace_sample :
    ∃ e t', DataOperation.run (.createNode {"A"} noVector)
        indexed.beginWrite = (.error e, t') ∧
      Untouched indexed.beginWrite t' ∧
      AssertIndexesConsistent (runAll
        [.createNode {"A"} noVector, .createNode {"B"} ∅]
        indexed.beginWrite).graph := by
  have hview : (DataOperation.run (.createNode {"A"} noVector)
      indexed.beginWrite).1.isOk = false := by decide
  rcases hrun : DataOperation.run (.createNode {"A"} noVector)
    indexed.beginWrite with ⟨res, t'⟩
  rw [hrun] at hview
  cases res with
  | ok u => cases hview
  | error e =>
    refine ⟨e, t', rfl, ?_, ?_⟩
    · exact ((refused_without_trace_iff indexed []).1 _ _ _ _
        sound_indexed.intact.consistent rfl hrun).2 leavesNoTrace_without_property
    · refine ((refused_without_trace_iff indexed
        [.createNode {"A"} _, .createNode {"B"} ∅]).2 sound_indexed ?_).1
      exact ⟨fun _ _ => ⟨rfl, leavesNoTrace_without_property⟩, clean_of_returned (by decide)⟩

/-- A refused call in a transaction that commits, a transaction that is dropped, and a truncation. -/
theorem run_replays_sample :
    let s : SharedGraph := indexed
    let txns : List Transaction :=
      [⟨[.createNode {"A"} noVector, .createNode {"B"} ∅,
          .createNode {"C"} ∅], true⟩,
        ⟨[.createNode {"B"} ∅], false⟩, ⟨[.truncateNodeType "B"], true⟩]
    (s.history txns).length = 3 ∧ ∃ r, Replay.applyAll indexedGraph (s.history txns) = .ok r ∧
      ∀ id, r.node id = (txns.foldl transact s).snapshot.node id := by
  intro s txns
  obtain ⟨r, hr, hnode, -⟩ := run_replays s txns sound_indexed
    ⟨fun _ => ⟨fun _ _ => ⟨rfl, leavesNoTrace_without_property⟩,
      clean_of_returned (by decide)⟩, nofun, fun _ => clean_of_returned (by decide),
      trivial⟩
  exact ⟨by decide, r, hr, hnode⟩

end Selene.Graph
