import Selene.Graph.Replay
import Selene.Proof.DataOperations

/-!
# Replay follows the mutator

The changes of a data operation, replayed over any graph with the content of the working graph
before it, give the content of the working graph after it (`DataOperation.run_logged`). The
relation between the two interpreters is on live rows and ids only: replay keeps no derived
structure, and the mutator finds the edges of a truncated node in its adjacency lists while replay
sweeps the edge column.
-/

namespace Selene.Graph

open Attempt Function List Replay

variable {g g' r r' : SeleneGraph} {t t' : WriteTxn}

variable {c : Change} {label : DbString} {d : EdgeDirectionality} {e : EdgeSlot} {labels : LabelSet}
  {id : NodeId} {s : NodeSlot} {diff : PropertyDiff} {props props' : PropertyMap} {row : Row} {u : Unit}

/-- The two interpreters at the same point. -/
structure SameContent (r g : SeleneGraph) : Prop where
  nodeAt : r.nodeAt = g.nodeAt
  edgeAt : r.edgeAt = g.edgeAt
  nodeRows : r.nodeRows = g.nodeRows
  edgeRows : r.edgeRows = g.edgeRows
  nodeIds : r.nodeStore.map (·.id) = g.nodeStore.map (·.id)
  edgeIds : r.edgeStore.map (·.id) = g.edgeStore.map (·.id)

namespace SameContent

theorem refl (g : SeleneGraph) : SameContent g g := ⟨rfl, rfl, rfl, rfl, rfl, rfl⟩

section

variable (h : SameContent r g)
include h

theorem nodeLength : r.nodeStore.length = g.nodeStore.length := by
  simpa using congrArg length h.nodeIds

theorem edgeLength : r.edgeStore.length = g.edgeStore.length := by
  simpa using congrArg length h.edgeIds

theorem node (id : NodeId) : r.node id = g.node id := by
  rw [SeleneGraph.node, h.nodeRows, h.nodeAt, SeleneGraph.node]

theorem edge (id : EdgeId) : r.edge id = g.edge id := by
  rw [SeleneGraph.edge, h.edgeRows, h.edgeAt, SeleneGraph.edge]

theorem removed {node : NodeSlot → Prop} {edge : EdgeSlot → Prop}
    (hr : Removed r r' node edge) (hg : Removed g g' node edge) : SameContent r' g' where
  nodeAt := by
    funext row
    refine Option.ext fun s => ?_
    rw [hr.nodeAt, hg.nodeAt, h.nodeAt]
  edgeAt := by
    funext row
    refine Option.ext fun e => ?_
    rw [hr.edgeAt, hg.edgeAt, h.edgeAt]
  nodeRows := hr.nodeRows.trans (h.nodeRows.trans hg.nodeRows.symm)
  edgeRows := hr.edgeRows.trans (h.edgeRows.trans hg.edgeRows.symm)
  nodeIds := hr.nodeIds.trans (h.nodeIds.trans hg.nodeIds.symm)
  edgeIds := hr.edgeIds.trans (h.edgeIds.trans hg.edgeIds.symm)

end

end SameContent

/-- What replay needs of a graph beyond its derived state: every row has an id, and there is a row
number for every row. -/
structure Stored (g : SeleneGraph) : Prop where
  nodeIds : ∀ s ∈ g.nodeStore, s.id ≠ tombstone
  nodeLength : g.nodeStore.length ≤ maxRows
  edgeLength : g.edgeStore.length ≤ maxRows

theorem Stored.of_ids (h : Stored g) (hn : g'.nodeStore.map (·.id) = g.nodeStore.map (·.id))
    (he : g'.edgeStore.length = g.edgeStore.length) : Stored g' where
  nodeIds s hs := by
    have : s.id ∈ g.nodeStore.map (·.id) := hn ▸ mem_map_of_mem hs
    obtain ⟨s', hs', hid⟩ := mem_map.1 this
    rw [← hid]
    exact h.nodeIds s' hs'
  nodeLength := by
    have : g'.nodeStore.length = g.nodeStore.length := by simpa using congrArg length hn
    rw [this]
    exact h.nodeLength
  edgeLength := he ▸ h.edgeLength

theorem Stored.of_removed {node : NodeSlot → Prop} {edge : EdgeSlot → Prop} (h : Stored g)
    (hrem : Removed g g' node edge) : Stored g' := h.of_ids hrem.nodeIds hrem.edgeLength

theorem Stored.nodeAt (h : Stored g) (hs : g.nodeAt row = some s) :
    s.id ≠ tombstone := h.nodeIds s (mem_of_getElem? (g.nodeAt_eq_some.1 hs).1)

/-! ## Single changes -/

namespace Replay

theorem rowNumber_ok {index : ℕ} (h : index < maxRows) : rowNumber index = .ok index := if_pos h

theorem node_ok (hrow : r.nodeRows id = some row)
    (hs : r.nodeAt row = some s) : node r id = .ok (row, s) := by
  simp [node, hrow, hs]

theorem edge_ok {id : EdgeId} (hrow : r.edgeRows id = some row)
    (he : r.edgeAt row = some e) : edge r id = .ok (row, e) := by
  simp [edge, hrow, he]

theorem apply_eq_dispatch (h : c.validateStoredValues = .ok ()) : apply r c = dispatch r c := by
  rw [apply, h]
  rfl

theorem applyAll_cons {cs : List Change} (h : apply r c = .ok r') :
    applyAll r (c :: cs) = applyAll r' cs := by
  rw [applyAll, foldlM_cons, h]
  rfl

theorem applyAll_append {cs cs' : List Change} (h : applyAll r cs = .ok r') :
    applyAll r (cs ++ cs') = applyAll r' cs' := by
  unfold applyAll at h ⊢
  rw [foldlM_append, h]
  rfl

theorem createNode_ok (labels : LabelSet) (props : PropertyMap) (hid : id ≠ tombstone)
    (hfresh : r.nodeRows id = none) (hlen : r.nodeStore.length < maxRows) :
    createNode r id labels props = .ok { r with
      nodeStore := r.nodeStore ++ [⟨id, labels, props, true⟩]
      nodeRows := update r.nodeRows id (some r.nodeStore.length) } := by
  unfold createNode
  rw [if_neg (by simp [hid, hfresh]), rowNumber_ok hlen]
  rfl

theorem createEdge_ok {id : EdgeId} {source target : NodeId}
    {from_ to_ : Row × NodeSlot} (label : DbString) (props : PropertyMap)
    (hsource : node r source = .ok from_) (htarget : node r target = .ok to_) (hid : id ≠ tombstone)
    (hfresh : r.edgeRows id = none) (hends : d.canonicalEndpoints source target = (source, target))
    (hlen : r.edgeStore.length < maxRows) :
    createEdge r id d label source target props = .ok { r with
      edgeStore := r.edgeStore ++ [⟨id, d, label, source, target, props, true⟩]
      edgeRows := update r.edgeRows id (some r.edgeStore.length) } := by
  unfold createEdge
  rw [hsource, htarget]
  simp only [bind, Except.bind]
  rw [if_neg (by simp [hid, hfresh, hends]), rowNumber_ok hlen]

theorem set_ok {key : DbString} {value : Value}
    (h : props.set key value = .ok props') : StoredValue.validate value = .ok () := by
  obtain ⟨⟨⟩, hv, -⟩ := except_bind_ok.1 h
  exact hv

theorem foldlM_set_ok {l : List (DbString × Value)}
    (h : l.foldlM (fun props entry => PropertyMap.set props entry.1 entry.2) props = .ok props') :
    ∀ entry ∈ l, StoredValue.validate entry.2 = .ok () := by
  induction l generalizing props with
  | nil => simp
  | cons entry l ih =>
    rw [foldlM_cons] at h
    obtain ⟨next, hset, hrest⟩ := except_bind_ok.1 h
    exact forall_mem_cons.2 ⟨set_ok hset, ih hrest⟩

/-- A diff that the mutator applies passes the checks of replay and patches alike. -/
theorem patch_of_applied (h : applyPropertyDiff props diff = .ok props') :
    diff.validateStoredValues = .ok () ∧ patch props diff = .ok props' := by
  obtain ⟨set, hset, h⟩ := except_bind_ok.1 h
  have hset := except_foldlM_mapError_ok.1 hset
  obtain rfl := Except.ok.inj h
  refine ⟨except_forM_ok.2 (foldlM_set_ok hset), ?_⟩
  exact except_bind_ok.2 ⟨set, except_foldlM_mapError_ok.2 hset, rfl⟩

end Replay

theorem SameContent.setNode (h : SameContent r g) (hs : g.nodeAt row = some s)
    (hstore : g'.nodeStore = g.nodeStore.modify row fun s => { s with labels, properties := props })
    (hedges : g'.edgeStore = g.edgeStore) (hnr : g'.nodeRows = g.nodeRows)
    (her : g'.edgeRows = g.edgeRows) : SameContent (Replay.setNode row labels props r) g' where
  nodeAt := by
    rw [nodeAt_modify rfl (h.nodeAt ▸ hs), nodeAt_modify hstore hs, h.nodeAt]
  edgeAt := (edgeAt_congr (g := r) rfl).trans (h.edgeAt.trans (edgeAt_congr hedges).symm)
  nodeRows := h.nodeRows.trans hnr.symm
  edgeRows := h.edgeRows.trans her.symm
  nodeIds := by
    have hr : (Replay.setNode row labels props r).nodeStore.map (·.id) = r.nodeStore.map (·.id) :=
      modify_map_id _ _ _ _ fun _ => rfl
    rw [hr, h.nodeIds, hstore]
    exact Eq.symm (modify_map_id _ _ _ _ fun _ => rfl)
  edgeIds := by
    rw [hedges]
    exact h.edgeIds

theorem SameContent.setEdge (h : SameContent r g) (he : g.edgeAt row = some e) (props : PropertyMap) :
    SameContent (Replay.setEdge row props r) (Mutator.setEdgeProperties row e props g) where
  nodeAt := (nodeAt_congr (g := r) rfl).trans h.nodeAt
  edgeAt := by
    have hr : (Replay.setEdge row props r).edgeAt = _ := edgeAt_modify rfl (h.edgeAt ▸ he)
    have hg : (Mutator.setEdgeProperties row e props g).edgeAt = _ := edgeAt_modify rfl he
    rw [hr, hg, h.edgeAt]
  nodeRows := h.nodeRows
  edgeRows := h.edgeRows
  nodeIds := h.nodeIds
  edgeIds := by
    have hr : (Replay.setEdge row props r).edgeStore.map (·.id) = r.edgeStore.map (·.id) :=
      modify_map_id _ _ _ _ fun _ => rfl
    rw [hr, h.edgeIds]
    exact Eq.symm (modify_map_id _ _ _ _ fun _ => rfl)

/-! ## Sweeps -/

namespace Replay

/-- What a sweep makes of a row. -/
def sweptNode (doomed : NodeSlot → Bool) (s : NodeSlot) : NodeSlot :=
  if s.alive && doomed s then clearedNode s else s

variable (doomed : EdgeSlot → Bool)

def sweptEdge (e : EdgeSlot) : EdgeSlot :=
  if e.alive && doomed e then clearedEdge e else e

theorem removed_nodes (doomed : NodeSlot → Bool) (r : SeleneGraph) :
    Removed r { r with nodeStore := r.nodeStore.map (sweptNode doomed) } (fun s => doomed s = true)
      fun _ => False where
  nodeAt row s := by
    rw [SeleneGraph.nodeAt_eq_some, r.nodeAt_eq_some, getElem?_map, Option.map_eq_some_iff]
    constructor
    · rintro ⟨⟨s₀, hs0, rfl⟩, ha⟩
      unfold sweptNode at ha ⊢
      split at ha
      · cases ha
      · next hd =>
        rw [if_neg hd]
        exact ⟨⟨hs0, ha⟩, fun hs => hd (by rw [ha, hs]; rfl)⟩
    · rintro ⟨⟨hs, ha⟩, hd⟩
      exact ⟨⟨s, hs, if_neg (by simp [hd])⟩, ha⟩
  edgeAt row e := (and_iff_left not_false).symm
  nodeRows := rfl
  edgeRows := rfl
  nodeLength := length_map ..
  edgeLength := rfl
  nodeIds := by
    rw [map_map]
    refine map_congr_left fun s _ => ?_
    simp only [comp_apply, sweptNode]
    split <;> rfl
  edgeIds := rfl
  boundType := rfl
  admitted _ _ := Iff.rfl

theorem removed_edges (r : SeleneGraph) :
    Removed r { r with edgeStore := r.edgeStore.map (sweptEdge doomed) } (fun _ => False)
      fun e => doomed e = true where
  nodeAt row s := (and_iff_left not_false).symm
  edgeAt row e := by
    rw [SeleneGraph.edgeAt_eq_some, r.edgeAt_eq_some, getElem?_map, Option.map_eq_some_iff]
    constructor
    · rintro ⟨⟨e0, he0, rfl⟩, ha⟩
      unfold sweptEdge at ha ⊢
      split at ha
      · cases ha
      · next hd =>
        rw [if_neg hd]
        exact ⟨⟨he0, ha⟩, fun he => hd (by rw [ha, he]; rfl)⟩
    · rintro ⟨⟨he, ha⟩, hd⟩
      exact ⟨⟨e, he, if_neg (by simp [hd])⟩, ha⟩
  nodeRows := rfl
  edgeRows := rfl
  nodeLength := rfl
  edgeLength := length_map ..
  nodeIds := rfl
  edgeIds := by
    rw [map_map]
    refine map_congr_left fun e _ => ?_
    simp only [comp_apply, sweptEdge]
    split <;> rfl
  boundType := rfl
  admitted _ _ := Iff.rfl

theorem foldl_edgeStore (f : EdgeSlot → EdgeSlot) (rows : List Row) (r : SeleneGraph) :
    rows.foldl (fun r row => { r with edgeStore := r.edgeStore.modify row f }) r =
      { r with edgeStore := rows.foldl (fun st row => st.modify row f) r.edgeStore } :=
  List.foldl_hom (fun st => { r with edgeStore := st }) fun _ _ => rfl

theorem foldl_nodeStore (f : NodeSlot → NodeSlot) (rows : List Row) (r : SeleneGraph) :
    rows.foldl (fun r row => { r with nodeStore := r.nodeStore.modify row f }) r =
      { r with nodeStore := rows.foldl (fun st row => st.modify row f) r.nodeStore } :=
  List.foldl_hom (fun st => { r with nodeStore := st }) fun _ _ => rfl

theorem edgeSweep_turn (r : SeleneGraph) (row : Row) :
    (match r.edgeAt row with
      | some e => if doomed e then .ok (clearEdge row r) else .ok r
      | none => .ok r : Except CodecError SeleneGraph) =
      .ok { r with edgeStore := r.edgeStore.modify row (sweptEdge doomed) } := by
  cases he : r.edgeAt row with
  | some e =>
    obtain ⟨hget, ha⟩ := r.edgeAt_eq_some.1 he
    dsimp only
    split
    · next hd =>
      rw [modify_congr (g := clearedEdge)]
      · rfl
      · intro e' he'
        obtain rfl := Option.mem_unique hget he'
        exact if_pos (by rw [ha, hd]; rfl)
    · next hd =>
      rw [modify_fixed]
      intro e' he'
      obtain rfl := Option.mem_unique hget he'
      exact if_neg (by simp [hd])
  | none =>
    rw [modify_fixed]
    intro e hget
    refine if_neg fun hd => ?_
    rw [r.edgeAt_eq_some.2 ⟨hget, (Bool.and_eq_true_iff.1 hd).1⟩] at he
    cases he

theorem clearEdgesWhere_ok (hlen : r.edgeStore.length ≤ maxRows) :
    ∃ r', clearEdgesWhere doomed r = .ok r' ∧
      Removed r r' (fun _ => False) fun e => doomed e = true := by
  refine ⟨_, except_foldlM_ok (f := fun g row =>
    { g with edgeStore := g.edgeStore.modify row (sweptEdge doomed) }) ?_ r, ?_⟩
  · intro g row hrow
    rw [rowNumber_ok ((mem_range.1 hrow).trans_le hlen)]
    exact edgeSweep_turn doomed g row
  · rw [foldl_edgeStore, foldl_modify_range]
    exact removed_edges doomed r

section

variable (label : DbString) (r : SeleneGraph) (n : ℕ)

/-- The ids a node sweep has collected when it comes to row `n`. -/
def collected : Finset NodeId :=
  ((range n).filterMap fun row =>
    (r.nodeAt row).bind fun s => if label ∈ s.labels then some s.id else none).toFinset

theorem mem_collected {n : ℕ} : id ∈ collected label r n ↔
      ∃ row < n, ∃ s, r.nodeAt row = some s ∧ label ∈ s.labels ∧ s.id = id := by
  simp only [collected, mem_toFinset, mem_filterMap, mem_range,
    Option.bind_eq_some_iff, Option.ite_none_right_eq_some, Option.some.injEq]

theorem collected_succ :
    collected label r (n + 1) = match r.nodeAt n with
      | some s => if label ∈ s.labels then insert s.id (collected label r n) else collected label r n
      | none => collected label r n := by
  unfold collected
  rw [range_succ, filterMap_append]
  cases hs : r.nodeAt n with
  | none => simp [hs]
  | some s =>
    by_cases hl : label ∈ s.labels
    · simp [hs, hl, Finset.union_comm]
    · simp [hs, hl]

/-- The node sweep that has come to row `n`. -/
def sweptTo : SeleneGraph :=
  { r with
    nodeStore := (range n).foldl
      (fun st row => st.modify row (sweptNode fun s => s.labels.contains label)) r.nodeStore }

theorem nodeAt_sweptTo :
    (sweptTo label r n).nodeAt n = r.nodeAt n := by
  unfold SeleneGraph.nodeAt sweptTo
  rw [getElem?_foldl_modify_range, if_neg (lt_irrefl n)]

theorem sweptTo_succ :
    sweptTo label r (n + 1) = match r.nodeAt n with
      | some s => if label ∈ s.labels then clearNode n (sweptTo label r n) else sweptTo label r n
      | none => sweptTo label r n := by
  have hat : (sweptTo label r n).nodeStore[n]? = r.nodeStore[n]? := by
    unfold sweptTo
    rw [getElem?_foldl_modify_range, if_neg (lt_irrefl n)]
  have hstep : sweptTo label r (n + 1) = { sweptTo label r n with
      nodeStore := (sweptTo label r n).nodeStore.modify n
        (sweptNode fun s => s.labels.contains label) } := by
    unfold sweptTo
    rw [range_succ, foldl_append]
    rfl
  rw [hstep]
  cases hs : r.nodeAt n with
  | some s =>
    obtain ⟨hget, ha⟩ := r.nodeAt_eq_some.1 hs
    dsimp only
    split
    · next hl =>
      rw [modify_congr (g := clearedNode)]
      · rfl
      · intro s' hs'
        obtain rfl := Option.mem_unique hget (hat.symm.trans hs')
        exact if_pos (by simp [ha, hl])
    · next hl =>
      rw [modify_fixed]
      intro s' hs'
      obtain rfl := Option.mem_unique hget (hat.symm.trans hs')
      exact if_neg (by simp [hl])
  | none =>
    rw [modify_fixed]
    intro s hget
    refine if_neg fun hd => ?_
    rw [r.nodeAt_eq_some.2 ⟨hat.symm.trans hget, (Bool.and_eq_true_iff.1 hd).1⟩] at hs
    cases hs

end

theorem clearNodesOfType_ok (label : DbString) (hlen : r.nodeStore.length ≤ maxRows) :
    clearNodesOfType label r =
      .ok (sweptTo label r r.nodeStore.length, collected label r r.nodeStore.length) := by
  have hn : ∀ n ≤ maxRows, (range n).foldlM (fun state index => do
      let row ← rowNumber index
      match state.1.nodeAt row with
      | some s =>
        if label ∈ s.labels then .ok (clearNode row state.1, insert s.id state.2) else .ok state
      | none => .ok state) (r, ∅) = (.ok (sweptTo label r n, collected label r n) :
        Except CodecError (SeleneGraph × Finset NodeId)) := by
    intro n
    induction n with
    | zero => intro _; rfl
    | succ n ih =>
      intro hle
      rw [range_succ, foldlM_append, ih (Nat.le_of_succ_le hle)]
      simp only [bind, Except.bind, foldlM_cons, foldlM_nil]
      rw [rowNumber_ok hle]
      dsimp only
      rw [nodeAt_sweptTo, sweptTo_succ, collected_succ]
      cases r.nodeAt n with
      | none => rfl
      | some s =>
        dsimp only
        by_cases hl : label ∈ s.labels
        · rw [if_pos hl, if_pos hl, if_pos hl]
          rfl
        · rw [if_neg hl, if_neg hl, if_neg hl]
          rfl
  exact hn _ hlen

theorem truncateNodes_ok (label : DbString) (hn : r.nodeStore.length ≤ maxRows)
    (he : r.edgeStore.length ≤ maxRows) :
    ∃ r', dispatch r (.nodesOfTypeTruncated label) = .ok r' ∧
      Removed r r' (fun s => label ∈ s.labels) fun e =>
        ∃ row s, r.nodeAt row = some s ∧ label ∈ s.labels ∧ (e.source = s.id ∨ e.target = s.id) := by
  have hnodes : Removed r (sweptTo label r r.nodeStore.length) (fun s => label ∈ s.labels)
      fun _ => False := by
    have := removed_nodes (fun s => s.labels.contains label) r
    rw [← foldl_modify_range] at this
    exact this.congr (fun _ _ _ => Iff.rfl) fun _ _ _ => Iff.rfl
  obtain ⟨r', hrun, hedges⟩ := clearEdgesWhere_ok (r := sweptTo label r r.nodeStore.length)
    (fun e => decide (e.source ∈ collected label r r.nodeStore.length) ||
      decide (e.target ∈ collected label r r.nodeStore.length)) he
  refine ⟨r', except_bind_ok.2 ⟨_, clearNodesOfType_ok label hn, hrun⟩,
    (hnodes.trans hedges).congr (by simp) ?_⟩
  have hlt : ∀ {row s}, r.nodeAt row = some s → row < r.nodeStore.length := by
    intro row s hs
    exact (List.getElem?_eq_some_iff.1 (r.nodeAt_eq_some.1 hs).1).1
  intro row e _
  simp only [false_or, Bool.or_eq_true, decide_eq_true_eq, mem_collected]
  constructor
  · rintro (⟨row, -, s, hs, hl, hid⟩ | ⟨row, -, s, hs, hl, hid⟩)
    · exact ⟨row, s, hs, hl, .inl hid.symm⟩
    · exact ⟨row, s, hs, hl, .inr hid.symm⟩
  · rintro ⟨row, s, hs, hl, hid | hid⟩
    · exact .inl ⟨row, hlt hs, s, hs, hl, hid.symm⟩
    · exact .inr ⟨row, hlt hs, s, hs, hl, hid.symm⟩

theorem clearAll_ok (hn : r.nodeStore.length ≤ maxRows) (he : r.edgeStore.length ≤ maxRows) :
    ∃ r', clearAll r = .ok r' ∧ Removed r r' (fun _ => True) fun _ => True := by
  refine ⟨{ r with nodeStore := r.nodeStore.map clearedNode, edgeStore := r.edgeStore.map clearedEdge },
    ?_, ?_⟩
  · refine except_bind_ok.2 ⟨{ r with nodeStore := r.nodeStore.map clearedNode }, ?_, ?_⟩
    · rw [except_foldlM_ok (f := fun g row => clearNode row g)]
      · exact congrArg Except.ok ((foldl_nodeStore clearedNode _ r).trans (by rw [foldl_modify_range]))
      · intro g row hrow
        rw [rowNumber_ok ((mem_range.1 hrow).trans_le hn)]
        rfl
    · rw [except_foldlM_ok (f := fun g row => clearEdge row g)]
      · refine congrArg Except.ok ((foldl_edgeStore clearedEdge _ _).trans ?_)
        rw [foldl_modify_range]
      · intro g row hrow
        rw [rowNumber_ok ((mem_range.1 hrow).trans_le he)]
        rfl
  · exact {
      nodeAt := fun row s => by
        simp [SeleneGraph.nodeAt_eq_some, clearedNode]
        rintro x _ rfl
        simp
      edgeAt := fun row e => by
        simp [SeleneGraph.edgeAt_eq_some, clearedEdge]
        rintro x _ rfl
        simp
      nodeRows := rfl
      edgeRows := rfl
      nodeLength := length_map ..
      edgeLength := length_map ..
      nodeIds := by rw [map_map]; rfl
      edgeIds := by rw [map_map]; rfl
      boundType := rfl
      admitted := fun _ _ => Iff.rfl }

end Replay

/-! ## Operations -/

open Mutator

/-- The changes of a step, replayed beside it. -/
def Logged (t t' : WriteTxn) : Prop :=
  ∃ cs, t'.changes = t.changes ++ cs ∧ ∀ r, SameContent r t.graph →
    ∃ r', applyAll r cs = .ok r' ∧ SameContent r' t'.graph

theorem Logged.refl (t : WriteTxn) : Logged t t :=
  ⟨[], (append_nil _).symm, fun r hr => ⟨r, rfl, hr⟩⟩

theorem Logged.trans {t'' : WriteTxn} (h : Logged t t') (h' : Logged t' t'') : Logged t t'' := by
  obtain ⟨cs, hcs, hreplay⟩ := h
  obtain ⟨cs', hcs', hreplay'⟩ := h'
  refine ⟨cs ++ cs', by rw [hcs', hcs, append_assoc], fun r hr => ?_⟩
  obtain ⟨r', hrun, hr'⟩ := hreplay r hr
  obtain ⟨r'', hrun', hr''⟩ := hreplay' r' hr'
  exact ⟨r'', by rw [applyAll_append hrun, hrun'], hr''⟩

theorem Logged.single (hcs : t'.changes = t.changes ++ [c]) (hc : c.validateStoredValues = .ok ())
    (h : ∀ r, SameContent r t.graph → ∃ r', Replay.dispatch r c = .ok r' ∧ SameContent r' t'.graph) :
    Logged t t' := by
  refine ⟨[c], hcs, fun r hr => ?_⟩
  obtain ⟨r', hrun, hr'⟩ := h r hr
  refine ⟨r', ?_, hr'⟩
  rw [applyAll_cons ((Replay.apply_eq_dispatch hc).trans hrun)]
  rfl

/-- What a transaction may rely on between two operations, with what replay needs. -/
structure Sound (t : WriteTxn) : Prop where
  intact : Intact t
  stored : Stored t.graph

theorem prepareNode_valid
    (h : prepareNode g labels props = .ok props') : PropertyMap.validateStoredValues props' = .ok () := by
  obtain ⟨⟨⟩, -, h⟩ := except_bind_ok.1 h
  obtain ⟨filled, -, h⟩ := except_bind_ok.1 h
  obtain ⟨coerced, -, h⟩ := except_bind_ok.1 h
  obtain ⟨⟨⟩, hvalid, h⟩ := except_bind_ok.1 h
  cases h
  exact except_mapError_ok.1 hvalid

theorem prepareEdge_live {source target : NodeId}
    (h : prepareEdge g label source target d props = .ok props') :
    (∃ s, LiveNode g source s) ∧ ∃ s, LiveNode g target s := by
  obtain ⟨⟨⟩, -, h⟩ := except_bind_ok.1 h
  obtain ⟨⟨row, s⟩, hs, h⟩ := except_bind_ok.1 h
  obtain ⟨⟨row', s'⟩, hs', -⟩ := except_bind_ok.1 h
  exact ⟨⟨s, row, requireLiveNode_ok.1 hs⟩, s', row', requireLiveNode_ok.1 hs'⟩

theorem IdMap.fresh {σ : Type} {rows : ℕ → Option Row} {store : List σ} {id : σ → ℕ}
    (h : IdMap rows store id) {i : ℕ} (hfresh : ∀ s ∈ store, id s < i) : rows i = none := by
  refine Option.eq_none_iff_forall_ne_some.2 fun row hrow => ?_
  obtain ⟨-, s, hs, hid⟩ := (h i row).1 hrow
  exact (hfresh s (mem_of_getElem? hs)).ne hid

theorem createNode_logged (h : Sound t)
    (hrun : createNode labels props t = (.ok id, t')) : Logged t t' ∧ Stored t'.graph := by
  obtain ⟨props', hprep, rfl, hlen, -, rfl⟩ := createNode_ok hrun
  have hne : t.allocator.nextNodeId ≠ tombstone := h.intact.floor.nodePos.ne'
  constructor
  · refine Logged.single rfl (prepareNode_valid hprep) fun r hr => ?_
    have hfresh : r.nodeRows t.allocator.nextNodeId = none := by
      rw [hr.nodeRows]
      exact h.intact.derived.nodeRows.fresh h.intact.floor.nodes
    refine ⟨_, createNode_ok labels props' hne hfresh (hr.nodeLength ▸ hlen), ?_⟩
    refine ⟨?_, ?_, ?_, hr.edgeRows, ?_, hr.edgeIds⟩
    · have hg : (createdNode t.graph t.allocator.nextNodeId labels props').nodeAt = _ :=
        nodeAt_append (g := t.graph) (s := ⟨t.allocator.nextNodeId, labels, props', true⟩) rfl rfl
      rw [hg, nodeAt_append (g := r) rfl rfl, hr.nodeAt, hr.nodeLength]
    · exact (edgeAt_congr (g := r) rfl).trans (hr.edgeAt.trans (edgeAt_congr rfl))
    · show update r.nodeRows _ _ = update t.graph.nodeRows _ _
      rw [hr.nodeRows, hr.nodeLength]
    · simp [createdNode, appendNode, hr.nodeIds]
  · refine ⟨?_, ?_, h.stored.edgeLength⟩
    · intro s hs
      rcases mem_append.1 hs with hs | hs
      · exact h.stored.nodeIds s hs
      · rw [mem_singleton.1 hs]
        exact hne
    · rw [createdNode, appendNode, length_append]
      exact hlen

theorem createMixedEdge_logged {first second : NodeId} {id : EdgeId} (h : Sound t)
    (hrun : createMixedEdge label first second d props t = (.ok id, t')) :
    Logged t t' ∧ Stored t'.graph := by
  obtain ⟨source, target, props', hends, hprep, hvalid, -, rfl, hlen, rfl⟩ := createMixedEdge_ok hrun
  have hne : t.allocator.nextEdgeId ≠ tombstone := h.intact.floor.edgePos.ne'
  obtain ⟨⟨s, row, hrow, hs⟩, s', row', hrow', hs'⟩ := prepareEdge_live hprep
  have hcanon : d.canonicalEndpoints source target = (source, target) := by
    cases d with
    | directed => rfl
    | undirected =>
      have hle := canonicalEndpoints_le hends rfl
      simp [EdgeDirectionality.canonicalEndpoints, hle]
  constructor
  · refine Logged.single rfl hvalid fun r hr => ?_
    have hfresh : r.edgeRows t.allocator.nextEdgeId = none := by
      rw [hr.edgeRows]
      exact h.intact.derived.edgeRows.fresh h.intact.floor.edges
    refine ⟨_, createEdge_ok label props' (node_ok (hr.nodeRows ▸ hrow) (hr.nodeAt ▸ hs))
      (node_ok (hr.nodeRows ▸ hrow') (hr.nodeAt ▸ hs')) hne hfresh hcanon
      (hr.edgeLength ▸ hlen), ?_⟩
    refine ⟨?_, ?_, ?_, ?_, ?_, ?_⟩
    · refine (nodeAt_congr (g := r) rfl).trans (hr.nodeAt.trans (nodeAt_congr ?_))
      cases d <;> rfl
    · rw [edgeAt_append (g := r) rfl rfl, edgeAt_append appendEdge_edgeStore rfl, hr.edgeAt, hr.edgeLength]
    · refine hr.nodeRows.trans ?_
      cases d <;> rfl
    · have hg : (appendEdge t.allocator.nextEdgeId d label source target props'
          t.graph.edgeStore.length t.graph).edgeRows = update t.graph.edgeRows
            t.allocator.nextEdgeId (some t.graph.edgeStore.length) := by
        cases d <;> rfl
      rw [hg, hr.edgeRows, hr.edgeLength]
    · refine hr.nodeIds.trans ?_
      cases d <;> rfl
    · rw [appendEdge_edgeStore, map_append, map_append, hr.edgeIds]
  · have hstored := h.stored
    cases d with
    | directed | undirected =>
      refine ⟨hstored.nodeIds, hstored.nodeLength, ?_⟩
      rw [appendEdge, addAdjacency, length_append]
      exact hlen

theorem Logged.setNode {idx : DbString → Finset Row} (hrow : t.graph.nodeRows id = some row)
    (hs : t.graph.nodeAt row = some s) (hc : c.validateStoredValues = .ok ())
    (hdispatch : ∀ r, node r id = .ok (row, s) →
      Replay.dispatch r c = .ok (Replay.setNode row labels props r)) :
    Logged t (t.after (updatedNode t.graph id row s labels props idx) [c]) := by
  refine Logged.single rfl hc fun r hr => ?_
  refine ⟨_, hdispatch r (node_ok (hr.nodeRows ▸ hrow) (hr.nodeAt ▸ hs)), ?_⟩
  exact hr.setNode hs rfl rfl rfl rfl

theorem Stored.updatedNode (h : Stored g) {idx : DbString → Finset Row} :
    Stored (updatedNode g id row s labels props idx) :=
  h.of_ids (modify_map_id _ _ _ _ fun _ => rfl) rfl

theorem updateNode_logged {labelsDiff : LabelDiff}
    (h : Sound t) (hrun : updateNode id labelsDiff diff t = (.ok u, t')) :
    Logged t t' ∧ Stored t'.graph := by
  obtain ⟨row, s, diff', props, hprep, -, rfl⟩ := updateNode_ok hrun
  obtain ⟨hrow, hs, happlied⟩ := prepareUpdate_ok hprep
  obtain ⟨hvalid, hpatch⟩ := patch_of_applied happlied
  refine ⟨Logged.setNode hrow hs hvalid fun r hnode => ?_, h.stored.updatedNode⟩
  refine except_bind_ok.2 ⟨(row, s), hnode, ?_⟩
  exact except_bind_ok.2 ⟨props, hpatch, rfl⟩

theorem removeNodeProperty_logged {property : DbString} (h : Sound t)
    (hrun : removeNodeProperty id property t = (.ok u, t')) : Logged t t' ∧ Stored t'.graph := by
  obtain ⟨row, s, hrow, hs, ⟨-, rfl⟩ | ⟨-, -, rfl⟩⟩ := removeNodeProperty_ok hrun
  · exact ⟨.refl _, h.stored⟩
  · refine ⟨Logged.setNode hrow hs rfl fun r hnode => ?_, h.stored.updatedNode⟩
    exact except_bind_ok.2 ⟨(row, s), hnode, rfl⟩

theorem removeNodeLabel_logged (h : Sound t)
    (hrun : removeNodeLabel id label t = (.ok u, t')) : Logged t t' ∧ Stored t'.graph := by
  obtain ⟨row, s, hrow, hs, ⟨-, rfl⟩ | ⟨-, -, rfl⟩⟩ := removeNodeLabel_ok hrun
  · exact ⟨.refl _, h.stored⟩
  · refine ⟨Logged.setNode hrow hs rfl fun r hnode => ?_, h.stored.updatedNode⟩
    exact except_bind_ok.2 ⟨(row, s), hnode, rfl⟩

theorem Logged.setEdge {id : EdgeId}
    (hrow : t.graph.edgeRows id = some row) (he : t.graph.edgeAt row = some e)
    (hc : c.validateStoredValues = .ok ()) (hdispatch : ∀ r, edge r id = .ok (row, e) →
      Replay.dispatch r c = .ok (Replay.setEdge row props r)) :
    Logged t (t.after (setEdgeProperties row e props t.graph) [c]) := by
  refine Logged.single rfl hc fun r hr => ?_
  refine ⟨_, hdispatch r (edge_ok (hr.edgeRows ▸ hrow) (hr.edgeAt ▸ he)), ?_⟩
  exact hr.setEdge he props

theorem Stored.setEdgeProperties (h : Stored g) :
    Stored (setEdgeProperties row e props g) := h.of_ids rfl (length_modify ..)

theorem updateEdge_logged {id : EdgeId} (h : Sound t)
    (hrun : updateEdge id diff t = (.ok u, t')) : Logged t t' ∧ Stored t'.graph := by
  obtain ⟨row, e, diff', props, hprep, rfl⟩ := updateEdge_ok hrun
  obtain ⟨hrow, he, happlied⟩ := prepareEdgeUpdate_ok hprep
  obtain ⟨hvalid, hpatch⟩ := patch_of_applied happlied
  refine ⟨Logged.setEdge hrow he hvalid fun r hedge => ?_, h.stored.setEdgeProperties⟩
  refine except_bind_ok.2 ⟨(row, e), hedge, ?_⟩
  exact except_bind_ok.2 ⟨props, hpatch, rfl⟩

theorem removeEdgeProperty_logged {id : EdgeId} {property : DbString} (h : Sound t)
    (hrun : removeEdgeProperty id property t = (.ok u, t')) : Logged t t' ∧ Stored t'.graph := by
  obtain ⟨row, e, hrow, he, ⟨-, rfl⟩ | ⟨-, rfl⟩⟩ := removeEdgeProperty_ok hrun
  · exact ⟨.refl _, h.stored⟩
  · refine ⟨Logged.setEdge hrow he rfl fun r hedge => ?_, h.stored.setEdgeProperties⟩
    exact except_bind_ok.2 ⟨(row, e), hedge, rfl⟩

/-! ## Deletion -/

theorem SameContent.distinctIds (hr : SameContent r g) (h : Derived g ∅ ∅) : DistinctIds r.edgeAt :=
  hr.edgeAt ▸ h.distinctIds

theorem Replay.edgeDeleted_ok {ids : List EdgeId} (hids : ids.Nodup) :
    ∀ {r : SeleneGraph}, DistinctIds r.edgeAt → (∀ i ∈ ids, ∃ e, e.id = i ∧ LiveEdge r i e) →
      ∃ r', applyAll r (ids.map .edgeDeleted) = .ok r' ∧
        Removed r r' (fun _ => False) fun e => e.id ∈ ids := by
  induction ids with
  | nil =>
    intro r _ _
    exact ⟨r, rfl, (Removed.refl r).congr (fun _ _ _ => Iff.rfl) (by simp)⟩
  | cons i ids ih =>
    intro r hinj hlive
    obtain ⟨hi, hrest⟩ := nodup_cons.1 hids
    obtain ⟨e, rfl, row, hrow, he⟩ := hlive i mem_cons_self
    have hstep : Replay.apply r (.edgeDeleted e.id) = .ok (clearEdge row r) :=
      (Replay.apply_eq_dispatch rfl).trans
        (except_bind_ok.2 ⟨(row, e), edge_ok hrow he, rfl⟩)
    have hrem : Removed r (clearEdge row r) (fun _ => False) fun e' => e'.id = e.id :=
      removed_edge_row clearedEdge hinj he (fun _ => rfl) fun _ => rfl
    obtain ⟨r', hrun, hrem'⟩ := ih hrest (r := clearEdge row r)
      (fun a b ea eb ha hb => hinj ((hrem.edgeAt a ea).1 ha).1 ((hrem.edgeAt b eb).1 hb).1) (by
        intro j hj
        obtain ⟨e', rfl, hlive'⟩ := hlive j (mem_cons_of_mem _ hj)
        exact ⟨e', rfl, hrem.liveEdge.2 ⟨hlive', fun heq => hi (heq ▸ hj)⟩⟩)
    refine ⟨r', ?_, (hrem.trans hrem').congr (by simp) fun _ e' _ => ?_⟩
    · rw [map_cons, applyAll_cons hstep, hrun]
    · rw [mem_cons]

section

variable (h : Sound t)
include h

theorem deleteNode_logged
    (hrun : deleteNode id t = (.ok u, t')) : Logged t t' ∧ Stored t'.graph := by
  obtain ⟨s, ⟨row, hrow, hs⟩, hadm⟩ := deleteNode_ok hrun
  have hd := h.intact.derived
  obtain ⟨g', hrun', -, hrem⟩ := deleteNode_spec hd hrow hs hadm
  cases hrun.symm.trans hrun'
  refine ⟨⟨_, rfl, fun r hr => ?_⟩, h.stored.of_removed hrem⟩
  -- the node, then the edges that ended at it
  have hnode : Replay.apply r (.nodeDeleted id) = .ok (Replay.clearNode row r) :=
    (Replay.apply_eq_dispatch rfl).trans (except_bind_ok.2
      ⟨(row, s), node_ok (hr.nodeRows ▸ hrow) (hr.nodeAt ▸ hs), rfl⟩)
  have hrem1 : Removed r (Replay.clearNode row r) (fun s => s.id = id) fun _ => False :=
    removed_node_row clearedNode (hr.nodeAt ▸ hs)
      (hr.nodeAt ▸ (hd.live_node hrow hs).2.2) (fun _ => rfl) fun _ => rfl
  obtain ⟨r', hedges, hrem2⟩ := edgeDeleted_ok (nodup_incidentEdges t.graph id)
    (r := Replay.clearNode row r) (hr.distinctIds hd) (by
      intro i hi
      obtain ⟨row', e, he, rfl, -⟩ := (hd.mem_incidentEdges (Set.notMem_empty id)).1 hi
      obtain ⟨row'', hrow'', he''⟩ := hd.liveEdge_iff.2 ⟨rfl, row', he⟩
      exact ⟨e, rfl, hrem1.liveEdge.2 ⟨⟨row'', hr.edgeRows ▸ hrow'', hr.edgeAt ▸ he''⟩, not_false⟩⟩)
  refine ⟨r', by rw [applyAll_cons hnode, hedges], hr.removed ?_ hrem⟩
  refine (hrem1.trans hrem2).congr (by simp) fun row e he => ?_
  rw [false_or]
  exact hd.mem_incidentEdges_iff (hr.edgeAt ▸ he)

theorem deleteEdge_logged {id : EdgeId}
    (hrun : deleteEdge id t = (.ok u, t')) : Logged t t' ∧ Stored t'.graph := by
  obtain ⟨row, e, hrow, he, -⟩ := deleteEdge_ok.1 hrun
  have hd := h.intact.derived
  obtain ⟨g', hrun', -, hrem⟩ := deleteEdge_spec hd ⟨row, hrow, he⟩
  cases hrun.symm.trans hrun'
  refine ⟨⟨[.edgeDeleted id], rfl, fun r hr => ?_⟩, h.stored.of_removed hrem⟩
  obtain ⟨r', hrun, hrem'⟩ := edgeDeleted_ok (nodup_singleton id) (hr.distinctIds hd) (by
    intro i hi
    obtain rfl := mem_singleton.1 hi
    exact ⟨e, (hd.live_edge hrow he).2, row, hr.edgeRows ▸ hrow, hr.edgeAt ▸ he⟩)
  exact ⟨r', hrun, hr.removed (hrem'.congr (fun _ _ _ => Iff.rfl) (by simp)) hrem⟩

theorem deleteElements_logged {nodes : List NodeId} {edges : List EdgeId}
    (hrun : deleteElements nodes edges t = (.ok u, t')) : Logged t t' ∧ Stored t'.graph := by
  obtain ⟨⟨⟩, -, hrun⟩ := check_bind_ok.1 hrun
  obtain ⟨⟨⟩, t1, hnodes, hedges⟩ := bind_ok.1 hrun
  -- every turn deletes one element or passes over a dead one
  have h1 : Logged t t1 ∧ Sound t1 := by
    refine each_ok (I := fun _ s => Logged t s ∧ Sound s) ?_ ⟨.refl t, h⟩ hnodes
    rintro id ids s s' ⟨hlog, hsound⟩ hturn
    have hintact := deleteLiveNode_intact hsound.intact hturn
    obtain ⟨b, -, hturn⟩ := check_bind_ok.1 hturn
    cases b with
    | true =>
      obtain ⟨hstep, hstored⟩ := deleteNode_logged hsound hturn
      exact ⟨hlog.trans hstep, hintact, hstored⟩
    | false => cases hturn; exact ⟨hlog, hsound⟩
  have h2 : Logged t t' ∧ Sound t' := by
    refine each_ok (I := fun _ s => Logged t s ∧ Sound s) ?_ h1 hedges
    rintro id ids s s' ⟨hlog, hsound⟩ hturn
    have hintact := deleteLiveEdge_intact hsound.intact hturn
    obtain ⟨b, -, hturn⟩ := check_bind_ok.1 hturn
    cases b with
    | true =>
      obtain ⟨hstep, hstored⟩ := deleteEdge_logged hsound hturn
      exact ⟨hlog.trans hstep, hintact, hstored⟩
    | false => cases hturn; exact ⟨hlog, hsound⟩
  exact ⟨h2.1, h2.2.stored⟩

/-! ## Bulk removal -/

theorem truncateNodeType_logged
    (hrun : truncateNodeType label t = (.ok u, t')) : Logged t t' ∧ Stored t'.graph := by
  have hd := h.intact.derived
  obtain ⟨-, ids, hids, hrem, hcases⟩ := truncateNodeType_ok hd hrun
  refine ⟨?_, h.stored.of_removed hrem⟩
  rcases hcases with ⟨rfl, ht⟩ | ⟨-, removed, -, ht⟩
  · refine ⟨[], by rw [ht]; simp, fun r hr => ⟨r, rfl, hr.removed (Removed.refl r) ?_⟩⟩
    exact hrem.congr (by simp) (by simp)
  · refine Logged.single (c := .nodesOfTypeTruncated label) (by rw [ht]) rfl fun r hr => ?_
    obtain ⟨r', hrun', hrem'⟩ := truncateNodes_ok label
      (hr.nodeLength ▸ h.stored.nodeLength) (hr.edgeLength ▸ h.stored.edgeLength)
    refine ⟨r', hrun', hr.removed (hrem'.congr ?_ ?_) hrem⟩
    · intro row s hs
      rw [hr.nodeAt] at hs
      rw [hids]
      constructor
      · intro hl
        exact ⟨s, hd.liveNode_iff.2 ⟨rfl, h.stored.nodeAt hs, row, hs⟩, hl⟩
      · rintro ⟨s', hlive, hl⟩
        obtain rfl := (hd.liveNode_iff.2 ⟨rfl, h.stored.nodeAt hs, row, hs⟩ : LiveNode _ _ s).unique hlive
        exact hl
    · intro row e _
      rw [hr.nodeAt]
      constructor
      · rintro ⟨row, s, hs, hl, hend⟩
        refine ⟨s.id, (hids _).2 ⟨s, hd.liveNode_iff.2 ⟨rfl, h.stored.nodeAt hs, row, hs⟩, hl⟩, ?_⟩
        simpa [EdgeSlot.endsAt] using hend
      · rintro ⟨n, hn, hend⟩
        obtain ⟨s, hlive, hl⟩ := (hids n).1 hn
        obtain ⟨rfl, -, row, hs⟩ := hd.liveNode_iff.1 hlive
        exact ⟨row, s, hs, hl, by simpa [EdgeSlot.endsAt] using hend⟩

theorem truncateEdgeType_logged
    (hrun : truncateEdgeType label t = (.ok u, t')) : Logged t t' ∧ Stored t'.graph := by
  obtain ⟨-, hrem, hcases⟩ := truncateEdgeType_ok h.intact.derived hrun
  refine ⟨?_, h.stored.of_removed hrem⟩
  rcases hcases with ⟨hnone, ht⟩ | ⟨removed, -, ht⟩
  · refine ⟨[], by rw [ht]; simp, fun r hr => ⟨r, rfl, hr.removed (Removed.refl r) ?_⟩⟩
    exact hrem.congr (fun _ _ _ => Iff.rfl) fun row e he => iff_false_intro (hnone row e he)
  · refine Logged.single (c := .edgesOfTypeTruncated label) (by rw [ht]) rfl fun r hr => ?_
    obtain ⟨r', hrun', hrem'⟩ := clearEdgesWhere_ok (fun e => e.label == label)
      (hr.edgeLength ▸ h.stored.edgeLength)
    exact ⟨r', hrun', hr.removed (hrem'.congr (fun _ _ _ => Iff.rfl) (by simp)) hrem⟩

theorem factoryReset_logged (hrun : factoryReset t = (.ok u, t')) :
    Logged t t' ∧ Stored t'.graph := by
  obtain ⟨-, g1, ids, removed, hrem, -, -, rfl⟩ := factoryReset_ok h.intact.derived hrun
  refine ⟨Logged.single rfl rfl fun r hr => ?_, { h.stored.of_removed hrem with }⟩
  obtain ⟨r', hrun', hrem'⟩ := clearAll_ok (hr.nodeLength ▸ h.stored.nodeLength)
    (hr.edgeLength ▸ h.stored.edgeLength)
  have hsame : SameContent r' g1 := by
    refine hr.removed hrem' (hrem.congr ?_ fun _ _ _ => Iff.rfl)
    intro row s hs
    exact iff_true_intro (h.stored.nodeAt hs)
  exact ⟨r', hrun', { hsame with }⟩

/-- **The step lemma**: the changes of an operation that returns replay to what it did. -/
theorem DataOperation.run_logged {op : DataOperation}
    (hrun : op.run t = (.ok u, t')) : Logged t t' ∧ Sound t' := by
  suffices Logged t t' ∧ Stored t'.graph from ⟨this.1, DataOperation.run_intact h.intact hrun, this.2⟩
  cases op with
  | createNode labels props =>
    obtain ⟨id, t1, hrun, hpure⟩ := bind_ok.1 hrun
    cases hpure
    exact createNode_logged h hrun
  | createMixedEdge label first second d props =>
    obtain ⟨id, t1, hrun, hpure⟩ := bind_ok.1 hrun
    cases hpure
    exact createMixedEdge_logged h hrun
  | updateNode id labelsDiff diff => exact updateNode_logged h hrun
  | updateEdge id diff => exact updateEdge_logged h hrun
  | removeNodeProperty id property => exact removeNodeProperty_logged h hrun
  | removeEdgeProperty id property => exact removeEdgeProperty_logged h hrun
  | removeNodeLabel id label => exact removeNodeLabel_logged h hrun
  | deleteNode id => exact deleteNode_logged h hrun
  | deleteEdge id => exact deleteEdge_logged h hrun
  | deleteElements nodes edges => exact deleteElements_logged h hrun
  | truncateNodeType label => exact truncateNodeType_logged h hrun
  | truncateEdgeType label => exact truncateEdgeType_logged h hrun
  | factoryReset => exact factoryReset_logged h hrun

/-! ## Runs -/

theorem each_run_logged {ops : List DataOperation}
    (hrun : each DataOperation.run ops t = (.ok (), t')) : Logged t t' ∧ Sound t' := by
  refine each_ok (I := fun _ s => Logged t s ∧ Sound s) ?_ ⟨.refl t, h⟩ hrun
  rintro op ops s s' ⟨hlog, hsound⟩ hop
  obtain ⟨hstep, hsound'⟩ := DataOperation.run_logged hsound hop
  exact ⟨hlog.trans hstep, hsound'⟩

end

/-- What a shared graph keeps between two transactions, with what replay needs. -/
structure SharedGraph.Sound (s : SharedGraph) : Prop where
  intact : s.Intact
  stored : Stored s.snapshot

theorem SharedGraph.Sound.beginWrite {s : SharedGraph} (h : s.Sound) : Graph.Sound s.beginWrite :=
  ⟨h.intact.operations (l := []) rfl, h.stored⟩

theorem SharedGraph.step_sound {s s' : SharedGraph} {txn : SharedGraph.Transaction}
    (hstep : s.step txn = some s') (h : s.Sound) : s'.Sound := by
  refine ⟨SharedGraph.step_intact hstep h.intact, ?_⟩
  obtain ⟨r, t, hrun, ⟨-, rfl⟩ | ⟨-, rfl, rfl⟩⟩ := SharedGraph.step_cases hstep
  · exact h.stored
  · exact (each_run_logged h.beginWrite hrun).2.stored

theorem SharedGraph.sound_empty : SharedGraph.Sound ⟨.empty, ⟨1, 1⟩⟩ :=
  ⟨SharedGraph.intact_empty, nofun, Nat.zero_le _, Nat.zero_le _⟩

/-- **Replay equivalence.** On every graph a run of transactions leaves, and for every list of data
operations that return on a working copy of it, the change list replays over the graph's columns,
and the live nodes and edges it ends with are those of the working copy. -/
theorem replay_equivalence (s₀ s : SharedGraph) (txns : List SharedGraph.Transaction)
    (h₀ : s₀.Sound) (hs : Transition.run SharedGraph.step s₀ txns = some s)
    (ops : List DataOperation) (t : WriteTxn)
    (hrun : each DataOperation.run ops s.beginWrite = (.ok (), t)) :
    ∃ r, applyAll s.snapshot t.changes = .ok r ∧
      (∀ id, r.node id = t.graph.node id) ∧ ∀ id, r.edge id = t.graph.edge id := by
  have hsound := Transition.run_invariant (I := SharedGraph.Sound) SharedGraph.step_sound hs h₀
  obtain ⟨⟨cs, hcs, hreplay⟩, -⟩ := each_run_logged hsound.beginWrite hrun
  obtain ⟨r, happly, hr⟩ := hreplay s.snapshot (SameContent.refl s.snapshot)
  refine ⟨r, ?_, hr.node, hr.edge⟩
  rw [hcs]
  exact happly

/-- A truncation that takes an edge with it, after three committed elements. -/
theorem replay_equivalence_of_truncation :
    ∃ s t r, Transition.run SharedGraph.step ⟨.empty, ⟨1, 1⟩⟩
        [⟨[.createNode {"A"} ∅, .createNode {"B"} ∅, .createMixedEdge "K" 2 1 .undirected ∅], true⟩] =
          some s ∧
      each DataOperation.run [.createNode {"B"} ∅, .truncateNodeType "A"] s.beginWrite =
        (.ok (), t) ∧
      t.changes.length = 2 ∧ applyAll s.snapshot t.changes = .ok r ∧
      (∀ id, r.node id = t.graph.node id) ∧ ∀ id, r.edge id = t.graph.edge id := by
  have hview : (Transition.run SharedGraph.step ⟨.empty, ⟨1, 1⟩⟩
      [⟨[.createNode {"A"} ∅, .createNode {"B"} ∅, .createMixedEdge "K" 2 1 .undirected ∅], true⟩]).map
      (fun s =>
        let run := each DataOperation.run [.createNode {"B"} ∅, .truncateNodeType "A"] s.beginWrite
        (run.1.isOk, run.2.changes.length)) = some (true, 2) := by
    decide +kernel
  obtain ⟨s, hs, hrun⟩ := Option.map_eq_some_iff.1 hview
  rcases hops : each DataOperation.run [.createNode {"B"} ∅, .truncateNodeType "A"]
    s.beginWrite with ⟨res, t⟩
  rw [hops] at hrun
  cases res with
  | error e => cases congrArg Prod.fst hrun
  | ok u =>
    obtain ⟨r, hr⟩ := replay_equivalence _ s _ SharedGraph.sound_empty hs _ t hops
    exact ⟨s, t, r, hs, hops, congrArg Prod.snd hrun, hr⟩

end Selene.Graph
