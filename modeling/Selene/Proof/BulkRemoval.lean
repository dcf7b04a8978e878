import Selene.Proof.Deletion

/-!
# Removal of many rows

`delete_elements`, the truncates and `factory_reset` are loops of the steps of a deletion. Each
lemma says which live nodes and edges are gone afterwards and that the derived state is intact.
-/

namespace Selene.Graph

open Mutator Attempt List Option SeleneGraph

variable {g : SeleneGraph} {gone : Set NodeId} {out : Set EdgeId} {t t' : WriteTxn}

variable {e : EdgeSlot} {edges : List EdgeId} {nodes : List NodeId} {id : NodeId} {s : NodeSlot} {row : Row}
  {u : Unit}

/-- A live node by its id. -/
def LiveNode (g : SeleneGraph) (id : NodeId) (s : NodeSlot) : Prop :=
  ∃ row, g.nodeRows id = some row ∧ g.nodeAt row = some s

theorem Derived.liveNode_id (h : Derived g gone out) (hs : LiveNode g id s) : s.id = id := by
  obtain ⟨row, hrow, hs⟩ := hs
  exact (h.live_node hrow hs).2.1

theorem Derived.liveNode_iff (h : Derived g gone out) :
    LiveNode g id s ↔ s.id = id ∧ id ≠ tombstone ∧ ∃ row, g.nodeAt row = some s := by
  constructor
  · rintro ⟨row, hrow, hs⟩
    obtain ⟨hne, hid, -⟩ := h.live_node hrow hs
    exact ⟨hid, hne, row, hs⟩
  · rintro ⟨rfl, hne, row, hs⟩
    exact ⟨row, (h.nodeRows s.id row).2 ⟨hne, s, (g.nodeAt_eq_some.1 hs).1, rfl⟩, hs⟩

theorem LiveNode.unique {s' : NodeSlot} (h : LiveNode g id s) (h' : LiveNode g id s') : s = s' := by
  obtain ⟨row, hrow, hs⟩ := h
  obtain ⟨row', hrow', hs'⟩ := h'
  obtain rfl := mem_unique hrow hrow'
  exact mem_unique hs hs'

theorem LiveEdge.unique {id : EdgeId} {e' : EdgeSlot} (h : LiveEdge g id e) (h' : LiveEdge g id e') :
    e = e' := by
  obtain ⟨row, hrow, he⟩ := h
  obtain ⟨row', hrow', he'⟩ := h'
  obtain rfl := mem_unique hrow hrow'
  exact mem_unique he he'

theorem node_eq_some : g.node id = some s ↔ LiveNode g id s := by
  rw [node, bind_eq_some_iff]
  rfl

theorem edge_eq_some {id : EdgeId} : g.edge id = some e ↔ LiveEdge g id e := by
  rw [edge, bind_eq_some_iff]
  rfl

theorem isNodeAlive_iff : g.isNodeAlive id = true ↔ ∃ s, LiveNode g id s := by
  rw [isNodeAlive, isSome_iff_exists]
  simp only [node_eq_some]

theorem isEdgeAlive_iff {id : EdgeId} : g.isEdgeAlive id = true ↔ ∃ e, LiveEdge g id e := by
  rw [isEdgeAlive, isSome_iff_exists]
  simp only [edge_eq_some]

theorem Removed.liveNode {g' : SeleneGraph} {node : NodeSlot → Prop} {edge : EdgeSlot → Prop}
    (h : Removed g g' node edge) : LiveNode g' id s ↔ LiveNode g id s ∧ ¬ node s := by
  simp only [LiveNode, h.nodeRows, h.nodeAt]
  tauto

/-- No vector index holds the deletion of the node back. -/
def Deletable (g : SeleneGraph) (s : NodeSlot) : Prop :=
  VectorIndex.Admitted g.vectorIndex (some (s.labels, s.properties)) none

/-! ## One element -/

theorem deleteNode_ok (h : deleteNode id t = (.ok u, t')) :
    ∃ s, LiveNode t.graph id s ∧ Deletable t.graph s := by
  obtain ⟨⟨row, s⟩, hlive, h⟩ := check_bind_ok.1 h
  obtain ⟨hrow, hs⟩ := requireLiveNode_ok.1 hlive
  obtain ⟨incident, t1, hremove, -⟩ := bind_ok.1 h
  exact ⟨s, ⟨row, hrow, hs⟩, (removeNodeRow_ok.1 hremove).1⟩

theorem deleteEdge_spec (h : Derived t.graph gone out) {id : EdgeId} (he : LiveEdge t.graph id e) :
    ∃ g', deleteEdge id t =
        (.ok (), t.after g' [.edgeDeleted id]) ∧
      Derived g' gone out ∧ Removed t.graph g' (fun _ => False) fun e => e.id = id := by
  obtain ⟨row, hrow, he⟩ := he
  obtain ⟨-, rfl⟩ := h.live_edge hrow he
  exact ⟨_, deleteEdge_ok.2 ⟨row, e, hrow, he, rfl⟩, h.edgeDropped he, { h.removed_edge he with }⟩

theorem Derived.nodeCanBeDeleted (h : Derived g gone out) (hid : g.nodeRows id ≠ none) :
    nodeCanBeDeleted g id = .ok true ∧ (∃ s, LiveNode g id s) ∨
      nodeCanBeDeleted g id = .ok false ∧ ∀ s, ¬ LiveNode g id s := by
  obtain ⟨row, hrow⟩ := ne_none_iff_exists'.1 hid
  obtain ⟨-, s, hs, -⟩ := (h.nodeRows id row).1 hrow
  have hcan : Mutator.nodeCanBeDeleted g id = .ok (g.isNodeAlive id) := by
    simp [Mutator.nodeCanBeDeleted, isNodeAlive, node, nodeAt, hrow, hs, Option.isSome_filter]
  rw [hcan, ← not_exists, ← isNodeAlive_iff]
  cases g.isNodeAlive id <;> simp

theorem Derived.edgeCanBeDeleted (h : Derived g gone out) {id : EdgeId} (hid : g.edgeRows id ≠ none) :
    edgeCanBeDeleted g id = .ok true ∧ (∃ e, LiveEdge g id e) ∨
      edgeCanBeDeleted g id = .ok false ∧ ∀ e, ¬ LiveEdge g id e := by
  obtain ⟨row, hrow⟩ := ne_none_iff_exists'.1 hid
  obtain ⟨-, s, hs, -⟩ := (h.edgeRows id row).1 hrow
  have hcan : Mutator.edgeCanBeDeleted g id = .ok (g.isEdgeAlive id) := by
    simp [Mutator.edgeCanBeDeleted, isEdgeAlive, edge, edgeAt, hrow, hs, Option.isSome_filter]
  rw [hcan, ← not_exists, ← isEdgeAlive_iff]
  cases g.isEdgeAlive id <;> simp

theorem deleteLiveNode_spec (h : Derived t.graph ∅ ∅) (hid : t.graph.nodeRows id ≠ none)
    (hadm : ∀ s, LiveNode t.graph id s → Deletable t.graph s) :
    ∃ g' cs, deleteLiveNode id t = (.ok (), t.after g' cs) ∧
      Derived g' ∅ ∅ ∧ Removed t.graph g' (fun s => s.id = id ∧ id ≠ tombstone)
        fun e => (∃ s, LiveNode t.graph id s) ∧ e.endsAt id = true := by
  rcases h.nodeCanBeDeleted hid with ⟨hcan, s, hs⟩ | ⟨hcan, hdead⟩
  · obtain ⟨row, hrow, hat⟩ := hs
    obtain ⟨hne, -, -⟩ := h.live_node hrow hat
    obtain ⟨g', hrun, hderived, hremoved⟩ := deleteNode_spec h hrow hat (hadm s ⟨row, hrow, hat⟩)
    refine ⟨g', _, check_bind_ok.2 ⟨true, hcan, hrun⟩, hderived, hremoved.congr ?_ ?_⟩
    · intro r s' _
      simp [hne]
    · intro r e _
      exact (and_iff_right ⟨s, row, hrow, hat⟩).symm
  · refine ⟨t.graph, [], check_bind_ok.2 ⟨false, hcan, by simp⟩, h,
      (Removed.refl t.graph).congr ?_ ?_⟩
    · intro r s hs
      refine ⟨False.elim, fun ⟨hid, hne⟩ => hdead s (h.liveNode_iff.2 ⟨hid, hne, r, hs⟩)⟩
    · intro r e _
      exact ⟨False.elim, fun ⟨⟨s, hs⟩, _⟩ => hdead s hs⟩

theorem deleteLiveEdge_spec (h : Derived t.graph gone out) {id : EdgeId}
    (hid : t.graph.edgeRows id ≠ none) :
    ∃ g' cs, deleteLiveEdge id t = (.ok (), t.after g' cs) ∧
      Derived g' gone out ∧ Removed t.graph g' (fun _ => False) fun e => e.id = id := by
  rcases h.edgeCanBeDeleted hid with ⟨hcan, e, he⟩ | ⟨hcan, hdead⟩
  · obtain ⟨g', hrun, hderived, hremoved⟩ := deleteEdge_spec h he
    exact ⟨g', _, check_bind_ok.2 ⟨true, hcan, hrun⟩, hderived, hremoved⟩
  · refine ⟨t.graph, [], check_bind_ok.2 ⟨false, hcan, by simp⟩, h,
      (Removed.refl t.graph).congr (fun _ _ _ => Iff.rfl) ?_⟩
    intro r e he
    exact ⟨False.elim, fun hid => hdead e (h.liveEdge_iff.2 ⟨hid, r, he⟩)⟩

/-! ## `delete_elements` -/

theorem each_deleteLiveNode :
    ∀ {t : WriteTxn}, Derived t.graph ∅ ∅ → (∀ n ∈ nodes, t.graph.nodeRows n ≠ none) →
      (∀ n ∈ nodes, ∀ s, LiveNode t.graph n s → Deletable t.graph s) →
      ∃ g' cs, each deleteLiveNode nodes t = (.ok (), t.after g' cs) ∧
        Derived g' ∅ ∅ ∧ Removed t.graph g' (fun s => s.id ∈ nodes ∧ s.id ≠ tombstone)
          fun e => ∃ n ∈ nodes, (∃ s, LiveNode t.graph n s) ∧ e.endsAt n = true := by
  induction nodes with
  | nil =>
    intro t h _ _
    refine ⟨t.graph, [], by simp, h, (Removed.refl t.graph).congr ?_ ?_⟩ <;> simp
  | cons n nodes ih =>
    intro t h hids hadm
    obtain ⟨g1, cs1, hrun1, h1, hrem1⟩ := deleteLiveNode_spec h (hids n mem_cons_self)
      (hadm n mem_cons_self)
    obtain ⟨g', cs, hrun, h', hrem⟩ := ih (t := t.after g1 cs1) h1
      (by
        intro m hm
        rw [hrem1.nodeRows]
        exact hids m (mem_cons_of_mem n hm))
      (by
        intro m hm s hs
        have hs := (hrem1.liveNode.1 hs).1
        exact (hrem1.admitted _ _).2 (hadm m (mem_cons_of_mem n hm) s hs))
    refine ⟨g', cs1 ++ cs, ?_, h', (hrem1.trans hrem).congr ?_ ?_⟩
    · rw [each_cons, bind_of_ok hrun1, hrun]
      simp
    · intro r s _
      rw [mem_cons]
      constructor
      · rintro (⟨rfl, hne⟩ | ⟨hm, hne⟩)
        · exact ⟨.inl rfl, hne⟩
        · exact ⟨.inr hm, hne⟩
      · rintro ⟨rfl | hm, hne⟩
        · exact .inl ⟨rfl, hne⟩
        · exact .inr ⟨hm, hne⟩
    · intro r e _
      constructor
      · rintro (⟨hlive, hend⟩ | ⟨m, hm, ⟨s, hs⟩, hend⟩)
        · exact ⟨n, mem_cons_self, hlive, hend⟩
        · exact ⟨m, mem_cons_of_mem n hm, ⟨s, (hrem1.liveNode.1 hs).1⟩, hend⟩
      · rintro ⟨m, hm, ⟨s, hs⟩, hend⟩
        by_cases hmn : m = n
        · subst hmn
          exact .inl ⟨⟨s, hs⟩, hend⟩
        · have hm := (mem_cons.1 hm).resolve_left hmn
          refine .inr ⟨m, hm, ⟨s, hrem1.liveNode.2 ⟨hs, fun hnode => hmn ?_⟩⟩, hend⟩
          rw [← h.liveNode_id hs, hnode.1]

theorem each_deleteLiveEdge :
    ∀ {t : WriteTxn}, Derived t.graph gone out → (∀ i ∈ edges, t.graph.edgeRows i ≠ none) →
      ∃ g' cs, each deleteLiveEdge edges t = (.ok (), t.after g' cs) ∧
        Derived g' gone out ∧ Removed t.graph g' (fun _ => False) fun e => e.id ∈ edges := by
  induction edges with
  | nil =>
    intro t h _
    refine ⟨t.graph, [], by simp, h, (Removed.refl t.graph).congr (fun _ _ _ => Iff.rfl) ?_⟩
    simp
  | cons i edges ih =>
    intro t h hids
    obtain ⟨g1, cs1, hrun1, h1, hrem1⟩ := deleteLiveEdge_spec h (hids i mem_cons_self)
    obtain ⟨g', cs, hrun, h', hrem⟩ := ih (t := t.after g1 cs1) h1
      (by
        intro j hj
        rw [hrem1.edgeRows]
        exact hids j (mem_cons_of_mem i hj))
    refine ⟨g', cs1 ++ cs, ?_, h', (hrem1.trans hrem).congr (by simp) (by simp)⟩
    rw [each_cons, bind_of_ok hrun1, hrun]
    simp

theorem validateDeleteSet_ok (h : validateDeleteSet g nodes edges = .ok u) :
    (∀ n ∈ nodes, g.nodeRows n ≠ none) ∧ ∀ i ∈ edges, g.edgeRows i ≠ none := by
  obtain ⟨⟨⟩, hnodes, hedges⟩ := except_bind_ok.1 h
  constructor
  · intro n hn hnone
    obtain ⟨b, hb, -⟩ := except_bind_ok.1 (except_forM_ok.1 hnodes n hn)
    simp [nodeCanBeDeleted, hnone] at hb
  · intro i hi hnone
    obtain ⟨b, hb, -⟩ := except_bind_ok.1 (except_forM_ok.1 hedges i hi)
    simp [edgeCanBeDeleted, hnone] at hb

theorem validateDeleteSet_returns (h : Derived g gone out)
    (hnodes : ∀ n ∈ nodes, g.nodeRows n ≠ none) (hedges : ∀ i ∈ edges, g.edgeRows i ≠ none) :
    validateDeleteSet g nodes edges = .ok () := by
  refine except_bind_ok.2 ⟨(), except_forM_ok.2 fun n hn => ?_, except_forM_ok.2 fun i hi => ?_⟩
  · rcases h.nodeCanBeDeleted (hnodes n hn) with ⟨hcan, -⟩ | ⟨hcan, -⟩ <;>
      exact except_bind_ok.2 ⟨_, hcan, rfl⟩
  · rcases h.edgeCanBeDeleted (hedges i hi) with ⟨hcan, -⟩ | ⟨hcan, -⟩ <;>
      exact except_bind_ok.2 ⟨_, hcan, rfl⟩

/-- **`delete_elements`** on ids that were given out, with no vector index in the way: the named
live nodes go with all edges that end at them, and the named live edges. -/
theorem deleteElements_spec (h : Derived t.graph ∅ ∅)
    (hnodes : ∀ n ∈ nodes, t.graph.nodeRows n ≠ none) (hedges : ∀ i ∈ edges, t.graph.edgeRows i ≠ none)
    (hadm : ∀ n ∈ nodes, ∀ s, LiveNode t.graph n s → Deletable t.graph s) :
    ∃ g' cs, deleteElements nodes edges t = (.ok (), t.after g' cs) ∧
      Derived g' ∅ ∅ ∧ Removed t.graph g' (fun s => s.id ∈ nodes ∧ s.id ≠ tombstone)
        fun e => (∃ n ∈ nodes, (∃ s, LiveNode t.graph n s) ∧ e.endsAt n = true) ∨ e.id ∈ edges := by
  obtain ⟨g1, cs1, hrun1, h1, hrem1⟩ := each_deleteLiveNode h hnodes hadm
  obtain ⟨g', cs, hrun, h', hrem⟩ := each_deleteLiveEdge
    (t := t.after g1 cs1) h1 (by rwa [hrem1.edgeRows])
  refine ⟨g', cs1 ++ cs, ?_, h', (hrem1.trans hrem).congr (by simp) (fun _ _ _ => Iff.rfl)⟩
  refine check_bind_ok.2 ⟨(), validateDeleteSet_returns h hnodes hedges, ?_⟩
  rw [bind_of_ok hrun1, hrun]
  simp

theorem deletable_of_each_deleteLiveNode :
    ∀ {t t' : WriteTxn}, Derived t.graph ∅ ∅ → (∀ n ∈ nodes, t.graph.nodeRows n ≠ none) →
      each deleteLiveNode nodes t = (.ok (), t') →
        ∀ n ∈ nodes, ∀ s, LiveNode t.graph n s → Deletable t.graph s := by
  induction nodes with
  | nil => simp
  | cons n nodes ih =>
    intro t t' h hids hrun m hm s hs
    obtain ⟨⟨⟩, t1, hfirst, hrest⟩ := bind_ok.1 hrun
    have hhead : ∀ s, LiveNode t.graph n s → Deletable t.graph s := by
      intro s hs
      obtain ⟨b, hb, hfirst⟩ := check_bind_ok.1 hfirst
      rcases h.nodeCanBeDeleted (hids n mem_cons_self) with ⟨hcan, -⟩ | ⟨-, hdead⟩
      · obtain rfl := Except.ok.inj (hcan.symm.trans hb)
        obtain ⟨s', hs', hadm⟩ := deleteNode_ok hfirst
        rwa [hs.unique hs']
      · exact absurd hs (hdead s)
    by_cases hmn : m = n
    · subst hmn
      exact hhead s hs
    · obtain ⟨g1, cs, hspec, h1, hrem⟩ := deleteLiveNode_spec h (hids n mem_cons_self) hhead
      cases hfirst.symm.trans hspec
      have hm := (mem_cons.1 hm).resolve_left hmn
      refine (hrem.admitted _ _).1 (ih h1 ?_ hrest m hm s (hrem.liveNode.2 ⟨hs, fun hn => hmn ?_⟩))
      · intro k hk
        rw [hrem.nodeRows]
        exact hids k (mem_cons_of_mem n hk)
      · rw [← h.liveNode_id hs, hn.1]

theorem deletable_of_deleteElements (h : Derived t.graph ∅ ∅)
    (hrun : deleteElements nodes edges t = (.ok u, t')) :
    ∀ n ∈ nodes, ∀ s, LiveNode t.graph n s → Deletable t.graph s := by
  obtain ⟨⟨⟩, hset, hrun⟩ := check_bind_ok.1 hrun
  obtain ⟨⟨⟩, t1, hnodes, -⟩ := bind_ok.1 hrun
  exact deletable_of_each_deleteLiveNode h (validateDeleteSet_ok hset).1 hnodes

/-! ## Truncation -/

theorem nodeIdForNodeRow_eq_some :
    g.nodeIdForNodeRow row = some id ↔ id ≠ tombstone ∧ ∃ s, g.nodeStore[row]? = some s ∧ s.id = id := by
  rw [nodeIdForNodeRow, filter_eq_some_iff, map_eq_some_iff, and_comm, bne_iff_ne]

theorem edgeIdForEdgeRow_eq_some {id : EdgeId} :
    g.edgeIdForEdgeRow row = some id ↔ id ≠ tombstone ∧ ∃ s, g.edgeStore[row]? = some s ∧ s.id = id := by
  rw [edgeIdForEdgeRow, filter_eq_some_iff, map_eq_some_iff, and_comm, bne_iff_ne]

/-- The node rows of a bulk removal: the live ones among `rows` go, and `edges` lists what ended at
them. A node that is gone already has no live row. -/
theorem removeNodeRows_ok {rows : List Row} :
    ∀ {gone : Set NodeId} {t t' : WriteTxn} {ids : List NodeId} {edges : List EdgeId},
      Derived t.graph gone ∅ → (∀ r s, t.graph.nodeAt r = some s → s.id ∉ gone) →
      removeNodeRows rows t = (.ok (ids, edges), t') →
      t' = { t with graph := t'.graph } ∧ Derived t'.graph (gone ∪ {n | n ∈ ids}) ∅ ∧
        Removed t.graph t'.graph (fun s => s.id ∈ ids) (fun _ => False) ∧
        (∀ n, n ∈ ids ↔ n ≠ tombstone ∧ ∃ row ∈ rows, ∃ s, t.graph.nodeAt row = some s ∧ s.id = n) ∧
        ∀ i, i ∈ edges ↔ ∃ r e, t.graph.edgeAt r = some e ∧ e.id = i ∧ ∃ n ∈ ids, e.endsAt n = true := by
  induction rows with
  | nil =>
    intro gone t t' ids edges h _ hrun
    cases hrun
    refine ⟨rfl, by simpa using h, (Removed.refl t.graph).congr (by simp) (fun _ _ _ => Iff.rfl), ?_, ?_⟩
    · simp
    · simp
  | cons row rows ih =>
    intro gone t t' ids edges h hgone hrun
    rw [removeNodeRows] at hrun
    obtain ⟨⟨slot, id⟩, hread, hrun⟩ := check_bind_ok.1 hrun
    cases hread
    -- a row without a live node or without an id is passed over
    have hskip (hnone : ∀ s, t.graph.nodeAt row = some s → s.id = tombstone) (n : NodeId) :
        (n ≠ tombstone ∧ ∃ r ∈ rows, ∃ s, t.graph.nodeAt r = some s ∧ s.id = n) ↔
          n ≠ tombstone ∧ ∃ r ∈ row :: rows, ∃ s, t.graph.nodeAt r = some s ∧ s.id = n := by
      refine and_congr_right fun hn => ?_
      rw [exists_mem_cons_iff, or_iff_right]
      rintro ⟨s, hs, rfl⟩
      exact hn (hnone s hs)
    cases hat : t.graph.nodeAt row with
    | none =>
      rw [hat] at hrun
      obtain ⟨htxn, hd, hrem, hids, hedges⟩ := ih h hgone hrun
      exact ⟨htxn, hd, hrem, fun n => (hids n).trans (hskip (by simp [hat]) n), hedges⟩
    | some s =>
      have hslot := (t.graph.nodeAt_eq_some.1 hat).1
      cases hid : t.graph.nodeIdForNodeRow row with
      | none =>
        rw [hat, hid] at hrun
        obtain ⟨htxn, hd, hrem, hids, hedges⟩ := ih h hgone hrun
        refine ⟨htxn, hd, hrem, fun n => (hids n).trans (hskip ?_ n), hedges⟩
        rw [hat]
        rintro s' ⟨⟩
        by_contra hne
        have := nodeIdForNodeRow_eq_some.2 ⟨hne, s, hslot, rfl⟩
        rw [hid] at this
        cases this
      | some id =>
        rw [hat, hid] at hrun
        obtain ⟨hne, s', hs', hsid⟩ := nodeIdForNodeRow_eq_some.1 hid
        obtain rfl := mem_unique hs' hslot
        have hrow : t.graph.nodeRows id = some row := (h.nodeRows id row).2 ⟨hne, s', hslot, hsid⟩
        obtain ⟨incident, t1, hremove, hrun⟩ := bind_ok.1 hrun
        obtain ⟨hadm, rfl, rfl⟩ := removeNodeRow_ok.1 hremove
        obtain ⟨⟨ids1, edges1⟩, t2, hrest, hrun⟩ := bind_ok.1 hrun
        cases hrun
        have hrem1 := h.removed_node hrow hat
        have hmem : ∀ {i}, i ∈ t.graph.incidentEdges id ↔
            ∃ r e, t.graph.edgeAt r = some e ∧ e.id = i ∧ e.endsAt id = true :=
          h.mem_incidentEdges (hsid ▸ hgone row s' hat)
        have hgone1 : ∀ r s, (removedNode t.graph id row s').nodeAt r = some s →
            s.id ∉ insert id gone := by
          intro r s hs
          obtain ⟨hs, hother⟩ := (hrem1.nodeAt r s).1 hs
          rw [Set.mem_insert_iff]
          rintro (heq | hin)
          · exact hother heq
          · exact hgone r s hs hin
        obtain ⟨htxn, hd, hrem, hids, hedges⟩ := ih (h.removed hrow hat hadm) hgone1 hrest
        refine ⟨htxn, ?_, (hrem1.trans hrem).congr ?_ (by simp), ?_, ?_⟩
        · convert hd using 1
          ext n
          simp only [Set.mem_union, Set.mem_insert_iff]
          show n ∈ gone ∨ n ∈ id :: ids1 ↔ (n = id ∨ n ∈ gone) ∨ n ∈ ids1
          rw [mem_cons]
          tauto
        · intro r s _
          rw [mem_cons]
        · intro n
          rw [mem_cons, hids]
          constructor
          · rintro (rfl | ⟨hn, r, hr, s, hs, rfl⟩)
            · exact ⟨hne, row, mem_cons_self, s', hat, hsid⟩
            · exact ⟨hn, r, mem_cons_of_mem row hr, s, ((hrem1.nodeAt r s).1 hs).1, rfl⟩
          · rintro ⟨hn, r, hr, s, hs, rfl⟩
            by_cases heq : s.id = id
            · exact .inl heq
            · rcases mem_cons.1 hr with rfl | hr
              · rw [mem_unique hs hat] at heq
                exact absurd hsid heq
              · exact .inr ⟨hn, r, hr, s, (hrem1.nodeAt r s).2 ⟨hs, heq⟩, rfl⟩
        · intro i
          rw [mem_append, hmem, hedges]
          constructor
          · rintro (⟨r, e, he, hi, hend⟩ | ⟨r, e, he, hi, n, hn, hend⟩)
            · exact ⟨r, e, he, hi, id, mem_cons_self, hend⟩
            · exact ⟨r, e, ((hrem1.edgeAt r e).1 he).1, hi, n, mem_cons_of_mem id hn, hend⟩
          · rintro ⟨r, e, he, hi, n, hn, hend⟩
            rcases mem_cons.1 hn with rfl | hn
            · exact .inl ⟨r, e, he, hi, hend⟩
            · exact .inr ⟨r, e, (hrem1.edgeAt r e).2 ⟨he, not_false⟩, hi, n, hn, hend⟩

theorem clearEdges_ok {ids : List EdgeId} :
    ∀ {t t' : WriteTxn} {removed : List EdgeId}, Derived t.graph gone out → (∀ i ∈ ids, i ∈ out) →
      clearEdges ids t = (.ok removed, t') →
      t' = { t with graph := t'.graph } ∧ Derived t'.graph gone out ∧
        Removed t.graph t'.graph (fun _ => False) (fun e => e.id ∈ ids) ∧
        ∀ r e, t.graph.edgeAt r = some e → e.id ∈ ids → e.id ∈ removed := by
  induction ids with
  | nil =>
    intro t t' removed h _ hrun
    cases hrun
    exact ⟨rfl, h, (Removed.refl t.graph).congr (fun _ _ _ => Iff.rfl) (by simp), by simp⟩
  | cons i ids ih =>
    intro t t' removed h hout hrun
    have hids := fun j hj => hout j (mem_cons_of_mem i hj)
    rw [clearEdges] at hrun
    obtain ⟨row, hrow, hrun⟩ := check_bind_ok.1 hrun
    obtain ⟨slot, hread, hrun⟩ := check_bind_ok.1 hrun
    cases hread
    have hrow : t.graph.edgeRows i = some row := by
      split at hrow
      · next r hr => rw [hr, Except.ok.inj hrow]
      · cases hrow
    -- an edge that is dead already is passed over, and is not reported
    cases hat : t.graph.edgeAt row with
    | none =>
      rw [hat] at hrun
      obtain ⟨htxn, hd, hrem, hremoved⟩ := ih h hids hrun
      have hdead : ∀ r e, t.graph.edgeAt r = some e → e.id ≠ i := by
        intro r e he hi
        obtain ⟨row', hrow', he'⟩ := h.liveEdge_iff.2 ⟨hi, r, he⟩
        obtain rfl := mem_unique hrow hrow'
        rw [hat] at he'
        cases he'
      refine ⟨htxn, hd, hrem.congr (fun _ _ _ => Iff.rfl) fun r e he => ?_, fun r e he hi => ?_⟩
      · rw [mem_cons, or_iff_right (hdead r e he)]
      · exact hremoved r e he ((mem_cons.1 hi).resolve_left (hdead r e he))
    | some e =>
      rw [hat] at hrun
      obtain ⟨-, hid⟩ := h.live_edge hrow hat
      obtain ⟨⟨⟩, t0, hclear, hrun⟩ := bind_ok.1 hrun
      cases hclear
      obtain ⟨rest, t1, hrest, hrun⟩ := bind_ok.1 hrun
      cases hrun
      obtain ⟨htxn, hd, hrem, hremoved⟩ :=
        ih (h.edgeCleared hat (hid ▸ hout i mem_cons_self)) hids hrest
      have hrem1 := h.removed_edge hat
      refine ⟨htxn, hd, (hrem1.trans hrem).congr (by simp) fun r e' _ => ?_, fun r e' he' hi => ?_⟩
      · rw [mem_cons, hid]
      · by_cases heq : e'.id = i
        · rw [heq]
          exact mem_cons_self
        · refine mem_cons_of_mem _ (hremoved r e' ?_ ((mem_cons.1 hi).resolve_left heq))
          exact (hrem1.edgeAt r e').2 ⟨he', fun h' => heq (h'.trans hid)⟩

theorem removeEdgeRows_ok {rows : List Row} :
    ∀ {t t' : WriteTxn} {ids : List EdgeId}, Derived t.graph gone out →
      removeEdgeRows rows t = (.ok ids, t') →
      t' = { t with graph := t'.graph } ∧ Derived t'.graph gone out ∧
        Removed t.graph t'.graph (fun _ => False) (fun e => e.id ∈ ids) ∧
        ∀ i, i ∈ ids ↔ ∃ row ∈ rows, ∃ e, t.graph.edgeAt row = some e ∧ e.id = i := by
  induction rows with
  | nil =>
    intro t t' ids h hrun
    cases hrun
    exact ⟨rfl, h, (Removed.refl t.graph).congr (fun _ _ _ => Iff.rfl) (by simp), by simp⟩
  | cons row rows ih =>
    intro t t' ids h hrun
    rw [removeEdgeRows] at hrun
    obtain ⟨⟨slot, id⟩, hread, hrun⟩ := check_bind_ok.1 hrun
    cases hread
    cases hat : t.graph.edgeAt row with
    | none =>
      rw [hat] at hrun
      obtain ⟨htxn, hd, hrem, hids⟩ := ih h hrun
      refine ⟨htxn, hd, hrem, fun i => ?_⟩
      rw [hids]
      simp [hat]
    | some e =>
      have hslot := (t.graph.edgeAt_eq_some.1 hat).1
      have hid := edgeIdForEdgeRow_eq_some.2 ⟨h.stableIds row e hat, e, hslot, rfl⟩
      rw [hat, hid] at hrun
      obtain ⟨⟨⟩, t1, hremove, hrun⟩ := bind_ok.1 hrun
      cases hremove
      obtain ⟨rest, t2, hrest, hrun⟩ := bind_ok.1 hrun
      cases hrun
      have hrem1 : Removed t.graph (dropAdjacency e.id e.source e.target (clearEdge row e t.graph))
          (fun _ => False) fun e' => e'.id = e.id := { h.removed_edge hat with }
      obtain ⟨htxn, hd, hrem, hids⟩ := ih (h.edgeDropped hat) hrest
      refine ⟨htxn, hd, (hrem1.trans hrem).congr (by simp) fun r e' _ => ?_, fun i => ?_⟩
      · rw [mem_cons]
      · rw [mem_cons, hids]
        constructor
        · rintro (rfl | ⟨r, hr, e', he', rfl⟩)
          · exact ⟨row, mem_cons_self, e, hat, rfl⟩
          · exact ⟨r, mem_cons_of_mem row hr, e', ((hrem1.edgeAt r e').1 he').1, rfl⟩
        · rintro ⟨r, hr, e', he', rfl⟩
          by_cases heq : e'.id = e.id
          · exact .inl heq
          · rcases mem_cons.1 hr with rfl | hr
            · rw [mem_unique he' hat] at heq
              exact absurd rfl heq
            · exact .inr ⟨r, hr, e', (hrem1.edgeAt r e').2 ⟨he', heq⟩, rfl⟩

theorem mem_rowsOf {len : ℕ} {bitmap : Finset Row} :
    row ∈ rowsOf len bitmap ↔ row < len ∧ row ∈ bitmap := by
  rw [rowsOf, mem_filter, mem_range, decide_eq_true_eq]

theorem mem_cascade {i : EdgeId} : i ∈ (edges.insertionSort (· ≤ ·)).dedup ↔ i ∈ edges := by
  rw [mem_dedup, mem_insertionSort]

section

variable (h : Derived t.graph ∅ ∅)
include h

/-- **`truncate_node_type`**: the live nodes with the label go, with every edge that ends at one of
them. -/
theorem truncateNodeType_ok {label : DbString}
    (hrun : truncateNodeType label t = (.ok u, t')) :
    Derived t'.graph ∅ ∅ ∧ ∃ ids : List NodeId,
      (∀ n, n ∈ ids ↔ ∃ s, LiveNode t.graph n s ∧ label ∈ s.labels) ∧
      Removed t.graph t'.graph (fun s => s.id ∈ ids) (fun e => ∃ n ∈ ids, e.endsAt n = true) ∧
      (ids = [] ∧ t' = { t with graph := t'.graph } ∨ ids ≠ [] ∧ ∃ removed : List EdgeId,
        (∀ r e, t.graph.edgeAt r = some e → (∃ n ∈ ids, e.endsAt n = true) → e.id ∈ removed) ∧
        t' = { t with
          graph := t'.graph
          changes := t.changes ++ [.nodesOfTypeTruncated label]
          truncateExpansions := t.truncateExpansions ++
            [(t.changes.length, ids.map .nodeDeleted ++ removed.map .edgeDeleted)] }) := by
  obtain ⟨rows, hread, hrun⟩ := check_bind_ok.1 hrun
  cases hread
  obtain ⟨⟨ids, edges⟩, t1, hremove, hrun⟩ := bind_ok.1 hrun
  obtain ⟨htxn1, h1, hrem1, hids, hedges⟩ := removeNodeRows_ok h
    (fun _ _ _ => Set.notMem_empty _) hremove
  have hlabel : ∀ n, n ∈ ids ↔ ∃ s, LiveNode t.graph n s ∧ label ∈ s.labels := by
    intro n
    rw [hids]
    constructor
    · rintro ⟨hn, row, hrow, s, hs, rfl⟩
      obtain ⟨s', hs', hl⟩ := (h.labels label row).1 (mem_rowsOf.1 hrow).2
      obtain rfl := mem_unique hs hs'
      exact ⟨s, h.liveNode_iff.2 ⟨rfl, hn, row, hs⟩, hl⟩
    · rintro ⟨s, hs, hl⟩
      obtain ⟨rfl, hn, row, hs⟩ := h.liveNode_iff.1 hs
      refine ⟨hn, row, mem_rowsOf.2 ⟨?_, (h.labels label row).2 ⟨s, hs, hl⟩⟩, s, hs, rfl⟩
      exact (List.getElem?_eq_some_iff.1 (t.graph.nodeAt_eq_some.1 hs).1).1
  rw [Set.empty_union] at h1
  dsimp only at hrun
  split at hrun
  · next hnil =>
    -- no live node has the label
    subst hnil
    cases hrun
    have hrem : Removed t.graph t'.graph (fun s => s.id ∈ ([] : List NodeId))
        fun e => ∃ n ∈ ([] : List NodeId), e.endsAt n = true := hrem1.congr (by simp) (by simp)
    refine ⟨h1.finish (fun _ _ _ => Set.notMem_empty _) ?_, [], hlabel, hrem, .inl ⟨rfl, htxn1⟩⟩
    intro r e n _ hn
    cases hn
  · next hne =>
    obtain ⟨⟨⟩, t2, hunlist, hrun⟩ := bind_ok.1 hrun
    obtain ⟨live, hlive, rfl⟩ := removeEdgesFromAdjacency_ok.1 hunlist
    have h2 := h1.unlisted hlive (nodup_dedup _)
    have hrem2 := removed_unlisted t1.graph live
    obtain ⟨removed, t3, hclear, hrun⟩ := bind_ok.1 hrun
    obtain ⟨htxn3, h3, hrem3, hremoved⟩ := clearEdges_ok h2 (fun i hi => hi) hclear
    cases hrun
    have hcascade : ∀ r e, t.graph.edgeAt r = some e →
        (e.id ∈ (edges.insertionSort (· ≤ ·)).dedup ↔ ∃ n ∈ ids, e.endsAt n = true) := by
      intro r e he
      rw [mem_cascade, hedges]
      constructor
      · rintro ⟨r', e', he', hid, hends⟩
        obtain rfl := h.distinctIds he' he hid
        rwa [← mem_unique he' he]
      · intro hends
        exact ⟨r, e, he, rfl, hends⟩
    have hrem : Removed t.graph t3.graph (fun s => s.id ∈ ids)
        fun e => ∃ n ∈ ids, e.endsAt n = true := by
      refine ((hrem1.trans hrem2).trans hrem3).congr (by simp) fun r e he => ?_
      simp only [false_or]
      exact hcascade r e he
    refine ⟨h3.finish ?_ ?_, ids, hlabel, hrem, .inr ⟨hne, removed, fun r e he hends => ?_, ?_⟩⟩
    · intro r e he hin
      exact ((hrem3.edgeAt r e).1 he).2 hin
    · intro r e n he hn
      have hnot := ((hrem.edgeAt r e).1 he).2
      cases hend : e.endsAt n with
      | false => rfl
      | true => exact absurd ⟨n, hn, hend⟩ hnot
    · refine hremoved r e ?_ ((hcascade r e he).2 hends)
      exact ((hrem1.trans hrem2).edgeAt r e).2 ⟨he, by simp⟩
    · rw [htxn3, htxn1]

/-- **`truncate_edge_type`**: the live edges with the label go. -/
theorem truncateEdgeType_ok {label : DbString}
    (hrun : truncateEdgeType label t = (.ok u, t')) :
    Derived t'.graph ∅ ∅ ∧ Removed t.graph t'.graph (fun _ => False) (fun e => e.label = label) ∧
      ((∀ r e, t.graph.edgeAt r = some e → e.label ≠ label) ∧ t' = { t with graph := t'.graph } ∨
        ∃ removed : List EdgeId,
          (∀ r e, t.graph.edgeAt r = some e → e.label = label → e.id ∈ removed) ∧
          t' = { t with
            graph := t'.graph
            changes := t.changes ++ [.edgesOfTypeTruncated label]
            truncateExpansions := t.truncateExpansions ++
              [(t.changes.length, removed.map .edgeDeleted)] }) := by
  obtain ⟨rows, hread, hrun⟩ := check_bind_ok.1 hrun
  cases hread
  obtain ⟨ids, t1, hremove, hrun⟩ := bind_ok.1 hrun
  obtain ⟨htxn1, h1, hrem1, hids⟩ := removeEdgeRows_ok h hremove
  have hlabel : ∀ r e, t.graph.edgeAt r = some e → (e.id ∈ ids ↔ e.label = label) := by
    intro r e he
    rw [hids]
    constructor
    · rintro ⟨row, hrow, e', he', hid⟩
      obtain ⟨e'', he'', hl⟩ := (h.edgeLabels label row).1 (mem_rowsOf.1 hrow).2
      obtain rfl := h.distinctIds he' he hid
      obtain rfl := mem_unique he'' he
      exact hl
    · intro hl
      refine ⟨r, mem_rowsOf.2 ⟨?_, (h.edgeLabels label r).2 ⟨e, he, hl⟩⟩, e, he, rfl⟩
      exact (List.getElem?_eq_some_iff.1 (t.graph.edgeAt_eq_some.1 he).1).1
  have hrem : Removed t.graph t1.graph (fun _ => False) fun e => e.label = label :=
    hrem1.congr (fun _ _ _ => Iff.rfl) hlabel
  split at hrun
  · next hnil =>
    cases hrun
    refine ⟨h1, hrem, .inl ⟨fun r e he hl => ?_, htxn1⟩⟩
    have := (hlabel r e he).2 hl
    rw [hnil] at this
    cases this
  · cases hrun
    refine ⟨h1, hrem, .inr ⟨ids, fun r e he => (hlabel r e he).2, ?_⟩⟩
    rw [htxn1]

/-- **`factory_reset`**: every edge goes, and every node that has an id. -/
theorem factoryReset_ok (hrun : factoryReset t = (.ok u, t')) :
    Derived t'.graph ∅ ∅ ∧ ∃ (g1 : SeleneGraph) (ids : List NodeId) (removed : List EdgeId),
      Removed t.graph g1 (fun s => s.id ≠ tombstone) (fun _ => True) ∧
      (∀ r s, t.graph.nodeAt r = some s → s.id ≠ tombstone → s.id ∈ ids) ∧
      (∀ r e, t.graph.edgeAt r = some e → e.id ∈ removed) ∧
      t' = { t with
        graph := { g1 with boundType := none }
        changes := t.changes ++ [.graphReset]
        truncateExpansions := t.truncateExpansions ++
          [(t.changes.length, ids.map .nodeDeleted ++ removed.map .edgeDeleted)] } := by
  obtain ⟨rows, hread, hrun⟩ := check_bind_ok.1 hrun
  cases hread
  obtain ⟨edgeRows, hread, hrun⟩ := check_bind_ok.1 hrun
  cases hread
  obtain ⟨⟨ids, edges⟩, t1, hremove, hrun⟩ := bind_ok.1 hrun
  obtain ⟨htxn1, h1, hrem1, hids, -⟩ := removeNodeRows_ok h (fun _ _ _ => Set.notMem_empty _) hremove
  obtain ⟨removed, t2, hclear, hrun⟩ := bind_ok.1 hrun
  obtain ⟨htxn2, h2, hrem2, hremoved⟩ := removeEdgeRows_ok h1 hclear
  cases hrun
  have hnode : ∀ r s, t.graph.nodeAt r = some s → (s.id ∈ ids ↔ s.id ≠ tombstone) := by
    intro r s hs
    rw [hids, and_iff_left_iff_imp]
    intro _
    refine ⟨r, mem_filter.2 ⟨mem_range.2 ?_, by rw [hs]; rfl⟩, s, hs, rfl⟩
    exact (List.getElem?_eq_some_iff.1 (t.graph.nodeAt_eq_some.1 hs).1).1
  have hedge : ∀ r e, t.graph.edgeAt r = some e → e.id ∈ removed := by
    intro r e he
    rw [hremoved]
    refine ⟨r, mem_filter.2 ⟨mem_range.2 ?_, by rw [he]; rfl⟩, e,
      (hrem1.edgeAt r e).2 ⟨he, not_false⟩, rfl⟩
    exact (List.getElem?_eq_some_iff.1 (t.graph.edgeAt_eq_some.1 he).1).1
  have hrem : Removed t.graph t2.graph (fun s => s.id ≠ tombstone) fun _ => True := by
    refine (hrem1.trans hrem2).congr ?_ ?_
    · intro r s hs
      rw [or_false]
      exact hnode r s hs
    · intro r e he
      rw [false_or, iff_true]
      exact hedge r e he
  have hnone : ∀ r e, t2.graph.edgeAt r ≠ some e := fun r e he => ((hrem.edgeAt r e).1 he).2 trivial
  refine ⟨{ h2.finish (fun r e he => absurd he (hnone r e)) (fun r e n he => absurd he (hnone r e)) with },
    t2.graph, ids, removed, hrem, fun r s hs => (hnode r s hs).2, hedge, ?_⟩
  rw [htxn2, htxn1]

end

end Selene.Graph
