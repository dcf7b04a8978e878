import Selene.Proof.DerivedState

/-!
# Deletion

A node goes with the edges that end at it. `delete_node` reads them from the adjacency lists,
takes them out of all lists in one pass and clears their rows; `truncate_node_type` does the same
for many nodes at once. With the derived state intact no step after the vector indexes can be
refused, and exactly the incident edges go (`deleteNode_spec`).
-/

namespace Selene.Graph

open Mutator Attempt Function List Option

variable {g : SeleneGraph} {gone : Set NodeId} {out : Set EdgeId} {t t' : WriteTxn}

variable {e : EdgeSlot} {edges : List (EdgeId × EdgeSlot)} {ids : List EdgeId} {id n : NodeId} {s : NodeSlot}
  {row : Row}

/-- The edge ends at the node. -/
def EdgeSlot.endsAt (e : EdgeSlot) (node : NodeId) : Bool := e.source == node || e.target == node

theorem endsAt_iff {node : NodeId} : e.endsAt node = true ↔ e.source = node ∨ e.target = node := by
  simp [EdgeSlot.endsAt]

theorem endsAt_of_mem_ends {a : AdjacencyEdge} :
    (n, a) ∈ e.outEnds ∨ (n, a) ∈ e.inEnds ∨ (n, a) ∈ e.undirectedEnds → e.endsAt n = true := by
  rw [endsAt_iff]
  rintro (h | h | h)
  · unfold EdgeSlot.outEnds at h
    split at h <;> simp at h
    exact .inl h.1.symm
  · unfold EdgeSlot.inEnds at h
    split at h <;> simp at h
    exact .inr h.1.symm
  · obtain ⟨-, ⟨h, -⟩ | ⟨h, -⟩⟩ := mem_undirectedEnds.1 h
    · exact .inl h.symm
    · exact .inr h.symm

theorem mem_ends_of_endsAt (h : e.endsAt n = true) :
    ∃ a, (n, a) ∈ e.outEnds ∨ (n, a) ∈ e.inEnds ∨ (n, a) ∈ e.undirectedEnds := by
  cases hd : e.directionality with
  | directed =>
    rcases endsAt_iff.1 h with rfl | rfl
    · exact ⟨⟨e.label, e.target, e.id⟩, .inl (by simp [EdgeSlot.outEnds, hd])⟩
    · exact ⟨⟨e.label, e.source, e.id⟩, .inr (.inl (by simp [EdgeSlot.inEnds, hd]))⟩
  | undirected =>
    rcases endsAt_iff.1 h with rfl | rfl
    · exact ⟨_, .inr (.inr (mem_undirectedEnds.2 ⟨hd, .inl ⟨rfl, rfl⟩⟩))⟩
    · exact ⟨_, .inr (.inr (mem_undirectedEnds.2 ⟨hd, .inr ⟨rfl, rfl⟩⟩))⟩

/-- **The three lists of a node name the live edges that end at it**, of whatever kind. -/
theorem Derived.mem_incidentEdges (h : Derived g gone ∅) {node : NodeId} (hn : node ∉ gone)
    {id : EdgeId} : id ∈ g.incidentEdges node ↔
      ∃ row e, g.edgeAt row = some e ∧ e.id = id ∧ e.endsAt node = true := by
  rw [SeleneGraph.incidentEdges, List.mem_dedup, List.mem_insertionSort, List.mem_map]
  simp only [List.mem_append]
  constructor
  · rintro ⟨a, (ha | ha) | ha, rfl⟩
    · obtain ⟨-, row, e, he, -, hea⟩ := (h.outgoing.mem node a).1 ha
      exact ⟨row, e, he, (isEnds_out.edgeId hea).symm, endsAt_of_mem_ends (.inl hea)⟩
    · obtain ⟨-, row, e, he, -, hea⟩ := (h.incoming.mem node a).1 ha
      exact ⟨row, e, he, (isEnds_in.edgeId hea).symm, endsAt_of_mem_ends (.inr (.inl hea))⟩
    · obtain ⟨-, row, e, he, -, hea⟩ := (h.undirected.mem node a).1 ha
      exact ⟨row, e, he, (isEnds_undirected.edgeId hea).symm, endsAt_of_mem_ends (.inr (.inr hea))⟩
  · rintro ⟨row, e, he, rfl, hend⟩
    obtain ⟨a, hea | hea | hea⟩ := mem_ends_of_endsAt hend
    · exact ⟨a, .inl (.inl ((h.outgoing.mem node a).2 ⟨hn, row, e, he, Set.notMem_empty _, hea⟩)),
        isEnds_out.edgeId hea⟩
    · exact ⟨a, .inl (.inr ((h.incoming.mem node a).2 ⟨hn, row, e, he, Set.notMem_empty _, hea⟩)),
        isEnds_in.edgeId hea⟩
    · exact ⟨a, .inr ((h.undirected.mem node a).2 ⟨hn, row, e, he, Set.notMem_empty _, hea⟩),
        isEnds_undirected.edgeId hea⟩

theorem nodup_incidentEdges (g : SeleneGraph) (node : NodeId) : (g.incidentEdges node).Nodup :=
  nodup_dedup _

/-! ## Out of the lists -/

/-- A live edge by its id. -/
def LiveEdge (g : SeleneGraph) (id : EdgeId) (e : EdgeSlot) : Prop :=
  ∃ row, g.edgeRows id = some row ∧ g.edgeAt row = some e

theorem Derived.liveEdge_iff (h : Derived g gone out) {id : EdgeId} :
    LiveEdge g id e ↔ e.id = id ∧ ∃ row, g.edgeAt row = some e := by
  constructor
  · rintro ⟨row, hrow, he⟩
    exact ⟨(h.live_edge hrow he).2, row, he⟩
  · rintro ⟨rfl, row, he⟩
    exact ⟨row, (h.edgeRows e.id row).2 ⟨h.stableIds row e he, e, (g.edgeAt_eq_some.1 he).1, rfl⟩, he⟩

theorem liveEdges_ok (h : liveEdges g ids = .ok edges) :
    edges.map Prod.fst = ids ∧ ∀ x ∈ edges, LiveEdge g x.1 x.2 := by
  induction ids generalizing edges with
  | nil =>
    cases h
    simp
  | cons id ids ih =>
    obtain ⟨⟨row, e⟩, hlive, h⟩ := except_bind_ok.1 h
    obtain ⟨rest, hrest, h⟩ := except_bind_ok.1 h
    cases h
    obtain ⟨hmap, hall⟩ := ih hrest
    refine ⟨by rw [map_cons, hmap], fun x hx => ?_⟩
    rcases mem_cons.1 hx with rfl | hx
    · exact ⟨row, requireLiveEdge_ok.1 hlive⟩
    · exact hall x hx

theorem liveEdges_returns (h : ∀ id ∈ ids, ∃ e, LiveEdge g id e) :
    ∃ edges, liveEdges g ids = .ok edges := by
  induction ids with
  | nil => exact ⟨[], rfl⟩
  | cons id ids ih =>
    obtain ⟨e, row, hlive⟩ := h id mem_cons_self
    obtain ⟨edges, hedges⟩ := ih fun i hi => h i (mem_cons_of_mem id hi)
    refine ⟨(id, e) :: edges, ?_⟩
    exact except_bind_ok.2 ⟨(row, e), requireLiveEdge_ok.2 hlive,
      except_bind_ok.2 ⟨edges, hedges, rfl⟩⟩

theorem outgoingAt_iff : outgoingAt e n = true ↔ ∃ a, (n, a) ∈ e.outEnds := by
  unfold outgoingAt EdgeSlot.outEnds
  cases e.directionality with
  | directed => simpa using eq_comm
  | undirected => simp

theorem incomingAt_iff : incomingAt e n = true ↔ ∃ a, (n, a) ∈ e.inEnds := by
  unfold incomingAt EdgeSlot.inEnds
  cases e.directionality with
  | directed => simpa using eq_comm
  | undirected => simp

theorem undirectedAt_iff : undirectedAt e n = true ↔ ∃ a, (n, a) ∈ e.undirectedEnds := by
  simp only [mem_undirectedEnds]
  unfold undirectedAt
  simp only [Bool.and_eq_true, beq_iff_eq, Bool.or_eq_true]
  constructor
  · rintro ⟨hd, rfl | rfl⟩
    · exact ⟨_, hd, .inl ⟨rfl, rfl⟩⟩
    · exact ⟨_, hd, .inr ⟨rfl, rfl⟩⟩
  · rintro ⟨a, hd, ⟨rfl, -⟩ | ⟨rfl, -⟩⟩
    · exact ⟨hd, .inl rfl⟩
    · exact ⟨hd, .inr rfl⟩

/-- The groups of `remove_edges_from_adjacency`: of the listed edges those with an end at a node. -/
theorem mem_group (h : Derived g gone out)
    (hedges : liveEdges g ids = .ok edges) {touches : EdgeSlot → NodeId → Bool}
    {ends : EdgeSlot → List (NodeId × AdjacencyEdge)}
    (htouch : ∀ e n, touches e n = true ↔ ∃ a, (n, a) ∈ ends e) (n : NodeId) (id : EdgeId) :
    id ∈ group touches edges n ↔
      id ∈ {i | i ∈ ids} ∧ ∃ row e a, g.edgeAt row = some e ∧ e.id = id ∧ (n, a) ∈ ends e := by
  obtain ⟨hmap, hlive⟩ := liveEdges_ok hedges
  refine List.mem_map.trans ⟨?_, ?_⟩
  · rintro ⟨⟨i, e⟩, hx, rfl⟩
    obtain ⟨hx, ht⟩ := mem_filter.1 hx
    obtain ⟨hid, row, he⟩ := h.liveEdge_iff.1 (hlive _ hx)
    obtain ⟨a, ha⟩ := (htouch e n).1 ht
    have hmem : i ∈ edges.map Prod.fst := mem_map_of_mem hx
    exact ⟨hmap ▸ hmem, row, e, a, he, hid, ha⟩
  · rintro ⟨hid, row, e, a, he, rfl, ha⟩
    have hmem : e.id ∈ edges.map Prod.fst := hmap.symm ▸ hid
    obtain ⟨⟨i, e'⟩, hx, hi⟩ := List.mem_map.1 hmem
    obtain ⟨hid', row', he'⟩ := h.liveEdge_iff.1 (hlive _ hx)
    have hrow := h.distinctIds he' he (hid'.trans hi)
    obtain rfl : e' = e := mem_unique he' (hrow ▸ he)
    exact ⟨(i, e'), mem_filter.2 ⟨hx, (htouch e' n).2 ⟨a, ha⟩⟩, hi⟩

theorem nodup_group
    (hedges : liveEdges g ids = .ok edges) (hids : ids.Nodup) (touches : EdgeSlot → NodeId → Bool)
    (n : NodeId) : (group touches edges n).Nodup := by
  have hmap := (liveEdges_ok hedges).1
  exact (filter_sublist.map Prod.fst).nodup (hmap ▸ hids)

theorem Derived.unlisted (h : Derived g gone ∅) (hedges : liveEdges g ids = .ok edges) (hids : ids.Nodup) :
    Derived (unlisted g edges) gone {i | i ∈ ids} :=
  { h with
    outgoing := h.outgoing.dropMany isEnds_out h.distinctIds (nodup_group hedges hids outgoingAt)
      (mem_group h hedges fun _ _ => outgoingAt_iff) fun _ => rfl
    incoming := h.incoming.dropMany isEnds_in h.distinctIds (nodup_group hedges hids incomingAt)
      (mem_group h hedges fun _ _ => incomingAt_iff) fun _ => rfl
    undirected := h.undirected.dropMany isEnds_undirected h.distinctIds
      (nodup_group hedges hids undirectedAt) (mem_group h hedges fun _ _ => undirectedAt_iff)
      fun _ => rfl }

/-- **The end of a cascade**: no live edge is out of the lists or ends at a node that went. -/
theorem Derived.finish (h : Derived g gone out) (hout : ∀ r e, g.edgeAt r = some e → e.id ∉ out)
    (hgone : ∀ r e n, g.edgeAt r = some e → n ∈ gone → e.endsAt n = false) : Derived g ∅ ∅ := by
  have hends : ∀ r e n a, g.edgeAt r = some e →
      (n, a) ∈ e.outEnds ∨ (n, a) ∈ e.inEnds ∨ (n, a) ∈ e.undirectedEnds → n ∉ gone := by
    intro r e n a he ha hn
    have hf := hgone r e n he hn
    rw [endsAt_of_mem_ends ha] at hf
    cases hf
  exact { h with
    outgoing := h.outgoing.finish hout fun r e n a he ha => hends r e n a he (.inl ha)
    incoming := h.incoming.finish hout fun r e n a he ha => hends r e n a he (.inr (.inl ha))
    undirected := h.undirected.finish hout fun r e n a he ha => hends r e n a he (.inr (.inr ha)) }

/-! ## What goes -/

/-- `g'` is `g` without some live nodes and edges. Ids stay given out, and what the vector indexes
take does not change. -/
structure Removed (g g' : SeleneGraph) (node : NodeSlot → Prop) (edge : EdgeSlot → Prop) : Prop where
  nodeAt : ∀ r s, g'.nodeAt r = some s ↔ g.nodeAt r = some s ∧ ¬ node s
  edgeAt : ∀ r e, g'.edgeAt r = some e ↔ g.edgeAt r = some e ∧ ¬ edge e
  nodeRows : g'.nodeRows = g.nodeRows
  edgeRows : g'.edgeRows = g.edgeRows
  nodeLength : g'.nodeStore.length = g.nodeStore.length
  edgeLength : g'.edgeStore.length = g.edgeStore.length
  nodeIds : g'.nodeStore.map (·.id) = g.nodeStore.map (·.id)
  edgeIds : g'.edgeStore.map (·.id) = g.edgeStore.map (·.id)
  boundType : g'.boundType = g.boundType
  admitted : ∀ old new, VectorIndex.Admitted g'.vectorIndex old new ↔
    VectorIndex.Admitted g.vectorIndex old new

namespace Removed

variable {g' g'' : SeleneGraph} {node node' : NodeSlot → Prop} {edge edge' : EdgeSlot → Prop}

theorem refl (g : SeleneGraph) : Removed g g (fun _ => False) fun _ => False where
  nodeAt _ _ := by simp
  edgeAt _ _ := by simp
  nodeRows := rfl
  edgeRows := rfl
  nodeLength := rfl
  edgeLength := rfl
  nodeIds := rfl
  edgeIds := rfl
  boundType := rfl
  admitted _ _ := Iff.rfl

theorem trans (h : Removed g g' node edge) (h' : Removed g' g'' node' edge') :
    Removed g g'' (fun s => node s ∨ node' s) fun e => edge e ∨ edge' e where
  nodeAt r s := by rw [h'.nodeAt, h.nodeAt, and_assoc, not_or]
  edgeAt r e := by rw [h'.edgeAt, h.edgeAt, and_assoc, not_or]
  nodeRows := h'.nodeRows.trans h.nodeRows
  edgeRows := h'.edgeRows.trans h.edgeRows
  nodeLength := h'.nodeLength.trans h.nodeLength
  edgeLength := h'.edgeLength.trans h.edgeLength
  nodeIds := h'.nodeIds.trans h.nodeIds
  edgeIds := h'.edgeIds.trans h.edgeIds
  boundType := h'.boundType.trans h.boundType
  admitted old new := (h'.admitted old new).trans (h.admitted old new)

theorem congr (h : Removed g g' node edge)
    (hnode : ∀ r s, g.nodeAt r = some s → (node s ↔ node' s))
    (hedge : ∀ r e, g.edgeAt r = some e → (edge e ↔ edge' e)) : Removed g g' node' edge' :=
  { h with
    nodeAt := fun r s => by
      rw [h.nodeAt]
      exact and_congr_right fun hs => not_congr (hnode r s hs)
    edgeAt := fun r e => by
      rw [h.edgeAt]
      exact and_congr_right fun he => not_congr (hedge r e he) }

end Removed

theorem VectorIndex.admitted_visited {indexes : VectorIndexMap} {old new o n : Option Payload}
    : Admitted (visited old new row indexes) o n ↔ Admitted indexes o n := by
  have hadmits : ∀ (entry : VectorIndexEntry) (a b v : Option Value),
      (entry.settled a b row).Admits v ↔ entry.Admits v := by
    intro entry a b v
    simp only [VectorIndexEntry.Admits, VectorIndexEntry.settled_admitValue]
  refine forall_congr' fun key => ?_
  simp only [AdmitsAt, visited, map_eq_some_iff, forall_exists_index, and_imp,
    forall_apply_eq_imp_iff₂, hadmits]

theorem modify_map_id {σ : Type} (store : List σ) (row : ℕ) (f : σ → σ) (id : σ → ℕ)
    (hf : ∀ s, id (f s) = id s) : (store.modify row f).map id = store.map id := by
  refine ext_getElem? fun i => ?_
  rw [getElem?_map, getElem?_map, getElem?_modify]
  cases store[i]? with
  | none => rfl
  | some s =>
    simp only [map_some]
    split
    · simp [hf]
    · simp

theorem removed_node_row (f : NodeSlot → NodeSlot) (hs : g.nodeAt row = some s)
    (hids : ∀ r s', g.nodeAt r = some s' → (s'.id = id ↔ r = row))
    (hdead : ∀ s, (f s).alive = false) (hid : ∀ s, (f s).id = s.id) :
    Removed g { g with nodeStore := g.nodeStore.modify row f } (fun s => s.id = id) fun _ => False where
  nodeAt r s' := by
    rw [nodeAt_modify rfl hs]
    by_cases hr : r = row
    · subst hr
      rw [update_self, filter_some_neg (by simp [hdead])]
      simp only [reduceCtorEq, false_iff, not_and, not_not]
      intro hs'
      exact (hids r s' hs').2 rfl
    · rw [update_of_ne hr, iff_self_and]
      intro hs' hid
      exact hr ((hids r s' hs').1 hid)
  edgeAt r e := (and_iff_left not_false).symm
  nodeRows := rfl
  edgeRows := rfl
  nodeLength := length_modify ..
  edgeLength := rfl
  nodeIds := modify_map_id _ _ _ _ hid
  edgeIds := rfl
  boundType := rfl
  admitted _ _ := Iff.rfl

theorem removed_edge_row (f : EdgeSlot → EdgeSlot) (hinj : DistinctIds g.edgeAt) (he : g.edgeAt row = some e)
    (hdead : ∀ e, (f e).alive = false) (hid : ∀ e, (f e).id = e.id) :
    Removed g { g with edgeStore := g.edgeStore.modify row f } (fun _ => False)
      fun e' => e'.id = e.id where
  nodeAt r s := (and_iff_left not_false).symm
  edgeAt r e' := by
    rw [edgeAt_modify rfl he]
    by_cases hr : r = row
    · subst hr
      rw [update_self, filter_some_neg (by simp [hdead])]
      simp only [reduceCtorEq, false_iff, not_and, not_not]
      intro he'
      rw [mem_unique he' he]
    · rw [update_of_ne hr, iff_self_and]
      intro he' hid
      exact hr (hinj he' he hid)
  nodeRows := rfl
  edgeRows := rfl
  nodeLength := rfl
  edgeLength := length_modify ..
  nodeIds := rfl
  edgeIds := modify_map_id _ _ _ _ hid
  boundType := rfl
  admitted _ _ := Iff.rfl

theorem Derived.removed_node (h : Derived g gone out)
    (hrow : g.nodeRows id = some row) (hs : g.nodeAt row = some s) :
    Removed g (removedNode g id row s) (fun s => s.id = id) fun _ => False :=
  { removed_node_row (fun s => { s with labels := ∅, properties := ∅, alive := false }) hs
      (h.live_node hrow hs).2.2 (fun _ => rfl) (fun _ => rfl) with
    admitted := fun _ _ => VectorIndex.admitted_visited }

theorem removed_unlisted (g : SeleneGraph) (edges : List (EdgeId × EdgeSlot)) :
    Removed g (unlisted g edges) (fun _ => False) fun _ => False :=
  { Removed.refl g with }

theorem Derived.removed_edge (h : Derived g gone out) (he : g.edgeAt row = some e) :
    Removed g (clearEdge row e g) (fun _ => False) fun e' => e'.id = e.id :=
  { removed_edge_row (fun s => { s with
      label := "", source := tombstone, target := tombstone, properties := ∅, alive := false })
      h.distinctIds he (fun _ => rfl) (fun _ => rfl) with }

theorem Removed.liveEdge {g' : SeleneGraph} {node : NodeSlot → Prop} {edge : EdgeSlot → Prop}
    (h : Removed g g' node edge) {id : EdgeId} : LiveEdge g' id e ↔ LiveEdge g id e ∧ ¬ edge e := by
  simp only [LiveEdge, h.edgeRows, h.edgeAt]
  tauto

/-! ## `delete_node` -/

theorem each_deleteDetachedEdge (hids : ids.Nodup) : ∀ {t : WriteTxn}, Derived t.graph gone out →
      (∀ i ∈ ids, i ∈ out ∧ ∃ e, LiveEdge t.graph i e) →
      ∃ g', each deleteDetachedEdge ids t = (.ok (), t.after g' (ids.map .edgeDeleted)) ∧
        Derived g' gone out ∧ Removed t.graph g' (fun _ => False) fun e => e.id ∈ ids := by
  induction ids with
  | nil =>
    intro t h _
    refine ⟨t.graph, by simp, h, (Removed.refl t.graph).congr (fun _ _ _ => Iff.rfl) ?_⟩
    simp
  | cons i ids ih =>
    intro t h hlive
    obtain ⟨hi, hids⟩ := nodup_cons.1 hids
    obtain ⟨hout, e, row, hrow, he⟩ := hlive i mem_cons_self
    obtain ⟨-, hid⟩ := h.live_edge hrow he
    have hstep : deleteDetachedEdge i t =
        (.ok (), t.after (clearEdge row e t.graph) [.edgeDeleted i]) :=
      deleteDetachedEdge_ok.2 ⟨row, e, hrow, he, rfl⟩
    have hremoved := h.removed_edge he
    obtain ⟨g', hrun, hderived, hrest⟩ := ih hids
      (t := t.after (clearEdge row e t.graph) [.edgeDeleted i])
      (h.edgeCleared he (hid ▸ hout)) (by
        intro j hj
        obtain ⟨hjout, e', hlive'⟩ := hlive j (mem_cons_of_mem i hj)
        refine ⟨hjout, e', hremoved.liveEdge.2 ⟨hlive', fun heq => hi ?_⟩⟩
        rwa [← hid, ← heq, (h.liveEdge_iff.1 hlive').1])
    refine ⟨g', ?_, hderived, (hremoved.trans hrest).congr (by simp) ?_⟩
    · rw [each_cons, bind_of_ok hstep, hrun]
      simp
    · intro r e' _
      rw [mem_cons, hid]

theorem Derived.mem_incidentEdges_iff (h : Derived g ∅ ∅) {r : Row}
    (he : g.edgeAt r = some e) : e.id ∈ g.incidentEdges id ↔ e.endsAt id = true := by
  rw [h.mem_incidentEdges (Set.notMem_empty id)]
  constructor
  · rintro ⟨r', e', he', hid, hend⟩
    obtain rfl := h.distinctIds he' he hid
    rwa [← mem_unique he' he]
  · intro hend
    exact ⟨r, e, he, rfl, hend⟩

/-- **`delete_node`** on a live node that no vector index holds back: the node goes, with every edge
that ends at it. -/
theorem deleteNode_spec (h : Derived t.graph ∅ ∅)
    (hrow : t.graph.nodeRows id = some row) (hs : t.graph.nodeAt row = some s)
    (hadm : VectorIndex.Admitted t.graph.vectorIndex (some (s.labels, s.properties)) none) :
    ∃ g', deleteNode id t = (.ok (), t.after g'
      (.nodeDeleted id :: (t.graph.incidentEdges id).map .edgeDeleted)) ∧
      Derived g' ∅ ∅ ∧ Removed t.graph g' (fun s => s.id = id) fun e => e.endsAt id = true := by
  set incident := t.graph.incidentEdges id with hincident
  have hmem : ∀ {i}, i ∈ incident ↔
      ∃ row e, t.graph.edgeAt row = some e ∧ e.id = i ∧ e.endsAt id = true :=
    h.mem_incidentEdges (Set.notMem_empty id)
  have hnodup := nodup_incidentEdges t.graph id
  -- the node goes
  have h1 := h.removed hrow hs hadm
  have hrem1 := h.removed_node hrow hs
  rw [insert_empty_eq] at h1
  -- its edges leave the lists
  have hlive : ∀ i ∈ incident, ∃ e, LiveEdge (removedNode t.graph id row s) i e := by
    intro i hi
    obtain ⟨r, e, he, hid, -⟩ := hmem.1 hi
    exact ⟨e, hrem1.liveEdge.2 ⟨h.liveEdge_iff.2 ⟨hid, r, he⟩, not_false⟩⟩
  obtain ⟨edges, hedges⟩ := liveEdges_returns hlive
  have h2 := h1.unlisted hedges hnodup
  have hrem2 := removed_unlisted (removedNode t.graph id row s) edges
  -- their rows are cleared
  obtain ⟨g', hrun, h3, hrem3⟩ := each_deleteDetachedEdge hnodup
    (t := t.after (unlisted (removedNode t.graph id row s) edges) [.nodeDeleted id]) h2 (by
      intro i hi
      obtain ⟨e, he⟩ := hlive i hi
      exact ⟨hi, e, hrem2.liveEdge.2 ⟨he, not_false⟩⟩)
  have hremoved : Removed t.graph g' (fun s => s.id = id) fun e => e.endsAt id = true := by
    refine ((hrem1.trans hrem2).trans hrem3).congr (by simp) ?_
    intro r e he
    simp only [false_or]
    exact h.mem_incidentEdges_iff he
  refine ⟨g', ?_, h3.finish ?_ ?_, hremoved⟩
  · refine check_bind_ok.2 ⟨(row, s), requireLiveNode_ok.2 ⟨hrow, hs⟩, ?_⟩
    refine bind_ok.2 ⟨incident, _, removeNodeRow_ok.2 ⟨hadm, rfl, rfl⟩, ?_⟩
    refine bind_ok.2 ⟨(), _, removeEdgesFromAdjacency_ok.2 ⟨edges, hedges, rfl⟩, ?_⟩
    refine bind_ok.2 ⟨(), _, record_apply _ _, hrun.trans ?_⟩
    simp [incident]
  · intro r e he hin
    exact ((hrem3.edgeAt r e).1 he).2 hin
  · intro r e n he hn
    obtain rfl : n = id := hn
    have := ((hremoved.edgeAt r e).1 he).2
    simpa using this

end Selene.Graph
