import Selene.Proof.ReplayEquivalence

/-!
# What an operation does to the elements

By ids, every step of a data operation writes one node, writes one edge, or removes elements
together with the edges that end at a removed node (`DataOperation.run_effects`). The changes it
records say which: a write records a change of the element, and a removal leaves a tombstone for
every removed element, in the change list or staged beside a bulk change.
-/

namespace Selene.Graph

open Mutator Attempt Function

variable {g g' : SeleneGraph} {t t' t'' : WriteTxn}

variable {label : DbString} {e : EdgeSlot} {id : NodeId} {s : NodeSlot} {props : PropertyMap} {row : Row}
  {u : Unit}

/-! ## Changes and elements -/

/-- The element whose payload a change writes. -/
def Change.written : Change → Option EntityId
  | .nodeCreated id _ _ | .nodeUpdated id _ _ | .nodePropertyRemoved id _ | .nodeLabelRemoved id _ =>
    some (.node id)
  | .edgeCreated id _ _ _ _ _ | .edgeUpdated id _ | .edgePropertyRemoved id _ => some (.edge id)
  | .nodeDeleted _ | .edgeDeleted _ | .nodesOfTypeTruncated _ | .edgesOfTypeTruncated _
  | .graphReset => none

/-- The node whose labels a change may move. -/
def Change.relabelled : Change → Option NodeId
  | .nodeUpdated id labelsDiff _ =>
    if labelsDiff.added = [] ∧ labelsDiff.removed = [] then none else some id
  | .nodeLabelRemoved id _ => some id
  | _ => none

/-- A change that stands for many removals. -/
def Change.isBulk : Change → Bool
  | .nodesOfTypeTruncated _ | .edgesOfTypeTruncated _ | .graphReset => true
  | _ => false

/-! ## Effects -/

structure NodeWrite (t t' : WriteTxn) (id : NodeId) (s : NodeSlot) (c : Change) : Prop where
  written : c.written = some (.node id)
  nodes : t'.graph.node = update t.graph.node id (some s)
  edges : t'.graph.edge = t.graph.edge
  labels : ∀ old, t.graph.node id = some old → old.labels = s.labels ∨ c.relabelled = some id
  changes : t'.changes = t.changes ++ [c]
  expansions : t'.truncateExpansions = t.truncateExpansions

structure EdgeWrite (t t' : WriteTxn) (id : EdgeId) (e : EdgeSlot) (c : Change) : Prop where
  written : c.written = some (.edge id)
  nodes : t'.graph.node = t.graph.node
  edges : t'.graph.edge = update t.graph.edge id (some e)
  ends : (∃ old, t.graph.edge id = some old ∧ old.source = e.source ∧ old.target = e.target) ∨
    t.graph.node e.source ≠ none ∧ t.graph.node e.target ≠ none
  changes : t'.changes = t.changes ++ [c]
  expansions : t'.truncateExpansions = t.truncateExpansions

/-- The tombstones `ds` are in the change list, or beside a bulk change. -/
def Recorded (t t' : WriteTxn) (ds : List Change) : Prop :=
  t'.changes = t.changes ++ ds ∧ t'.truncateExpansions = t.truncateExpansions ∨
    ∃ c : Change, c.isBulk = true ∧ t'.changes = t.changes ++ [c] ∧
      t'.truncateExpansions = t.truncateExpansions ++ [(t.changes.length, ds)]

structure Removal (t t' : WriteTxn) (node : NodeId → Prop) (edge : EdgeId → Prop) (ds : List Change) :
    Prop where
  nodes : ∀ id s, t'.graph.node id = some s ↔ t.graph.node id = some s ∧ ¬ node id
  edges : ∀ id e, t'.graph.edge id = some e ↔ t.graph.edge id = some e ∧ ¬ edge id
  cascade : ∀ id e n, t.graph.edge id = some e → node n → e.endsAt n = true → edge id
  deletions : ∀ c ∈ ds, c.written = none ∧ c.relabelled = none ∧ c.isBulk = false
  nodeTombstones : ∀ id s, t.graph.node id = some s → node id → .nodeDeleted id ∈ ds
  edgeTombstones : ∀ id e, t.graph.edge id = some e → edge id → .edgeDeleted id ∈ ds
  recorded : Recorded t t' ds

inductive Effect (t t' : WriteTxn) : Prop where
  | node {id : NodeId} {s : NodeSlot} {c : Change} (h : NodeWrite t t' id s c)
  | edge {id : EdgeId} {e : EdgeSlot} {c : Change} (h : EdgeWrite t t' id e c)
  | removal {node : NodeId → Prop} {edge : EdgeId → Prop} {ds : List Change}
    (h : Removal t t' node edge ds)

/-- Effects one after the other. -/
abbrev Effects := Relation.ReflTransGen Effect

/-! ## Writes -/

section

variable {σ : Type} {rows : ℕ → Option Row} {store : List σ} {id : σ → ℕ} (h : IdMap rows store id)
include h

theorem IdMap.other {i j : ℕ} (hi : rows i = some row) (hj : j ≠ i) :
    rows j ≠ some row := by
  intro hrow
  obtain ⟨-, s, hs, hid⟩ := (h i row).1 hi
  obtain ⟨-, s', hs', hid'⟩ := (h j row).1 hrow
  rw [Option.mem_unique hs hs'] at hid
  exact hj (hid'.symm.trans hid)

theorem IdMap.ne_length (j : ℕ) : rows j ≠ some store.length := by
  intro hrow
  obtain ⟨-, s, hs, -⟩ := (h j _).1 hrow
  exact (lt_irrefl store.length) (List.getElem?_eq_some_iff.1 hs).1

end

section

variable (h : Derived g ∅ ∅)
include h

theorem Derived.node_modified (hrow : g.nodeRows id = some row) (hrows : g'.nodeRows = g.nodeRows)
    (hat : g'.nodeAt = update g.nodeAt row (some s)) : g'.node = update g.node id (some s) :=
  bind_eq_update (hrows ▸ hrow)
    (fun j hj => ⟨congrFun hrows j, h.nodeRows.other hrow hj⟩) hat

theorem Derived.edge_modified {id : EdgeId}
    (hrow : g.edgeRows id = some row) (hrows : g'.edgeRows = g.edgeRows)
    (hat : g'.edgeAt = update g.edgeAt row (some e)) : g'.edge = update g.edge id (some e) :=
  bind_eq_update (hrows ▸ hrow)
    (fun j hj => ⟨congrFun hrows j, h.edgeRows.other hrow hj⟩) hat

theorem Derived.node_appended (hrows : g'.nodeRows = update g.nodeRows id (some g.nodeStore.length))
    (hat : g'.nodeAt = update g.nodeAt g.nodeStore.length (some s)) :
    g'.node = update g.node id (some s) := by
  have hid : g'.nodeRows id = some g.nodeStore.length := by rw [hrows, update_self]
  refine bind_eq_update hid (fun j hj => ⟨?_, h.nodeRows.ne_length j⟩) hat
  rw [hrows, update_of_ne hj]

theorem Derived.edge_appended {id : EdgeId}
    (hrows : g'.edgeRows = update g.edgeRows id (some g.edgeStore.length))
    (hat : g'.edgeAt = update g.edgeAt g.edgeStore.length (some e)) :
    g'.edge = update g.edge id (some e) := by
  have hid : g'.edgeRows id = some g.edgeStore.length := by rw [hrows, update_self]
  refine bind_eq_update hid (fun j hj => ⟨?_, h.edgeRows.ne_length j⟩) hat
  rw [hrows, update_of_ne hj]

end

theorem edge_congr (hrows : g'.edgeRows = g.edgeRows) (hstore : g'.edgeStore = g.edgeStore) :
    g'.edge = g.edge := by
  funext id
  rw [SeleneGraph.edge, SeleneGraph.edge, hrows, edgeAt_congr hstore]

theorem node_congr (hrows : g'.nodeRows = g.nodeRows) (hstore : g'.nodeStore = g.nodeStore) :
    g'.node = g.node := by
  funext id
  rw [SeleneGraph.node, SeleneGraph.node, hrows, nodeAt_congr hstore]

section

variable (h : Intact t)
include h

theorem createNode_effect {labels : LabelSet}
    (hrun : createNode labels props t = (.ok id, t')) : Effect t t' := by
  obtain ⟨props', -, rfl, -, -, rfl⟩ := createNode_ok hrun
  have hfresh : t.graph.node t.allocator.nextNodeId = none := by
    rw [SeleneGraph.node, h.derived.nodeRows.fresh h.floor.nodes]
    rfl
  exact .node {
    written := rfl
    nodes := h.derived.node_appended rfl (nodeAt_append rfl rfl)
    edges := edge_congr rfl rfl
    labels := fun old hold => by
      rw [hfresh] at hold
      cases hold
    changes := rfl
    expansions := rfl }

theorem createMixedEdge_effect {first second : NodeId} {d : EdgeDirectionality} {id : EdgeId}
    (hrun : createMixedEdge label first second d props t = (.ok id, t')) : Effect t t' := by
  obtain ⟨source, target, props', -, hprep, -, -, rfl, -, rfl⟩ := createMixedEdge_ok hrun
  obtain ⟨⟨s, hs⟩, s', hs'⟩ := prepareEdge_live hprep
  -- the adjacency lists differ by the kind of the edge, the columns do not
  refine .edge (e := ⟨t.allocator.nextEdgeId, d, label, source, target, props', true⟩) {
    written := rfl
    nodes := node_congr (by cases d <;> rfl) (by cases d <;> rfl)
    edges := h.derived.edge_appended (by cases d <;> rfl) (edgeAt_append appendEdge_edgeStore rfl)
    ends := .inr ⟨?_, ?_⟩
    changes := rfl
    expansions := rfl }
  · rw [node_eq_some.2 hs]
    simp
  · rw [node_eq_some.2 hs']
    simp

theorem Effect.nodeUpdated {labels : LabelSet} {idx : DbString → Finset Row} {c : Change}
    (hrow : t.graph.nodeRows id = some row) (hs : t.graph.nodeAt row = some s)
    (hc : c.written = some (.node id)) (hlabels : s.labels = labels ∨ c.relabelled = some id) :
    Effect t (t.after (updatedNode t.graph id row s labels props idx) [c]) := by
  have hat : (updatedNode t.graph id row s labels props idx).nodeAt =
      update t.graph.nodeAt row (some { s with labels, properties := props }) := by
    refine (nodeAt_modify rfl hs).trans ?_
    simp [Option.filter, (t.graph.nodeAt_eq_some.1 hs).2]
  exact .node {
    written := hc
    nodes := h.derived.node_modified hrow rfl hat
    edges := edge_congr rfl rfl
    labels := fun old hold => by
      obtain rfl := (node_eq_some.1 hold).unique ⟨row, hrow, hs⟩
      exact hlabels
    changes := rfl
    expansions := rfl }

omit h in
theorem applyLabelDiff_eq (labels : LabelSet) (diff : LabelDiff) (id : NodeId) (d : PropertyDiff) :
    labels = applyLabelDiff labels diff ∨ (Change.nodeUpdated id diff d).relabelled = some id := by
  by_cases hd : diff.added = [] ∧ diff.removed = []
  · left
    unfold applyLabelDiff
    rw [hd.1, hd.2]
    rfl
  · right
    exact if_neg hd

theorem updateNode_effect {labelsDiff : LabelDiff} {diff : PropertyDiff}
    (hrun : updateNode id labelsDiff diff t = (.ok u, t')) : Effect t t' := by
  obtain ⟨row, s, diff', props, hprep, -, rfl⟩ := updateNode_ok hrun
  obtain ⟨hrow, hs, -⟩ := prepareUpdate_ok hprep
  exact .nodeUpdated h hrow hs rfl (applyLabelDiff_eq _ _ _ _)

theorem removeNodeProperty_effects {property : DbString}
    (hrun : removeNodeProperty id property t = (.ok u, t')) : Effects t t' := by
  obtain ⟨row, s, hrow, hs, ⟨-, rfl⟩ | ⟨-, -, rfl⟩⟩ := removeNodeProperty_ok hrun
  · exact .refl
  · exact .single (.nodeUpdated h hrow hs rfl (.inl rfl))

theorem removeNodeLabel_effects
    (hrun : removeNodeLabel id label t = (.ok u, t')) : Effects t t' := by
  obtain ⟨row, s, hrow, hs, ⟨-, rfl⟩ | ⟨-, -, rfl⟩⟩ := removeNodeLabel_ok hrun
  · exact .refl
  · exact .single (.nodeUpdated h hrow hs rfl (.inr rfl))

theorem Effect.edgeUpdated {id : EdgeId} {c : Change} (hrow : t.graph.edgeRows id = some row)
    (he : t.graph.edgeAt row = some e) (hc : c.written = some (.edge id)) :
    Effect t (t.after (setEdgeProperties row e props t.graph) [c]) := by
  have hat : (setEdgeProperties row e props t.graph).edgeAt =
      update t.graph.edgeAt row (some { e with properties := props }) := by
    refine (edgeAt_modify rfl he).trans ?_
    simp [Option.filter, (t.graph.edgeAt_eq_some.1 he).2]
  exact .edge {
    written := hc
    nodes := node_congr rfl rfl
    edges := h.derived.edge_modified hrow rfl hat
    ends := .inl ⟨e, edge_eq_some.2 ⟨row, hrow, he⟩, rfl, rfl⟩
    changes := rfl
    expansions := rfl }

theorem updateEdge_effect {id : EdgeId} {diff : PropertyDiff}
    (hrun : updateEdge id diff t = (.ok u, t')) : Effect t t' := by
  obtain ⟨row, e, diff', props, hprep, rfl⟩ := updateEdge_ok hrun
  obtain ⟨hrow, he, -⟩ := prepareEdgeUpdate_ok hprep
  exact .edgeUpdated h hrow he rfl

theorem removeEdgeProperty_effects {id : EdgeId} {property : DbString}
    (hrun : removeEdgeProperty id property t = (.ok u, t')) : Effects t t' := by
  obtain ⟨row, e, hrow, he, ⟨-, rfl⟩ | ⟨-, rfl⟩⟩ := removeEdgeProperty_ok hrun
  · exact .refl
  · exact .single (.edgeUpdated h hrow he rfl)

/-! ## Removals -/

omit h in
theorem Removed.toEffect {node : NodeSlot → Prop} {edge : EdgeSlot → Prop}
    (hrem : Removed t.graph g node edge) (ids : List NodeId) (removed : List EdgeId)
    (hnode : t'.graph.node = g.node) (hedge : t'.graph.edge = g.edge)
    (hcascade : ∀ id s i e, LiveNode t.graph id s → node s → LiveEdge t.graph i e →
      e.endsAt id = true → edge e)
    (hids : ∀ id s, LiveNode t.graph id s → node s → id ∈ ids)
    (hremoved : ∀ id e, LiveEdge t.graph id e → edge e → id ∈ removed)
    (hrec : Recorded t t' (ids.map .nodeDeleted ++ removed.map .edgeDeleted)) : Effect t t' := by
  refine @Effect.removal t t' (fun id => ∃ s, LiveNode t.graph id s ∧ node s)
    (fun id => ∃ e, LiveEdge t.graph id e ∧ edge e) _ {
      nodes := fun id s => ?_
      edges := fun id e => ?_
      cascade := ?_
      deletions := ?_
      nodeTombstones := ?_
      edgeTombstones := ?_
      recorded := hrec }
  · rw [hnode, node_eq_some, node_eq_some, hrem.liveNode]
    refine and_congr_right fun hs => not_congr ⟨fun hn => ⟨s, hs, hn⟩, ?_⟩
    rintro ⟨s', hs', hn⟩
    rwa [hs.unique hs']
  · rw [hedge, edge_eq_some, edge_eq_some, hrem.liveEdge]
    refine and_congr_right fun he => not_congr ⟨fun hn => ⟨e, he, hn⟩, ?_⟩
    rintro ⟨e', he', hn⟩
    rwa [he.unique he']
  · rintro i e n he ⟨s, hs, hn⟩ hend
    have he := edge_eq_some.1 he
    exact ⟨e, he, hcascade n s i e hs hn he hend⟩
  · intro c hc
    rcases List.mem_append.1 hc with hc | hc
    · obtain ⟨id, -, rfl⟩ := List.mem_map.1 hc
      exact ⟨rfl, rfl, rfl⟩
    · obtain ⟨id, -, rfl⟩ := List.mem_map.1 hc
      exact ⟨rfl, rfl, rfl⟩
  · rintro id s - ⟨s', hs', hn⟩
    exact List.mem_append_left _ (List.mem_map_of_mem (hids id s' hs' hn))
  · rintro id e - ⟨e', he', hn⟩
    exact List.mem_append_right _ (List.mem_map_of_mem (hremoved id e' he' hn))

theorem deleteNode_effect (hrun : deleteNode id t = (.ok u, t')) : Effect t t' := by
  obtain ⟨s, ⟨row, hrow, hs⟩, hadm⟩ := deleteNode_ok hrun
  have hd := h.derived
  obtain ⟨g', hrun', -, hrem⟩ := deleteNode_spec hd hrow hs hadm
  cases hrun.symm.trans hrun'
  refine hrem.toEffect [id] (t.graph.incidentEdges id) rfl rfl ?_ ?_ ?_ (.inl ⟨rfl, rfl⟩)
  · intro n s' i e hs' hn _ hend
    rwa [← hn, hd.liveNode_id hs']
  · intro n s' hs' hn
    rw [List.mem_singleton, ← hn, hd.liveNode_id hs']
  · intro i e he hend
    obtain ⟨hid, r, he⟩ := hd.liveEdge_iff.1 he
    exact (hd.mem_incidentEdges (Set.notMem_empty id)).2 ⟨r, e, he, hid, hend⟩

theorem deleteEdge_effect {id : EdgeId} (hrun : deleteEdge id t = (.ok u, t')) : Effect t t' := by
  obtain ⟨row, e, hrow, he, -⟩ := deleteEdge_ok.1 hrun
  have hd := h.derived
  obtain ⟨g', hrun', -, hrem⟩ := deleteEdge_spec hd ⟨row, hrow, he⟩
  cases hrun.symm.trans hrun'
  refine hrem.toEffect [] [id] rfl rfl ?_ ?_ ?_ (.inl ⟨rfl, rfl⟩)
  · rintro n s i e - ⟨⟩
  · rintro n s - ⟨⟩
  · intro i e' he' hid
    rw [List.mem_singleton, ← hid, (hd.liveEdge_iff.1 he').1]

theorem deleteElements_effects {nodes : List NodeId} {edges : List EdgeId}
    (hrun : deleteElements nodes edges t = (.ok u, t')) : Effects t t' := by
  obtain ⟨⟨⟩, -, hrun⟩ := check_bind_ok.1 hrun
  obtain ⟨⟨⟩, t1, hnodes, hedges⟩ := bind_ok.1 hrun
  have h1 : Effects t t1 ∧ Intact t1 := by
    refine each_ok (I := fun _ s => Effects t s ∧ Intact s) ?_ ⟨.refl, h⟩ hnodes
    rintro id ids s s' ⟨hsteps, hs⟩ hturn
    refine ⟨?_, deleteLiveNode_intact hs hturn⟩
    obtain ⟨b, -, hturn⟩ := check_bind_ok.1 hturn
    cases b with
    | true => exact hsteps.tail (deleteNode_effect hs hturn)
    | false =>
      cases hturn
      exact hsteps
  have h2 : Effects t t' ∧ Intact t' := by
    refine each_ok (I := fun _ s => Effects t s ∧ Intact s) ?_ h1 hedges
    rintro id ids s s' ⟨hsteps, hs⟩ hturn
    refine ⟨?_, deleteLiveEdge_intact hs hturn⟩
    obtain ⟨b, -, hturn⟩ := check_bind_ok.1 hturn
    cases b with
    | true => exact hsteps.tail (deleteEdge_effect hs hturn)
    | false =>
      cases hturn
      exact hsteps
  exact h2.1

theorem truncateNodeType_effect (hrun : truncateNodeType label t = (.ok u, t')) : Effect t t' := by
  have hd := h.derived
  obtain ⟨-, ids, hids, hrem, hcases⟩ := truncateNodeType_ok hd hrun
  have hcascade : ∀ id s i e, LiveNode t.graph id s → s.id ∈ ids → LiveEdge t.graph i e →
      e.endsAt id = true → ∃ n ∈ ids, e.endsAt n = true := by
    intro id s i e hs hn _ hend
    exact ⟨id, hd.liveNode_id hs ▸ hn, hend⟩
  rcases hcases with ⟨rfl, ht⟩ | ⟨-, removed, hremoved, ht⟩
  · refine hrem.toEffect [] [] rfl rfl hcascade ?_ ?_ (.inl ?_)
    · intro id s _ hs
      cases hs
    · rintro id e - ⟨n, hn, -⟩
      cases hn
    · rw [ht]
      simp
  · refine hrem.toEffect ids removed rfl rfl hcascade ?_ ?_ (.inr ?_)
    · intro id s hs hn
      exact hd.liveNode_id hs ▸ hn
    · intro id e he hends
      obtain ⟨rfl, r, he⟩ := hd.liveEdge_iff.1 he
      exact hremoved r e he hends
    · exact ⟨.nodesOfTypeTruncated label, rfl, by rw [ht], by rw [ht]⟩

theorem truncateEdgeType_effect (hrun : truncateEdgeType label t = (.ok u, t')) : Effect t t' := by
  have hd := h.derived
  obtain ⟨-, hrem, hcases⟩ := truncateEdgeType_ok hd hrun
  rcases hcases with ⟨hnone, ht⟩ | ⟨removed, hremoved, ht⟩
  · refine hrem.toEffect [] [] rfl rfl ?_ ?_ ?_ (.inl ?_)
    · rintro n s i e - ⟨⟩
    · rintro n s - ⟨⟩
    · intro id e he hl
      obtain ⟨-, r, he⟩ := hd.liveEdge_iff.1 he
      exact absurd hl (hnone r e he)
    · rw [ht]
      simp
  · refine hrem.toEffect [] removed rfl rfl ?_ ?_ ?_ (.inr ?_)
    · rintro n s i e - ⟨⟩
    · rintro n s - ⟨⟩
    · intro id e he hl
      obtain ⟨rfl, r, he⟩ := hd.liveEdge_iff.1 he
      exact hremoved r e he hl
    · exact ⟨.edgesOfTypeTruncated label, rfl, by rw [ht], by rw [ht]; rfl⟩

theorem factoryReset_effect (hrun : factoryReset t = (.ok u, t')) : Effect t t' := by
  have hd := h.derived
  obtain ⟨-, g1, ids, removed, hrem, hids, hremoved, rfl⟩ := factoryReset_ok hd hrun
  refine hrem.toEffect ids removed rfl rfl ?_ ?_ ?_ (.inr ⟨.graphReset, rfl, rfl, rfl⟩)
  · intro _ _ _ _ _ _ _ _
    trivial
  · intro id s hs hn
    obtain ⟨rfl, -, r, hs⟩ := hd.liveNode_iff.1 hs
    exact hids r s hs hn
  · intro id e he _
    obtain ⟨rfl, r, he⟩ := hd.liveEdge_iff.1 he
    exact hremoved r e he

/-! ## Runs -/

theorem DataOperation.run_effects {op : DataOperation}
    (hrun : op.run t = (.ok u, t')) : Effects t t' := by
  cases op with
  | createNode labels props =>
    obtain ⟨id, t1, hrun, hpure⟩ := bind_ok.1 hrun
    cases hpure
    exact .single (createNode_effect h hrun)
  | createMixedEdge label first second d props =>
    obtain ⟨id, t1, hrun, hpure⟩ := bind_ok.1 hrun
    cases hpure
    exact .single (createMixedEdge_effect h hrun)
  | updateNode id labelsDiff diff => exact .single (updateNode_effect h hrun)
  | updateEdge id diff => exact .single (updateEdge_effect h hrun)
  | removeNodeProperty id property => exact removeNodeProperty_effects h hrun
  | removeEdgeProperty id property => exact removeEdgeProperty_effects h hrun
  | removeNodeLabel id label => exact removeNodeLabel_effects h hrun
  | deleteNode id => exact .single (deleteNode_effect h hrun)
  | deleteEdge id => exact .single (deleteEdge_effect h hrun)
  | deleteElements nodes edges => exact deleteElements_effects h hrun
  | truncateNodeType label => exact .single (truncateNodeType_effect h hrun)
  | truncateEdgeType label => exact .single (truncateEdgeType_effect h hrun)
  | factoryReset => exact .single (factoryReset_effect h hrun)

theorem each_run_effects {ops : List DataOperation}
    (hrun : each DataOperation.run ops t = (.ok (), t')) : Effects t t' ∧ Intact t' := by
  refine each_ok (I := fun _ s => Effects t s ∧ Intact s) ?_ ⟨.refl, h⟩ hrun
  rintro op ops s s' ⟨heffects, hs⟩ hop
  exact ⟨heffects.trans (DataOperation.run_effects hs hop), DataOperation.run_intact hs hop⟩

end

end Selene.Graph
