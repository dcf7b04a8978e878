import Selene.Proof.BulkRemoval

/-!
# Every data operation keeps the derived state

An operation that returns leaves a graph whose derived state is intact, and ids below the
allocator's marks (`DataOperation.run_intact`).
-/

namespace Selene.Graph

open Mutator Attempt List SharedGraph

variable {g g' : SeleneGraph} {a : IdAllocator} {t t' : WriteTxn}

variable {label : DbString} {labels : LabelSet} {id : NodeId} {props : PropertyMap} {row : Row} {u : Unit}

/-- The allocator has not given out an id from its marks on. -/
structure AllocatorFloor (g : SeleneGraph) (a : IdAllocator) : Prop where
  nodePos : 0 < a.nextNodeId
  edgePos : 0 < a.nextEdgeId
  nodes : ∀ s ∈ g.nodeStore, s.id < a.nextNodeId
  edges : ∀ e ∈ g.edgeStore, e.id < a.nextEdgeId

/-- What a transaction may rely on between two operations. -/
structure Intact (t : WriteTxn) : Prop where
  derived : Derived t.graph ∅ ∅
  floor : AllocatorFloor t.graph t.allocator

theorem AllocatorFloor.of_ids (h : AllocatorFloor g a)
    (hn : g'.nodeStore.map (·.id) = g.nodeStore.map (·.id))
    (he : g'.edgeStore.map (·.id) = g.edgeStore.map (·.id)) : AllocatorFloor g' a where
  nodePos := h.nodePos
  edgePos := h.edgePos
  nodes s hs := by
    have : s.id ∈ g.nodeStore.map (·.id) := hn ▸ mem_map_of_mem hs
    obtain ⟨s', hs', hid⟩ := mem_map.1 this
    rw [← hid]
    exact h.nodes s' hs'
  edges e he' := by
    have : e.id ∈ g.edgeStore.map (·.id) := he ▸ mem_map_of_mem he'
    obtain ⟨e', he', hid⟩ := mem_map.1 this
    rw [← hid]
    exact h.edges e' he'

theorem AllocatorFloor.of_removed {node : NodeSlot → Prop} {edge : EdgeSlot → Prop}
    (h : AllocatorFloor g a) (hrem : Removed g g' node edge) : AllocatorFloor g' a :=
  h.of_ids hrem.nodeIds hrem.edgeIds

theorem AllocatorFloor.mono {b : IdAllocator} (h : AllocatorFloor g a)
    (hn : a.nextNodeId ≤ b.nextNodeId) (he : a.nextEdgeId ≤ b.nextEdgeId) : AllocatorFloor g b where
  nodePos := h.nodePos.trans_le hn
  edgePos := h.edgePos.trans_le he
  nodes s hs := (h.nodes s hs).trans_le hn
  edges e he' := (h.edges e he').trans_le he

/-! ## Creation and updates -/

theorem createNode_intact (h : Intact t) (hrun : createNode labels props t = (.ok id, t')) : Intact t' := by
  obtain ⟨props', -, rfl, -, hadm, rfl⟩ := createNode_ok hrun
  constructor
  · refine h.derived.created ?_ (fun s hs => (h.floor.nodes s hs).ne) hadm
    exact h.floor.nodePos.ne'
  · have hmono := h.floor.mono (b := { t.allocator with nextNodeId := t.allocator.nextNodeId + 1 })
      (Nat.le_succ _) le_rfl
    refine { hmono with nodes := fun s hs => ?_ }
    rcases mem_append.1 hs with hs | hs
    · exact hmono.nodes s hs
    · rw [mem_singleton.1 hs]
      exact Nat.lt_succ_self _

theorem canonicalEndpoints_le {d : EdgeDirectionality} {first second source target : NodeId}
    (h : (source, target) = d.canonicalEndpoints first second) (hd : d = .undirected) :
    source ≤ target := by
  unfold EdgeDirectionality.canonicalEndpoints at h
  split at h
  · next hlt =>
    cases h
    exact hlt.2.le
  · next hlt =>
    cases h
    exact not_lt.1 fun hlt' => hlt ⟨hd, hlt'⟩

theorem createMixedEdge_intact {first second : NodeId} {d : EdgeDirectionality} {id : EdgeId} (h : Intact t)
    (hrun : createMixedEdge label first second d props t = (.ok id, t')) : Intact t' := by
  obtain ⟨source, target, props', hends, -, -, -, rfl, -, rfl⟩ := createMixedEdge_ok hrun
  constructor
  · refine h.derived.edgeCreated ?_ (fun s hs => (h.floor.edges s hs).ne) (canonicalEndpoints_le hends)
    exact h.floor.edgePos.ne'
  · have hmono := h.floor.mono (b := { t.allocator with nextEdgeId := t.allocator.nextEdgeId + 1 })
      le_rfl (Nat.le_succ _)
    have hedges : ∀ e ∈ t.graph.edgeStore ++ [(⟨t.allocator.nextEdgeId, d, label, source, target,
        props', true⟩ : EdgeSlot)], e.id < t.allocator.nextEdgeId + 1 := by
      intro e he
      rcases mem_append.1 he with he | he
      · exact hmono.edges e he
      · rw [mem_singleton.1 he]
        exact Nat.lt_succ_self _
    cases d <;> exact { hmono with edges := hedges }

theorem mem_applyLabelDiff {diff : LabelDiff} : label ∈ applyLabelDiff labels diff ↔
      (label ∈ labels ∨ label ∈ diff.added) ∧ label ∉ diff.removed := by
  have hadd : ∀ (l : List DbString) (ls : LabelSet),
      label ∈ l.foldl (fun ls label => ls.insert label) ls ↔ label ∈ ls ∨ label ∈ l := by
    intro l
    induction l with
    | nil => simp
    | cons x l ih =>
      intro ls
      rw [foldl_cons, ih, Std.ExtTreeSet.mem_insert, mem_cons]
      rw [Std.LawfulEqCmp.compare_eq_iff_eq, @eq_comm _ x label]
      tauto
  have hremove : ∀ (l : List DbString) (ls : LabelSet),
      label ∈ l.foldl (fun ls label => ls.erase label) ls ↔ label ∈ ls ∧ label ∉ l := by
    intro l
    induction l with
    | nil => simp
    | cons x l ih =>
      intro ls
      rw [foldl_cons, ih, Std.ExtTreeSet.mem_erase, mem_cons]
      simp only [ne_eq, Std.LawfulEqCmp.compare_eq_iff_eq]
      constructor
      · rintro ⟨⟨hne, hm⟩, hl⟩
        exact ⟨hm, fun h => h.elim (fun h => hne h.symm) hl⟩
      · rintro ⟨hm, hl⟩
        exact ⟨⟨fun h => hl (.inl h.symm), hm⟩, fun h => hl (.inr h)⟩
  rw [applyLabelDiff, hremove, hadd]

theorem Derived.mem_updatedLabels {gone : Set NodeId} {out : Set EdgeId} (h : Derived g gone out)
    {s : NodeSlot} (hs : g.nodeAt row = some s) (diff : LabelDiff) (label : DbString) (r : Row) :
    r ∈ diff.removed.foldl (fun ix label => removeIndexRow label row ix)
        (diff.added.foldl (fun ix label => insertIndexRow label row ix) g.idxLabel) label ↔
      if r = row then label ∈ applyLabelDiff s.labels diff else r ∈ g.idxLabel label := by
  rw [mem_removeIndexRows, mem_insertIndexRows, mem_applyLabelDiff]
  by_cases hr : r = row
  · subst hr
    have hrow : r ∈ g.idxLabel label ↔ label ∈ s.labels := by
      rw [h.labels]
      simp [hs]
    simp [hrow]
  · simp [hr]

theorem AllocatorFloor.updatedNode (h : AllocatorFloor g a) {s : NodeSlot} {idx : DbString → Finset Row} :
    AllocatorFloor (updatedNode g id row s labels props idx) a :=
  h.of_ids (modify_map_id _ _ _ _ fun _ => rfl) rfl

section

variable (h : Intact t)
include h

theorem updateNode_intact {labelsDiff : LabelDiff} {diff : PropertyDiff}
    (hrun : updateNode id labelsDiff diff t = (.ok u, t')) : Intact t' := by
  obtain ⟨row, s, diff', props, hprep, hadm, rfl⟩ := updateNode_ok hrun
  obtain ⟨hrow, hs, -⟩ := prepareUpdate_ok hprep
  exact ⟨h.derived.updated hrow hs hadm (h.derived.mem_updatedLabels hs labelsDiff),
    h.floor.updatedNode⟩

theorem removeNodeProperty_intact {property : DbString}
    (hrun : removeNodeProperty id property t = (.ok u, t')) : Intact t' := by
  obtain ⟨row, s, hrow, hs, ⟨-, rfl⟩ | ⟨-, hadm, rfl⟩⟩ := removeNodeProperty_ok hrun
  · exact h
  · refine ⟨h.derived.updated hrow hs hadm fun label r => ?_, h.floor.updatedNode⟩
    by_cases hr : r = row
    · subst hr
      rw [if_pos rfl, h.derived.labels]
      simp [hs]
    · rw [if_neg hr]

theorem removeNodeLabel_intact (hrun : removeNodeLabel id label t = (.ok u, t')) : Intact t' := by
  obtain ⟨row, s, hrow, hs, ⟨-, rfl⟩ | ⟨-, hadm, rfl⟩⟩ := removeNodeLabel_ok hrun
  · exact h
  · refine ⟨h.derived.updated hrow hs hadm fun l r => ?_, h.floor.updatedNode⟩
    have hmem := mem_removeIndexRows [label] row r t.graph.idxLabel l
    refine hmem.trans ?_
    by_cases hr : r = row
    · subst hr
      rw [if_pos rfl, h.derived.labels, Std.ExtTreeSet.mem_erase,
        ne_eq, Std.LawfulEqCmp.compare_eq_iff_eq, @eq_comm _ label l]
      simp [hs, and_comm]
    · simp [hr]

theorem setEdgeProperties_intact {e : EdgeSlot}
    {changes : List Change} (he : t.graph.edgeAt row = some e) :
    Intact { t with graph := setEdgeProperties row e props t.graph, changes } :=
  ⟨h.derived.edgeSet he, h.floor.of_ids rfl (modify_map_id _ _ _ _ fun _ => rfl)⟩

theorem updateEdge_intact {id : EdgeId} {diff : PropertyDiff}
    (hrun : updateEdge id diff t = (.ok u, t')) : Intact t' := by
  obtain ⟨row, e, diff', props, hprep, rfl⟩ := updateEdge_ok hrun
  exact setEdgeProperties_intact h (prepareEdgeUpdate_ok hprep).2.1

theorem removeEdgeProperty_intact {id : EdgeId} {property : DbString}
    (hrun : removeEdgeProperty id property t = (.ok u, t')) : Intact t' := by
  obtain ⟨row, e, -, he, ⟨-, rfl⟩ | ⟨-, rfl⟩⟩ := removeEdgeProperty_ok hrun
  · exact h
  · exact setEdgeProperties_intact h he

/-! ## Deletion -/

theorem deleteNode_intact (hrun : deleteNode id t = (.ok u, t')) : Intact t' := by
  obtain ⟨s, ⟨row, hrow, hs⟩, hadm⟩ := deleteNode_ok hrun
  obtain ⟨g', hrun', hd, hrem⟩ := deleteNode_spec h.derived hrow hs hadm
  cases hrun.symm.trans hrun'
  exact ⟨hd, h.floor.of_removed hrem⟩

theorem deleteEdge_intact {id : EdgeId} (hrun : deleteEdge id t = (.ok u, t')) : Intact t' := by
  obtain ⟨row, e, hrow, he, -⟩ := deleteEdge_ok.1 hrun
  obtain ⟨g', hrun', hd, hrem⟩ := deleteEdge_spec h.derived ⟨row, hrow, he⟩
  cases hrun.symm.trans hrun'
  exact ⟨hd, h.floor.of_removed hrem⟩

theorem deleteLiveNode_intact (hrun : deleteLiveNode id t = (.ok u, t')) : Intact t' := by
  obtain ⟨b, -, hrun⟩ := check_bind_ok.1 hrun
  cases b with
  | true => exact deleteNode_intact h hrun
  | false => cases hrun; exact h

theorem deleteLiveEdge_intact {id : EdgeId}
    (hrun : deleteLiveEdge id t = (.ok u, t')) : Intact t' := by
  obtain ⟨b, -, hrun⟩ := check_bind_ok.1 hrun
  cases b with
  | true => exact deleteEdge_intact h hrun
  | false => cases hrun; exact h

theorem deleteElements_intact {nodes : List NodeId} {edges : List EdgeId}
    (hrun : deleteElements nodes edges t = (.ok u, t')) : Intact t' := by
  obtain ⟨⟨⟩, -, hrun⟩ := check_bind_ok.1 hrun
  obtain ⟨⟨⟩, t1, hnodes, hedges⟩ := bind_ok.1 hrun
  have h1 : Intact t1 := each_ok (I := fun _ t => Intact t)
    (fun _ _ _ _ hI hb => deleteLiveNode_intact hI hb) h hnodes
  exact each_ok (I := fun _ t => Intact t)
    (fun _ _ _ _ hI hb => deleteLiveEdge_intact hI hb) h1 hedges

theorem truncateNodeType_intact (hrun : truncateNodeType label t = (.ok u, t')) : Intact t' := by
  obtain ⟨hd, ids, -, hrem, hcases⟩ := truncateNodeType_ok h.derived hrun
  refine ⟨hd, ?_⟩
  rcases hcases with ⟨-, ht⟩ | ⟨-, removed, -, ht⟩ <;> rw [ht] <;> exact h.floor.of_removed hrem

theorem truncateEdgeType_intact (hrun : truncateEdgeType label t = (.ok u, t')) : Intact t' := by
  obtain ⟨hd, hrem, hcases⟩ := truncateEdgeType_ok h.derived hrun
  refine ⟨hd, ?_⟩
  rcases hcases with ⟨-, ht⟩ | ⟨removed, -, ht⟩ <;> rw [ht] <;> exact h.floor.of_removed hrem

theorem factoryReset_intact (hrun : factoryReset t = (.ok u, t')) : Intact t' := by
  obtain ⟨hd, g1, ids, removed, hrem, -, -, rfl⟩ := factoryReset_ok h.derived hrun
  exact ⟨hd, { h.floor.of_removed hrem with }⟩

/-- **The step lemma**: every data operation that returns keeps the derived state. -/
theorem DataOperation.run_intact {op : DataOperation}
    (hrun : op.run t = (.ok u, t')) : Intact t' := by
  cases op with
  | createNode labels props =>
    obtain ⟨id, t1, hrun, hpure⟩ := bind_ok.1 hrun
    cases hpure
    exact createNode_intact h hrun
  | createMixedEdge label first second d props =>
    obtain ⟨id, t1, hrun, hpure⟩ := bind_ok.1 hrun
    cases hpure
    exact createMixedEdge_intact h hrun
  | updateNode id labelsDiff diff => exact updateNode_intact h hrun
  | updateEdge id diff => exact updateEdge_intact h hrun
  | removeNodeProperty id property => exact removeNodeProperty_intact h hrun
  | removeEdgeProperty id property => exact removeEdgeProperty_intact h hrun
  | removeNodeLabel id label => exact removeNodeLabel_intact h hrun
  | deleteNode id => exact deleteNode_intact h hrun
  | deleteEdge id => exact deleteEdge_intact h hrun
  | deleteElements nodes edges => exact deleteElements_intact h hrun
  | truncateNodeType label => exact truncateNodeType_intact h hrun
  | truncateEdgeType label => exact truncateEdgeType_intact h hrun
  | factoryReset => exact factoryReset_intact h hrun

end

/-! ## The allocator on every outcome -/

/-- The allocator's marks only move forward. -/
def Advances (t t' : WriteTxn) : Prop :=
  t.allocator.nextNodeId ≤ t'.allocator.nextNodeId ∧
    t.allocator.nextEdgeId ≤ t'.allocator.nextEdgeId

namespace Advances

theorem refl (t : WriteTxn) : Advances t t := ⟨le_rfl, le_rfl⟩

theorem trans {t1 t2 t3 : WriteTxn} (h : Advances t1 t2) (h' : Advances t2 t3) : Advances t1 t3 :=
  ⟨h.1.trans h'.1, h.2.trans h'.2⟩

variable {α β : Type} {m : Mutator α} {k : α → Mutator β}

theorem bind (hm : Attempt.Keeps Advances m) (hk : ∀ a, Attempt.Keeps Advances (k a)) :
    Attempt.Keeps Advances (m >>= k) := .bind trans hm hk

theorem check {f : WriteTxn → Except GraphError α} (hk : ∀ a, Attempt.Keeps Advances (k a)) :
    Attempt.Keeps Advances (check f >>= k) := bind (.check refl f) hk

theorem onGraph (f : SeleneGraph → SeleneGraph) : Attempt.Keeps Advances (onGraph f) := refl

theorem onVectorIndex (v : Attempt VectorIndexMap GraphError Unit) :
    Attempt.Keeps Advances (onVectorIndex v) := refl

theorem record (c : Change) : Attempt.Keeps Advances (record c) := refl

theorem recordBulk (c : Change) (expansion : List Change) :
    Attempt.Keeps Advances (recordBulk c expansion) := refl

theorem pure (a : α) : Attempt.Keeps Advances (Pure.pure a : Mutator α) := refl

theorem ite {p : Prop} [Decidable p] {m n : Mutator α} (hm : Attempt.Keeps Advances m)
    (hn : Attempt.Keeps Advances n) : Attempt.Keeps Advances (if p then m else n) := by
  split <;> assumption

theorem allocateNode : Attempt.Keeps Advances allocateNode := by
  intro t
  unfold Mutator.allocateNode
  split
  · exact ⟨Nat.le_succ _, le_rfl⟩
  · exact refl t

theorem allocateEdge : Attempt.Keeps Advances allocateEdge := by
  intro t
  unfold Mutator.allocateEdge
  split
  · exact ⟨le_rfl, Nat.le_succ _⟩
  · exact refl t

theorem updateIndexes {oldLabels : LabelSet} {oldProps : PropertyMap} :
    Attempt.Keeps Advances (updateIndexes id row oldLabels oldProps labels props) :=
  bind (onGraph _) fun _ => bind (onVectorIndex _) fun _ => onGraph _

theorem removeNodeRow {slot : NodeSlot} : Attempt.Keeps Advances (removeNodeRow id row slot) :=
  check fun _ => bind (onGraph _) fun _ => bind (onVectorIndex _) fun _ =>
    bind (onGraph _) fun _ => pure _

theorem deleteDetachedEdge (id : EdgeId) : Attempt.Keeps Advances (deleteDetachedEdge id) :=
  check fun _ => bind (onGraph _) fun _ => record _

theorem removeEdgesFromAdjacency {ids : List EdgeId} :
    Attempt.Keeps Advances (removeEdgesFromAdjacency ids) := check fun _ => onGraph _

theorem deleteNode (id : NodeId) : Attempt.Keeps Advances (deleteNode id) :=
  check fun _ => bind removeNodeRow fun _ => bind removeEdgesFromAdjacency fun _ =>
    bind (record _) fun _ => .each refl trans deleteDetachedEdge _

theorem deleteEdge (id : EdgeId) : Attempt.Keeps Advances (deleteEdge id) :=
  check fun _ => bind (onGraph _) fun _ => record _

theorem deleteElements {nodes : List NodeId} {edges : List EdgeId} :
    Attempt.Keeps Advances (deleteElements nodes edges) :=
  check fun _ => bind
    (.each refl trans (fun id => check fun _ => ite (deleteNode id) (pure _)) _)
    fun _ => .each refl trans (fun id => check fun _ => ite (deleteEdge id) (pure _)) _

theorem removeNodeRows : ∀ rows, Attempt.Keeps Advances (removeNodeRows rows)
  | [] => pure _
  | row :: rows => check fun found => by
      rcases found with ⟨_ | slot, _ | id⟩
      · exact removeNodeRows rows
      · exact removeNodeRows rows
      · exact removeNodeRows rows
      · exact bind removeNodeRow fun _ => bind (removeNodeRows rows) fun _ => pure _

theorem clearEdges : ∀ ids, Attempt.Keeps Advances (clearEdges ids)
  | [] => pure _
  | id :: ids => check fun row => check fun found => by
      cases found with
      | none => exact clearEdges ids
      | some slot => exact bind (onGraph _) fun _ => bind (clearEdges ids) fun _ => pure _

theorem removeEdgeRows : ∀ rows, Attempt.Keeps Advances (removeEdgeRows rows)
  | [] => pure _
  | row :: rows => check fun found => by
      rcases found with ⟨_ | slot, _ | id⟩
      · exact removeEdgeRows rows
      · exact removeEdgeRows rows
      · exact removeEdgeRows rows
      · exact bind (onGraph _) fun _ => bind (removeEdgeRows rows) fun _ => pure _

theorem run (op : DataOperation) : Attempt.Keeps Advances op.run := by
  cases op with
  | createNode labels props =>
    exact bind (check fun _ => bind allocateNode fun _ => check fun _ => bind (onGraph _) fun _ =>
      bind (onVectorIndex _) fun _ => bind (onGraph _) fun _ => bind (record _) fun _ => pure _)
      fun _ => pure _
  | createMixedEdge label first second d props =>
    exact bind (check fun _ => bind allocateEdge fun _ => check fun _ => check fun _ =>
      check fun _ => bind (onGraph _) fun _ => bind (record _) fun _ => pure _) fun _ => pure _
  | updateNode id labelsDiff diff =>
    exact check fun _ => bind updateIndexes fun _ => bind (onGraph _) fun _ => record _
  | updateEdge id diff => exact check fun _ => bind (onGraph _) fun _ => record _
  | removeNodeProperty id property =>
    exact check fun _ => ite
      (check fun _ => bind (onGraph _) fun _ => bind updateIndexes fun _ => record _) (pure _)
  | removeEdgeProperty id property =>
    exact check fun _ => ite (check fun _ => bind (onGraph _) fun _ => record _) (pure _)
  | removeNodeLabel id label =>
    exact check fun _ => ite
      (bind (onGraph _) fun _ => bind updateIndexes fun _ => record _) (pure _)
  | deleteNode id => exact deleteNode id
  | deleteEdge id => exact deleteEdge id
  | deleteElements nodes edges => exact deleteElements
  | truncateNodeType label =>
    exact check fun _ => bind (removeNodeRows _) fun _ => ite (pure _)
      (bind removeEdgesFromAdjacency fun _ => bind (clearEdges _) fun _ => recordBulk _ _)
  | truncateEdgeType label =>
    exact check fun _ => bind (removeEdgeRows _) fun _ => ite (pure _) (recordBulk _ _)
  | factoryReset =>
    exact check fun _ => check fun _ => bind (removeNodeRows _) fun _ =>
      bind (removeEdgeRows _) fun _ => bind (onGraph _) fun _ => recordBulk _ _

end Advances

/-! ## Runs -/

/-- What a shared graph keeps between two transactions. -/
structure SharedGraph.Intact (s : SharedGraph) : Prop where
  consistent : AssertIndexesConsistent s.snapshot
  floor : AllocatorFloor s.snapshot s.allocator

variable {s s' : SharedGraph} {txn : SharedGraph.Transaction}

theorem SharedGraph.step_cases (h : s.step txn = some s') :
    ∃ r t, each DataOperation.run txn.operations s.beginWrite = (r, t) ∧
      (txn.commits = false ∧ s' = ⟨s.snapshot, t.allocator⟩ ∨
        txn.commits = true ∧ r = .ok () ∧ s' = ⟨t.graph, t.allocator⟩) := by
  unfold step at h
  split at h
  · next t hc hrun =>
    cases h
    exact ⟨_, t, hrun, .inr ⟨hc, rfl, rfl⟩⟩
  · cases h
  · next r t hc hrun =>
    cases h
    exact ⟨r, t, hrun, .inl ⟨hc, rfl⟩⟩

theorem SharedGraph.Intact.operations {l : List DataOperation} {t : WriteTxn} (h : s.Intact)
    (hrun : each DataOperation.run l s.beginWrite = (.ok (), t)) : Graph.Intact t :=
  each_ok (I := fun _ t => Graph.Intact t) (fun _ _ _ _ hI hop => DataOperation.run_intact hI hop)
    ⟨assertIndexesConsistent_iff.1 h.consistent, h.floor⟩ hrun

/-- One transaction: its operations in turn, or the old snapshot with the allocator as far as the
operations took it. -/
theorem SharedGraph.step_intact (hstep : s.step txn = some s') (h : s.Intact) : s'.Intact := by
  have hadv := Attempt.Keeps.each Advances.refl Advances.trans Advances.run txn.operations s.beginWrite
  obtain ⟨r, t, hrun, ⟨-, rfl⟩ | ⟨-, rfl, rfl⟩⟩ := step_cases hstep
  · rw [hrun] at hadv
    exact ⟨h.consistent, h.floor.mono hadv.1 hadv.2⟩
  · have ht := h.operations hrun
    exact ⟨assertIndexesConsistent_iff.2 ht.derived, ht.floor⟩

theorem assertIndexesConsistent_registered {property edgeProperty : PropertyIndexMap}
    {composite : CompositeIndexMap} {vector : VectorIndexMap} {text : TextIndexMap}
    (expression : ExpressionIndexes) (bound : Option GraphTypeDef)
    (hp : ∀ key entry, property key = some entry →
      entry.driftedRows = 0 ∧ entry.index.rows = fun _ => ∅)
    (he : ∀ key entry, edgeProperty key = some entry →
      entry.driftedRows = 0 ∧ entry.index.rows = fun _ => ∅)
    (hc : ∀ key entry, composite key = some entry → entry.driftedRows = 0 ∧ entry.rows = fun _ => ∅)
    (hv : ∀ key entry, vector key = some entry → entry.rows = ∅)
    (hx : ∀ key index, text key = some index → index.rows = ∅ ∧ index.documentTerms = fun _ => none) :
    AssertIndexesConsistent { SeleneGraph.empty with
      propertyIndex := property
      edgePropertyIndex := edgeProperty
      compositePropertyIndex := composite
      vectorIndex := vector
      textIndex := text
      expressionIndexes := expression
      boundType := bound } where
  nodeRows := nofun
  edgeRows := nofun
  nodeIds := nofun
  edgeIds := nofun
  labelIndex _ := rfl
  edgeLabelIndex _ := rfl
  propertyIndexes := hp
  edgePropertyIndexes := he
  compositePropertyIndexes := hc
  vectorIndexes := hv
  textIndexes key index h := ⟨nofun, hx key index h⟩
  edgeStableIds := nofun
  canonicalEndpoints := nofun
  adjacencyOut _ := rfl
  adjacencyIn _ := rfl
  adjacencyUndirected _ := rfl

theorem SharedGraph.intact_empty : SharedGraph.Intact ⟨.empty, ⟨1, 1⟩⟩ where
  consistent := assertIndexesConsistent_registered _ _ nofun nofun nofun nofun nofun
  floor := ⟨Nat.one_pos, Nat.one_pos, nofun, nofun⟩

theorem eq_ok_of_isOk {ε σ : Type} {x : Except ε Unit × σ} (h : x.1.isOk = true) :
    x = (.ok (), x.2) := by
  obtain ⟨r, t⟩ := x
  cases r with
  | ok u => rfl
  | error e => cases h

end Selene.Graph
