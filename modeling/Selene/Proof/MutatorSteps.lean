import Selene.Proof.FreshBuild

/-!
# What a data operation does

One inversion lemma per operation that changes a node or an edge: the checks it passed, and the
state it left. The lemmas on invariants, traces and effects start from these.
-/

namespace Selene.Graph

open Attempt Function PropertyIndex CompositeIndex VectorIndex TextIndex

variable {m : Attempt VectorIndexMap GraphError Unit} {id : NodeId} {s : NodeSlot} {diff : PropertyDiff}
  {props : PropertyMap} {row : Row} {g : SeleneGraph} {u : Unit}

/-- The transaction with a new graph and some more changes. -/
@[simp] abbrev WriteTxn.after (t : WriteTxn) (g : SeleneGraph) (cs : List Change) : WriteTxn :=
  { t with graph := g, changes := t.changes ++ cs }

namespace Mutator

variable {t t' : WriteTxn} {e : GraphError}

/-! ## Steps -/

@[simp] theorem onGraph_apply (f : SeleneGraph → SeleneGraph) (t : WriteTxn) :
    onGraph f t = (.ok (), { t with graph := f t.graph }) := rfl

@[simp] theorem record_apply (c : Change) (t : WriteTxn) :
    record c t = (.ok (), { t with changes := t.changes ++ [c] }) := rfl

theorem onVectorIndex_ok :
    onVectorIndex m t = (.ok u, t') ↔ ∃ v, m t.graph.vectorIndex = (.ok (), v) ∧
      t' = { t with graph := { t.graph with vectorIndex := v } } := by
  unfold onVectorIndex within
  rcases m t.graph.vectorIndex with ⟨e | ⟨⟨⟩⟩, v⟩
  · simp
  · simp [eq_comm]

theorem onGraph_bind {α : Type} (f : SeleneGraph → SeleneGraph) (k : Unit → Mutator α) :
    (onGraph f >>= k) t = k () { t with graph := f t.graph } := rfl

theorem onVectorIndex_bind_ok {α : Type}
    {k : Unit → Mutator α} {a : α} : (onVectorIndex m >>= k) t = (.ok a, t') ↔
      ∃ v, m t.graph.vectorIndex = (.ok (), v) ∧
        k () { t with graph := { t.graph with vectorIndex := v } } = (.ok a, t') := by
  rw [bind_ok]
  constructor
  · rintro ⟨⟨⟩, s, hm, hk⟩
    obtain ⟨v, hv, rfl⟩ := onVectorIndex_ok.1 hm
    exact ⟨v, hv, hk⟩
  · rintro ⟨v, hv, hk⟩
    exact ⟨(), _, onVectorIndex_ok.2 ⟨v, hv, rfl⟩, hk⟩

theorem onVectorIndex_error :
    onVectorIndex m t = (.error e, t') ↔ ∃ v, m t.graph.vectorIndex = (.error e, v) ∧
      t' = { t with graph := { t.graph with vectorIndex := v } } := by
  unfold onVectorIndex within
  rcases m t.graph.vectorIndex with ⟨e' | ⟨⟨⟩⟩, v⟩
  · simp [eq_comm]
  · simp

theorem allocateNode_ok : allocateNode t = (.ok id, t') ↔
    t.allocator.nextNodeId + 1 < 2 ^ 64 ∧ id = t.allocator.nextNodeId ∧
      t' = { t with allocator := { t.allocator with nextNodeId := t.allocator.nextNodeId + 1 } } := by
  unfold allocateNode
  split
  · next h => simp only [h, true_and, Prod.mk.injEq, Except.ok.injEq, eq_comm]
  · next h => simp only [h, false_and, Prod.mk.injEq, reduceCtorEq]

variable {id : EdgeId}

theorem allocateEdge_ok : allocateEdge t = (.ok id, t') ↔
    t.allocator.nextEdgeId + 1 < 2 ^ 64 ∧ id = t.allocator.nextEdgeId ∧
      t' = { t with allocator := { t.allocator with nextEdgeId := t.allocator.nextEdgeId + 1 } } := by
  unfold allocateEdge
  split
  · next h => simp only [h, true_and, Prod.mk.injEq, Except.ok.injEq, eq_comm]
  · next h => simp only [h, false_and, Prod.mk.injEq, reduceCtorEq]

theorem nextRow_ok {kind : String} {len row : ℕ} :
    nextRow kind len = .ok row ↔ len < maxRows ∧ row = len := by
  unfold nextRow
  split
  · next h => simp [h, eq_comm]
  · next h => simp [h]

/-! ## Creation -/

/-- The graph `create_node` leaves. -/
def createdNode (g : SeleneGraph) (id : NodeId) (labels : LabelSet) (props : PropertyMap) :
    SeleneGraph :=
  appendNode id labels props g.nodeStore.length { g with
    propertyIndex := applyNodeCreate labels props g.nodeStore.length g.propertyIndex
    compositePropertyIndex :=
      applyNodeCreate labels props g.nodeStore.length g.compositePropertyIndex
    vectorIndex := visited none (some (labels, props)) g.nodeStore.length g.vectorIndex }

theorem createNode_ok {labels : LabelSet} (h : createNode labels props t = (.ok id, t')) :
    ∃ props', prepareNode t.graph labels props = .ok props' ∧
      id = t.allocator.nextNodeId ∧ t.graph.nodeStore.length < maxRows ∧
      VectorIndex.Admitted t.graph.vectorIndex none (some (labels, props')) ∧
      t' = { t with
        graph := createdNode t.graph id labels props'
        changes := t.changes ++ [.nodeCreated id labels props']
        allocator := { t.allocator with nextNodeId := t.allocator.nextNodeId + 1 } } := by
  obtain ⟨props', hprep, h⟩ := check_bind_ok.1 h
  obtain ⟨id', s, halloc, h⟩ := bind_ok.1 h
  obtain ⟨hspace, rfl, rfl⟩ := allocateNode_ok.1 halloc
  obtain ⟨row, hrow, h⟩ := check_bind_ok.1 h
  obtain ⟨hlen, rfl⟩ := nextRow_ok.1 hrow
  rw [onGraph_bind] at h
  obtain ⟨v, hvec, h⟩ := onVectorIndex_bind_ok.1 h
  obtain ⟨hadm, rfl⟩ := applyNodeCreate_ok.1 hvec
  cases h
  exact ⟨props', hprep, rfl, hlen, hadm, rfl⟩

theorem createMixedEdge_ok {label : DbString} {first second : NodeId} {d : EdgeDirectionality} {id : EdgeId}
    (h : createMixedEdge label first second d props t = (.ok id, t')) :
    ∃ source target props', (source, target) = d.canonicalEndpoints first second ∧
      prepareEdge t.graph label source target d props = .ok props' ∧
      PropertyMap.validateStoredValues props' = .ok () ∧
      checkUndirected t.graph id label source target d = .ok () ∧
      id = t.allocator.nextEdgeId ∧ t.graph.edgeStore.length < maxRows ∧
      t' = { t with
        graph := appendEdge id d label source target props' t.graph.edgeStore.length t.graph
        changes := t.changes ++ [.edgeCreated id d label source target props']
        allocator := { t.allocator with nextEdgeId := t.allocator.nextEdgeId + 1 } } := by
  unfold createMixedEdge at h
  rcases hends : d.canonicalEndpoints first second with ⟨source, target⟩
  rw [hends] at h
  obtain ⟨props', hprep, h⟩ := check_bind_ok.1 h
  obtain ⟨id', s, halloc, h⟩ := bind_ok.1 h
  obtain ⟨hspace, rfl, rfl⟩ := allocateEdge_ok.1 halloc
  obtain ⟨⟨⟩, hvalues, h⟩ := check_bind_ok.1 h
  obtain ⟨⟨⟩, hund, h⟩ := check_bind_ok.1 h
  obtain ⟨row, hrow, h⟩ := check_bind_ok.1 h
  obtain ⟨hlen, rfl⟩ := nextRow_ok.1 hrow
  cases h
  exact ⟨source, target, props', rfl, hprep, except_mapError_ok.1 hvalues, hund, rfl, hlen, rfl⟩

/-! ## Updates -/

theorem requireLiveNode_ok :
    g.requireLiveNode id = .ok (row, s) ↔ g.nodeRows id = some row ∧ g.nodeAt row = some s := by
  rw [g.nodeAt_eq_some]
  constructor
  · intro h
    unfold SeleneGraph.requireLiveNode at h
    repeat' split at h
    all_goals cases h
    next hrow ha hs => exact ⟨hrow, hs, ha⟩
  · rintro ⟨hrow, hs, ha⟩
    simp [SeleneGraph.requireLiveNode, hrow, hs, ha]

theorem requireLiveEdge_ok {s : EdgeSlot} :
    g.requireLiveEdge id = .ok (row, s) ↔ g.edgeRows id = some row ∧ g.edgeAt row = some s := by
  rw [g.edgeAt_eq_some]
  constructor
  · intro h
    unfold SeleneGraph.requireLiveEdge at h
    repeat' split at h
    all_goals cases h
    next hrow ha hs => exact ⟨hrow, hs, ha⟩
  · rintro ⟨hrow, hs, ha⟩
    simp [SeleneGraph.requireLiveEdge, hrow, hs, ha]

/-- The graph an update of a node leaves, with its label bitmaps. -/
def updatedNode (g : SeleneGraph) (id : NodeId) (row : Row) (s : NodeSlot) (labels : LabelSet)
    (props : PropertyMap) (idxLabel : DbString → Finset Row) : SeleneGraph :=
  { g with
    nodeStore := g.nodeStore.modify row fun s => { s with labels, properties := props }
    idxLabel
    propertyIndex :=
      visited (some (s.labels, s.properties)) (some (labels, props)) row g.propertyIndex
    compositePropertyIndex := visited (some (s.labels, s.properties))
      (some (labels, props)) row g.compositePropertyIndex
    vectorIndex :=
      visited (some (s.labels, s.properties)) (some (labels, props)) row g.vectorIndex
    textIndex :=
      visited (some (s.labels, s.properties)) (some (labels, props)) row id g.textIndex
    expressionIndexes := ExpressionIndex.update (some (s.labels, s.properties)) (some (labels, props))
      row g.expressionIndexes }

theorem updateIndexes_ok {labels labels' : LabelSet} {props' : PropertyMap}
    (h : updateIndexes id row labels props labels' props' t = (.ok u, t')) :
    VectorIndex.Admitted t.graph.vectorIndex (some (labels, props)) (some (labels', props')) ∧
      t' = { t with graph := { t.graph with
        propertyIndex := visited (some (labels, props)) (some (labels', props')) row
          t.graph.propertyIndex
        compositePropertyIndex := visited (some (labels, props))
          (some (labels', props')) row t.graph.compositePropertyIndex
        vectorIndex := visited (some (labels, props)) (some (labels', props')) row
          t.graph.vectorIndex
        textIndex := visited (some (labels, props)) (some (labels', props')) row id
          t.graph.textIndex
        expressionIndexes := ExpressionIndex.update (some (labels, props)) (some (labels', props'))
          row t.graph.expressionIndexes } } := by
  unfold updateIndexes at h
  rw [onGraph_bind] at h
  obtain ⟨v, hvec, h⟩ := onVectorIndex_bind_ok.1 h
  obtain ⟨hadm, rfl⟩ := applyNodeUpdate_ok.1 hvec
  cases h
  refine ⟨hadm, ?_⟩
  simp only [refileText, refileNode, PropertyIndex.applyNodeUpdate_apply,
    CompositeIndex.applyNodeUpdate_apply, TextIndex.applyNodeUpdate_apply]

theorem prepareUpdate_ok {labelsDiff : LabelDiff} {diff' : PropertyDiff}
    (h : prepareUpdate g id labelsDiff diff = .ok (row, s, diff', props)) :
    g.nodeRows id = some row ∧ g.nodeAt row = some s ∧
      applyPropertyDiff s.properties diff' = .ok props := by
  obtain ⟨⟨⟩, -, h⟩ := except_bind_ok.1 h
  obtain ⟨⟨row', s'⟩, hlive, h⟩ := except_bind_ok.1 h
  obtain ⟨hrow, hs⟩ := requireLiveNode_ok.1 hlive
  obtain ⟨⟨⟩, -, h⟩ := except_bind_ok.1 h
  obtain ⟨⟨⟩, -, h⟩ := except_bind_ok.1 h
  obtain ⟨diff'', -, h⟩ := except_bind_ok.1 h
  obtain ⟨props', hprops, h⟩ := except_bind_ok.1 h
  cases h
  exact ⟨hrow, hs, hprops⟩

theorem updateNode_ok {labelsDiff : LabelDiff} (h : updateNode id labelsDiff diff t = (.ok u, t')) :
    ∃ row s diff' props, prepareUpdate t.graph id labelsDiff diff = .ok (row, s, diff', props) ∧
      VectorIndex.Admitted t.graph.vectorIndex (some (s.labels, s.properties))
        (some (applyLabelDiff s.labels labelsDiff, props)) ∧
      t' = t.after (updatedNode t.graph id row s (applyLabelDiff s.labels labelsDiff) props
        (labelsDiff.removed.foldl (fun ix label => removeIndexRow label row ix)
          (labelsDiff.added.foldl (fun ix label => insertIndexRow label row ix) t.graph.idxLabel)))
        [.nodeUpdated id labelsDiff diff'] := by
  obtain ⟨⟨row, s, diff', props⟩, hprep, h⟩ := check_bind_ok.1 h
  obtain ⟨⟨⟩, t1, hix, h⟩ := bind_ok.1 h
  obtain ⟨hadm, rfl⟩ := updateIndexes_ok hix
  cases h
  exact ⟨row, s, diff', props, hprep, hadm, rfl⟩

theorem removeNodeProperty_ok {property : DbString} (h : removeNodeProperty id property t = (.ok u, t')) :
    ∃ row s, t.graph.nodeRows id = some row ∧ t.graph.nodeAt row = some s ∧
      (property ∉ s.properties ∧ t' = t ∨
      property ∈ s.properties ∧
        VectorIndex.Admitted t.graph.vectorIndex (some (s.labels, s.properties))
          (some (s.labels, s.properties.erase property)) ∧
        t' = t.after
          (updatedNode t.graph id row s s.labels (s.properties.erase property) t.graph.idxLabel)
          [.nodePropertyRemoved id property]) := by
  obtain ⟨⟨row, s⟩, hlive, h⟩ := check_bind_ok.1 h
  obtain ⟨hrow, hs⟩ := requireLiveNode_ok.1 hlive
  refine ⟨row, s, hrow, hs, ?_⟩
  dsimp only at h
  split at h
  · next hp =>
    obtain ⟨⟨⟩, -, h⟩ := check_bind_ok.1 h
    rw [onGraph_bind] at h
    obtain ⟨⟨⟩, t1, hix, h⟩ := bind_ok.1 h
    obtain ⟨hadm, rfl⟩ := updateIndexes_ok hix
    cases h
    exact .inr ⟨hp, hadm, rfl⟩
  · next hp =>
    cases h
    exact .inl ⟨hp, rfl⟩

theorem removeNodeLabel_ok {label : DbString} (h : removeNodeLabel id label t = (.ok u, t')) :
    ∃ row s, t.graph.nodeRows id = some row ∧ t.graph.nodeAt row = some s ∧
      (label ∉ s.labels ∧ t' = t ∨
      label ∈ s.labels ∧ VectorIndex.Admitted t.graph.vectorIndex (some (s.labels, s.properties))
          (some (s.labels.erase label, s.properties)) ∧
        t' = t.after (updatedNode t.graph id row s (s.labels.erase label) s.properties
          (removeIndexRow label row t.graph.idxLabel)) [.nodeLabelRemoved id label]) := by
  obtain ⟨⟨row, s⟩, hlive, h⟩ := check_bind_ok.1 h
  obtain ⟨hrow, hs⟩ := requireLiveNode_ok.1 hlive
  refine ⟨row, s, hrow, hs, ?_⟩
  dsimp only at h
  split at h
  · next hl =>
    rw [onGraph_bind] at h
    obtain ⟨⟨⟩, t1, hix, h⟩ := bind_ok.1 h
    obtain ⟨hadm, rfl⟩ := updateIndexes_ok hix
    cases h
    exact .inr ⟨hl, hadm, rfl⟩
  · next hl =>
    cases h
    exact .inl ⟨hl, rfl⟩

theorem prepareEdgeUpdate_ok {diff' : PropertyDiff} {s : EdgeSlot}
    (h : prepareEdgeUpdate g id diff = .ok (row, s, diff', props)) :
    g.edgeRows id = some row ∧ g.edgeAt row = some s ∧
      applyPropertyDiff s.properties diff' = .ok props := by
  obtain ⟨⟨⟩, -, h⟩ := except_bind_ok.1 h
  obtain ⟨⟨row', s'⟩, hlive, h⟩ := except_bind_ok.1 h
  obtain ⟨hrow, hs⟩ := requireLiveEdge_ok.1 hlive
  obtain ⟨⟨⟩, -, h⟩ := except_bind_ok.1 h
  obtain ⟨diff'', -, h⟩ := except_bind_ok.1 h
  obtain ⟨props', hprops, h⟩ := except_bind_ok.1 h
  cases h
  exact ⟨hrow, hs, hprops⟩

theorem updateEdge_ok (h : updateEdge id diff t = (.ok u, t')) :
    ∃ row s diff' props, prepareEdgeUpdate t.graph id diff = .ok (row, s, diff', props) ∧
      t' = t.after (setEdgeProperties row s props t.graph) [.edgeUpdated id diff'] := by
  obtain ⟨⟨row, s, diff', props⟩, hprep, h⟩ := check_bind_ok.1 h
  cases h
  exact ⟨row, s, diff', props, hprep, rfl⟩

theorem removeEdgeProperty_ok {property : DbString}
    (h : removeEdgeProperty id property t = (.ok u, t')) :
    ∃ row s, t.graph.edgeRows id = some row ∧ t.graph.edgeAt row = some s ∧
      (property ∉ s.properties ∧ t' = t ∨
      property ∈ s.properties ∧
        t' = t.after (setEdgeProperties row s (s.properties.erase property) t.graph)
          [.edgePropertyRemoved id property]) := by
  obtain ⟨⟨row, s⟩, hlive, h⟩ := check_bind_ok.1 h
  obtain ⟨hrow, hs⟩ := requireLiveEdge_ok.1 hlive
  refine ⟨row, s, hrow, hs, ?_⟩
  dsimp only at h
  split at h
  · next hp =>
    obtain ⟨⟨⟩, -, h⟩ := check_bind_ok.1 h
    cases h
    exact .inr ⟨hp, rfl⟩
  · next hp =>
    cases h
    exact .inl ⟨hp, rfl⟩

/-! ## Deletion -/

/-- The graph `remove_node_row` leaves. -/
def removedNode (g : SeleneGraph) (id : NodeId) (row : Row) (s : NodeSlot) : SeleneGraph :=
  { g with
    nodeStore := g.nodeStore.modify row fun s =>
      { s with labels := ∅, properties := ∅, alive := false }
    idxLabel := s.labels.toList.foldl (fun ix label => removeIndexRow label row ix) g.idxLabel
    propertyIndex := visited (some (s.labels, s.properties)) none row g.propertyIndex
    compositePropertyIndex :=
      visited (some (s.labels, s.properties)) none row g.compositePropertyIndex
    vectorIndex := visited (some (s.labels, s.properties)) none row g.vectorIndex
    textIndex := visited (some (s.labels, s.properties)) none row id g.textIndex
    expressionIndexes :=
      ExpressionIndex.update (some (s.labels, s.properties)) none row g.expressionIndexes
    adjacencyOut := update g.adjacencyOut id []
    adjacencyIn := update g.adjacencyIn id []
    adjacencyUndirected := update g.adjacencyUndirected id [] }

theorem removeNodeRow_ok {incident : List EdgeId} : removeNodeRow id row s t = (.ok incident, t') ↔
      VectorIndex.Admitted t.graph.vectorIndex (some (s.labels, s.properties)) none ∧
        incident = t.graph.incidentEdges id ∧
        t' = { t with graph := removedNode t.graph id row s } := by
  constructor
  · intro h
    obtain ⟨edges, hinc, h⟩ := check_bind_ok.1 h
    cases hinc
    rw [onGraph_bind] at h
    obtain ⟨v, hvec, h⟩ := onVectorIndex_bind_ok.1 h
    obtain ⟨hadm, rfl⟩ := applyNodeDelete_ok.1 hvec
    cases h
    refine ⟨hadm, rfl, ?_⟩
    simp only [removedNode, clearNode, PropertyIndex.applyNodeDelete_apply,
      CompositeIndex.applyNodeDelete_apply, TextIndex.applyNodeDelete_apply]
  · rintro ⟨hadm, rfl, rfl⟩
    refine check_bind_ok.2 ⟨_, rfl, ?_⟩
    rw [onGraph_bind]
    refine onVectorIndex_bind_ok.2 ⟨_, applyNodeDelete_ok.2 ⟨hadm, rfl⟩, ?_⟩
    rw [onGraph_bind, pure_apply]
    simp only [removedNode, clearNode, PropertyIndex.applyNodeDelete_apply,
      CompositeIndex.applyNodeDelete_apply, TextIndex.applyNodeDelete_apply]

theorem deleteDetachedEdge_ok : deleteDetachedEdge id t = (.ok u, t') ↔
      ∃ row s, t.graph.edgeRows id = some row ∧ t.graph.edgeAt row = some s ∧
        t' = t.after (clearEdge row s t.graph) [.edgeDeleted id] := by
  constructor
  · intro h
    obtain ⟨⟨row, s⟩, hlive, h⟩ := check_bind_ok.1 h
    obtain ⟨hrow, hs⟩ := requireLiveEdge_ok.1 hlive
    cases h
    exact ⟨row, s, hrow, hs, rfl⟩
  · rintro ⟨row, s, hrow, hs, rfl⟩
    exact check_bind_ok.2 ⟨(row, s), requireLiveEdge_ok.2 ⟨hrow, hs⟩, rfl⟩

theorem deleteEdge_ok : deleteEdge id t = (.ok u, t') ↔
      ∃ row s, t.graph.edgeRows id = some row ∧ t.graph.edgeAt row = some s ∧
        t' = t.after (dropAdjacency id s.source s.target (clearEdge row s t.graph))
          [.edgeDeleted id] := by
  constructor
  · intro h
    obtain ⟨⟨row, s⟩, hlive, h⟩ := check_bind_ok.1 h
    obtain ⟨hrow, hs⟩ := requireLiveEdge_ok.1 hlive
    cases h
    exact ⟨row, s, hrow, hs, rfl⟩
  · rintro ⟨row, s, hrow, hs, rfl⟩
    exact check_bind_ok.2 ⟨(row, s), requireLiveEdge_ok.2 ⟨hrow, hs⟩, rfl⟩

/-- The graph `remove_edges_from_adjacency` leaves. -/
def unlisted (g : SeleneGraph) (edges : List (EdgeId × EdgeSlot)) : SeleneGraph :=
  { g with
    adjacencyOut := fun n => removeMany (group outgoingAt edges n) (g.adjacencyOut n)
    adjacencyIn := fun n => removeMany (group incomingAt edges n) (g.adjacencyIn n)
    adjacencyUndirected := fun n => removeMany (group undirectedAt edges n) (g.adjacencyUndirected n) }

theorem removeEdgesFromAdjacency_ok {ids : List EdgeId} :
    removeEdgesFromAdjacency ids t = (.ok u, t') ↔
      ∃ edges, liveEdges t.graph ids = .ok edges ∧ t' = { t with graph := unlisted t.graph edges } := by
  constructor
  · intro h
    obtain ⟨edges, hlive, h⟩ := check_bind_ok.1 h
    cases h
    exact ⟨edges, hlive, rfl⟩
  · rintro ⟨edges, hlive, rfl⟩
    exact check_bind_ok.2 ⟨edges, hlive, rfl⟩

end Mutator

end Selene.Graph
