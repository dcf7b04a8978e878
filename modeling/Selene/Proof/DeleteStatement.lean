import Selene.Query.Delete
import Selene.Proof.DataOperations

/-!
# What a DELETE statement removes

A statement without DETACH looks for edges outside its set in the outgoing and the incoming lists;
the cascade of `delete_node` also takes undirected edges. `delete_exact_iff` says when the two
agree.
-/

namespace Selene.Query

open Selene.Graph Except Finset Attempt

variable {t t' : WriteTxn} {g g' : SeleneGraph} {targets : List DeleteTarget} {table : List Binding}
  {mode : DeleteMode}

variable {row : Binding} {set : DeleteSet} {target : DeleteTarget} {i : EdgeId} {n : NodeId}

/-! ## Named elements -/

/-- The row holds a reference to an element of the target's kind in the target's column, or
nothing. -/
def BoundTo (row : Binding) (target : DeleteTarget) : Prop :=
  target.element = .node ∧ (row[target.targetColumnIndex]? = some .null ∨
      ∃ id, row[target.targetColumnIndex]? = some (.nodeRef id)) ∨
    target.element = .edge ∧ (row[target.targetColumnIndex]? = some .null ∨
      ∃ id, row[target.targetColumnIndex]? = some (.edgeRef id))

/-- What the planner promises of a binding table. -/
def WellBound (targets : List DeleteTarget) (table : List Binding) : Prop :=
  ∀ row ∈ table, ∀ target ∈ targets, BoundTo row target

/-- A live node that a row of the table names. -/
def NamedNode (g : SeleneGraph) (targets : List DeleteTarget) (table : List Binding) (id : NodeId) :
    Prop :=
  ∃ row ∈ table, ∃ target ∈ targets, target.element = .node ∧
    row[target.targetColumnIndex]? = some (.nodeRef id) ∧ g.isNodeAlive id = true

def NamedEdge (g : SeleneGraph) (targets : List DeleteTarget) (table : List Binding) (id : EdgeId) :
    Prop :=
  ∃ row ∈ table, ∃ target ∈ targets, target.element = .edge ∧
    row[target.targetColumnIndex]? = some (.edgeRef id) ∧ g.isEdgeAlive id = true

theorem NamedNode.isNodeAlive (h : NamedNode g targets table n) : g.isNodeAlive n = true := by
  obtain ⟨row, -, target, -, -, -, ha⟩ := h
  exact ha

theorem NamedEdge.isEdgeAlive (h : NamedEdge g targets table i) : g.isEdgeAlive i = true := by
  obtain ⟨row, -, target, -, -, -, ha⟩ := h
  exact ha

/-- What a target of a well-bound row adds to the sets. -/
def added (g : SeleneGraph) (mode : DeleteMode) (row : Binding) (set : DeleteSet)
    (target : DeleteTarget) : DeleteSet :=
  match target.element, row[target.targetColumnIndex]? with
  | .node, some (.nodeRef id) =>
    if g.isNodeAlive id then {
      nodes := insert id set.nodes
      edges := if mode = .detach then addIncidentEdges g id set.edges else set.edges }
    else set
  | .edge, some (.edgeRef id) =>
    if g.isEdgeAlive id then { set with edges := insert id set.edges } else set
  | _, _ => set

theorem addTarget_ok (hb : WellBound targets table) (hrow : row ∈ table)
    (htarget : target ∈ targets) (set : DeleteSet) :
    addTarget g mode row set target = .ok (added g mode row set target) := by
  unfold addTarget added
  rcases hb row hrow target htarget with ⟨hk, hv | ⟨id, hv⟩⟩ | ⟨hk, hv | ⟨id, hv⟩⟩
  · simp [hk, hv, targetNode, targetValue, bind, Except.bind]
  · simp only [hk, hv, targetNode, targetValue, bind, Except.bind]
    split <;> rfl
  · simp [hk, hv, targetEdge, targetValue, bind, Except.bind]
  · simp only [hk, hv, targetEdge, targetValue, bind, Except.bind]
    split <;> rfl

theorem mem_added_nodes :
    n ∈ (added g mode row set target).nodes ↔ n ∈ set.nodes ∨ target.element = .node ∧
      row[target.targetColumnIndex]? = some (.nodeRef n) ∧ g.isNodeAlive n = true := by
  unfold added
  split
  · next id hk hv =>
    rw [hk, hv]
    split
    · next ha =>
      rw [mem_insert, or_comm]
      refine or_congr_right ?_
      constructor
      · rintro rfl
        exact ⟨rfl, rfl, ha⟩
      · rintro ⟨-, he, -⟩
        cases he
        rfl
    · next ha =>
      refine (or_iff_left ?_).symm
      rintro ⟨-, he, hn⟩
      cases he
      exact ha hn
  · next id hk hv =>
    have hnot : ¬ (target.element = .node ∧ row[target.targetColumnIndex]? = some (.nodeRef n) ∧
        g.isNodeAlive n = true) := by
      rw [hk]
      simp
    rw [or_iff_left hnot]
    split <;> rfl
  · next hnode _ =>
    refine (or_iff_left ?_).symm
    rintro ⟨hk, hv, -⟩
    exact hnode n hk hv

/-- The edges that DETACH adds for a node. -/
def listedAt (g : SeleneGraph) (n : NodeId) (i : EdgeId) : Prop :=
  (∃ a ∈ g.adjacencyOut n, a.edgeId = i) ∨ ∃ a ∈ g.adjacencyIn n, a.edgeId = i

theorem mem_addIncidentEdges {edges : Finset EdgeId} :
    i ∈ addIncidentEdges g n edges ↔ i ∈ edges ∨ listedAt g n i := by
  simp only [addIncidentEdges, mem_union, List.mem_toFinset, List.mem_map, listedAt, or_assoc]

theorem mem_added_edges : i ∈ (added g mode row set target).edges ↔ i ∈ set.edges ∨
      (target.element = .edge ∧ row[target.targetColumnIndex]? = some (.edgeRef i) ∧
          g.isEdgeAlive i = true ∨
        mode = .detach ∧ ∃ n, target.element = .node ∧
          row[target.targetColumnIndex]? = some (.nodeRef n) ∧ g.isNodeAlive n = true ∧
            listedAt g n i) := by
  unfold added
  split
  · next id hk hv =>
    rw [hk, hv]
    by_cases ha : g.isNodeAlive id = true
    · rw [if_pos ha]
      by_cases hm : mode = .detach
      · rw [if_pos hm, mem_addIncidentEdges]
        refine or_congr_right ?_
        constructor
        · intro hi
          exact .inr ⟨hm, id, rfl, rfl, ha, hi⟩
        · rintro (⟨hk', -⟩ | ⟨-, n, -, he, -, hi⟩)
          · cases hk'
          · cases he
            exact hi
      · simp [hm]
    · rw [if_neg ha]
      refine (or_iff_left ?_).symm
      rintro (⟨hk', -⟩ | ⟨-, n, -, he, hn, -⟩)
      · cases hk'
      · cases he
        exact ha hn
  · next id hk hv =>
    rw [hk, hv]
    by_cases ha : g.isEdgeAlive id = true
    · rw [if_pos ha, mem_insert, or_comm]
      refine or_congr_right ?_
      constructor
      · rintro rfl
        exact .inl ⟨rfl, rfl, ha⟩
      · rintro (⟨-, he, -⟩ | ⟨-, n, hk', -⟩)
        · cases he
          rfl
        · cases hk'
    · rw [if_neg ha]
      refine (or_iff_left ?_).symm
      rintro (⟨-, he, hi⟩ | ⟨-, n, hk', -⟩)
      · cases he
        exact ha hi
      · cases hk'
  · next hnode hedge =>
    refine (or_iff_left ?_).symm
    rintro (⟨hk, hv, -⟩ | ⟨-, n, hk, hv, -⟩)
    · exact hedge i hk hv
    · exact hnode n hk hv

theorem collect_ok (g : SeleneGraph) (mode : DeleteMode) (hb : WellBound targets table) :
    ∃ set, collect g mode targets table = .ok set ∧
      (∀ n, n ∈ set.nodes ↔ NamedNode g targets table n) ∧
      ∀ i, i ∈ set.edges ↔ NamedEdge g targets table i ∨
        mode = .detach ∧ ∃ n, NamedNode g targets table n ∧ listedAt g n i := by
  refine ⟨table.foldl (fun set row => targets.foldl (added g mode row) set) ⟨∅, ∅⟩, ?_, ?_, ?_⟩
  · refine except_foldlM_ok (fun set row hrow => ?_) _
    exact except_foldlM_ok (fun set target htarget => addTarget_ok hb hrow htarget set) _
  · intro n
    have hrow : ∀ (set : DeleteSet) (row : Binding), n ∈ (targets.foldl (added g mode row) set).nodes ↔ _ :=
      fun set row => foldl_adds_iff (f := added g mode row) (Q := fun set => n ∈ set.nodes)
        (fun _ _ => mem_added_nodes) targets set
    refine (foldl_adds_iff (Q := fun set : DeleteSet => n ∈ set.nodes) hrow table ⟨∅, ∅⟩).trans ?_
    simp [NamedNode]
  · intro i
    have hrow : ∀ (set : DeleteSet) (row : Binding), i ∈ (targets.foldl (added g mode row) set).edges ↔ _ :=
      fun set row => foldl_adds_iff (f := added g mode row) (Q := fun set => i ∈ set.edges)
        (fun _ _ => mem_added_edges) targets set
    refine (foldl_adds_iff (Q := fun set : DeleteSet => i ∈ set.edges) hrow table ⟨∅, ∅⟩).trans ?_
    simp only [notMem_empty, false_or, NamedEdge, NamedNode]
    constructor
    · rintro ⟨row, hrow, target, htarget, hedge | ⟨hm, n, hk, hv, ha, hi⟩⟩
      · exact .inl ⟨row, hrow, target, htarget, hedge⟩
      · exact .inr ⟨hm, n, ⟨row, hrow, target, htarget, hk, hv, ha⟩, hi⟩
    · rintro (⟨row, hrow, target, htarget, hedge⟩ |
        ⟨hm, n, ⟨row, hrow, target, htarget, hk, hv, ha⟩, hi⟩)
      · exact ⟨row, hrow, target, htarget, .inl hedge⟩
      · exact ⟨row, hrow, target, htarget, .inr ⟨hm, n, hk, hv, ha, hi⟩⟩

/-! ## The statement -/

theorem listedAt_iff (h : Derived g ∅ ∅) :
    listedAt g n i ↔ ∃ e, LiveEdge g i e ∧ e.directionality = .directed ∧ e.endsAt n = true := by
  constructor
  · rintro (⟨a, ha, rfl⟩ | ⟨a, ha, rfl⟩)
    · obtain ⟨-, row, e, he, -, hea⟩ := (h.outgoing.mem n a).1 ha
      refine ⟨e, h.liveEdge_iff.2 ⟨(isEnds_out.edgeId hea).symm, row, he⟩, ?_,
        endsAt_of_mem_ends (.inl hea)⟩
      cases hd : e.directionality with
      | directed => rfl
      | undirected => simp [EdgeSlot.outEnds, hd] at hea
    · obtain ⟨-, row, e, he, -, hea⟩ := (h.incoming.mem n a).1 ha
      refine ⟨e, h.liveEdge_iff.2 ⟨(isEnds_in.edgeId hea).symm, row, he⟩, ?_,
        endsAt_of_mem_ends (.inr (.inl hea))⟩
      cases hd : e.directionality with
      | directed => rfl
      | undirected => simp [EdgeSlot.inEnds, hd] at hea
  · rintro ⟨e, hlive, hd, hend⟩
    obtain ⟨rfl, row, he⟩ := h.liveEdge_iff.1 hlive
    rcases endsAt_iff.1 hend with rfl | rfl
    · refine .inl ⟨⟨e.label, e.target, e.id⟩, (h.outgoing.mem _ _).2 ⟨Set.notMem_empty _, row, e, he,
        Set.notMem_empty _, ?_⟩, rfl⟩
      simp [EdgeSlot.outEnds, hd]
    · refine .inr ⟨⟨e.label, e.source, e.id⟩, (h.incoming.mem _ _).2 ⟨Set.notMem_empty _, row, e, he,
        Set.notMem_empty _, ?_⟩, rfl⟩
      simp [EdgeSlot.inEnds, hd]

theorem incidentEdgeOutsideDeleteSet_iff {edges : Finset EdgeId} :
    incidentEdgeOutsideDeleteSet g n edges = true ↔ ∃ i, listedAt g n i ∧ i ∉ edges := by
  simp only [incidentEdgeOutsideDeleteSet, Bool.or_eq_true, List.any_eq_true, decide_eq_true_eq, listedAt]
  constructor
  · rintro (⟨a, ha, hn⟩ | ⟨a, ha, hn⟩)
    · exact ⟨a.edgeId, .inl ⟨a, ha, rfl⟩, hn⟩
    · exact ⟨a.edgeId, .inr ⟨a, ha, rfl⟩, hn⟩
  · rintro ⟨i, ⟨a, ha, rfl⟩ | ⟨a, ha, rfl⟩, hn⟩
    · exact .inl ⟨a, ha, hn⟩
    · exact .inr ⟨a, ha, hn⟩

/-- The live elements of `g'` are those of `g` without the removed ones. -/
structure RemovesExactly (g g' : SeleneGraph) (nodes : NodeId → Prop) (edges : EdgeId → Prop) :
    Prop where
  nodes : ∀ id s, g'.node id = some s ↔ g.node id = some s ∧ ¬ nodes id
  edges : ∀ id e, g'.edge id = some e ↔ g.edge id = some e ∧ ¬ edges id

theorem RemovesExactly.congr {nodes nodes' : NodeId → Prop} {edges edges' : EdgeId → Prop}
    (h : RemovesExactly g g' nodes edges) (hn : ∀ id, g.isNodeAlive id = true → (nodes id ↔ nodes' id))
    (he : ∀ id, g.isEdgeAlive id = true → (edges id ↔ edges' id)) :
    RemovesExactly g g' nodes' edges' where
  nodes id s := by
    rw [h.nodes]
    refine and_congr_right fun hs => not_congr (hn id ?_)
    rw [SeleneGraph.isNodeAlive, hs]
    rfl
  edges id e := by
    rw [h.edges]
    refine and_congr_right fun hs => not_congr (he id ?_)
    rw [SeleneGraph.isEdgeAlive, hs]
    rfl

theorem mutator_deleteElements (h : Derived t.graph ∅ ∅)
    (hnodes : ∀ n ∈ set.nodes, t.graph.isNodeAlive n = true)
    (hedges : ∀ i ∈ set.edges, t.graph.isEdgeAlive i = true) :
    (∀ n ∈ set.nodes, ∀ s, LiveNode t.graph n s → Deletable t.graph s) ∧
      (∃ t', mutator (Mutator.deleteElements (set.nodes.sort (· ≤ ·)) (set.edges.sort (· ≤ ·))) t =
          (.ok (), t') ∧
        RemovesExactly t.graph t'.graph (· ∈ set.nodes)
          fun i => (∃ n ∈ set.nodes, ∃ e, LiveEdge t.graph i e ∧ e.endsAt n = true) ∨ i ∈ set.edges) ∨
    (¬ ∀ n ∈ set.nodes, ∀ s, LiveNode t.graph n s → Deletable t.graph s) ∧
      ∃ e t', mutator (Mutator.deleteElements (set.nodes.sort (· ≤ ·)) (set.edges.sort (· ≤ ·))) t =
        (.error (.ofGraph e), t') := by
  have hknown : ∀ n ∈ set.nodes.sort (· ≤ ·), t.graph.nodeRows n ≠ none := by
    intro n hn
    obtain ⟨s, row, hrow, -⟩ := isNodeAlive_iff.1 (hnodes n ((mem_sort _).1 hn))
    rw [hrow]
    simp
  have hknown' : ∀ i ∈ set.edges.sort (· ≤ ·), t.graph.edgeRows i ≠ none := by
    intro i hi
    obtain ⟨e, row, hrow, -⟩ := isEdgeAlive_iff.1 (hedges i ((mem_sort _).1 hi))
    rw [hrow]
    simp
  -- all ids are known, so only a vector index can refuse
  by_cases hadm : ∀ n ∈ set.nodes, ∀ s, LiveNode t.graph n s → Deletable t.graph s
  · obtain ⟨g', cs, hrun, h', hrem⟩ := deleteElements_spec h hknown hknown'
      fun n hn => hadm n ((mem_sort _).1 hn)
    refine .inl ⟨hadm, t.after g' cs, ?_, ?_, ?_⟩
    · rw [mutator, hrun]
      rfl
    · intro id s
      rw [node_eq_some, node_eq_some, hrem.liveNode]
      refine and_congr_right fun hs => ?_
      obtain ⟨hid, hne, -⟩ := h.liveNode_iff.1 hs
      rw [hid, mem_sort]
      simp [hne]
    · intro id e
      rw [edge_eq_some, edge_eq_some, hrem.liveEdge]
      refine and_congr_right fun he => not_congr ?_
      have hid := (h.liveEdge_iff.1 he).1
      rw [hid, mem_sort]
      refine or_congr_left ⟨?_, ?_⟩
      · rintro ⟨n, hn, -, hend⟩
        exact ⟨n, (mem_sort _).1 hn, e, he, hend⟩
      · rintro ⟨n, hn, e', he', hend⟩
        obtain rfl := he'.unique he
        exact ⟨n, (mem_sort _).2 hn, isNodeAlive_iff.1 (hnodes n hn), hend⟩
  · refine .inr ⟨hadm, ?_⟩
    rcases hrun : Mutator.deleteElements (set.nodes.sort (· ≤ ·)) (set.edges.sort (· ≤ ·)) t with ⟨r, t'⟩
    cases r with
    | ok u =>
      refine absurd (fun n hn => ?_) hadm
      exact deletable_of_deleteElements h hrun n ((mem_sort _).2 hn)
    | error e =>
      refine ⟨e, t', ?_⟩
      rw [mutator, hrun]
      rfl

/-! ### Rows that are not well bound -/

theorem targetNode_ok {column : ℕ} {found : Option NodeId} (h : targetNode row column = .ok found) :
    row[column]? = some .null ∨ ∃ id, row[column]? = some (.nodeRef id) := by
  unfold targetNode targetValue at h
  cases hrow : row[column]? with
  | none => simp [hrow, bind, Except.bind] at h
  | some value => cases value <;> simp [hrow, bind, Except.bind] at h ⊢

theorem targetEdge_ok {column : ℕ} {found : Option EdgeId} (h : targetEdge row column = .ok found) :
    row[column]? = some .null ∨ ∃ id, row[column]? = some (.edgeRef id) := by
  unfold targetEdge targetValue at h
  cases hrow : row[column]? with
  | none => simp [hrow, bind, Except.bind] at h
  | some value => cases value <;> simp [hrow, bind, Except.bind] at h ⊢

theorem boundTo_of_addTarget_ok {set' : DeleteSet}
    (h : addTarget g mode row set target = .ok set') : BoundTo row target := by
  unfold addTarget at h
  split at h
  · next hk =>
    obtain ⟨found, hfound, -⟩ := except_bind_ok.1 h
    exact .inl ⟨hk, targetNode_ok hfound⟩
  · next hk =>
    obtain ⟨found, hfound, -⟩ := except_bind_ok.1 h
    exact .inr ⟨hk, targetEdge_ok hfound⟩
  · cases h
  · cases h

theorem addTarget_error {e : ExecutorError} (h : addTarget g mode row set target = .error e) (m : String) :
    e ≠ .dependentObjectStillExists m := by
  rintro rfl
  unfold addTarget targetNode targetEdge targetValue at h
  cases hrow : row[target.targetColumnIndex]? with
  | none => cases hk : target.element <;> simp [hk, hrow, bind, Except.bind] at h
  | some value =>
    cases hk : target.element <;> cases value <;> simp [hk, hrow, bind, Except.bind] at h <;>
      split at h <;> cases h

theorem collect_refused (g : SeleneGraph) (mode : DeleteMode) (h : ¬ WellBound targets table) :
    ∃ e, collect g mode targets table = .error e ∧ ∀ m, e ≠ .dependentObjectStillExists m := by
  cases hc : collect g mode targets table with
  | error e =>
    refine ⟨e, rfl, ?_⟩
    obtain ⟨row, -, set, hrow⟩ := except_foldlM_error hc
    obtain ⟨target, -, set, htarget⟩ := except_foldlM_error hrow
    exact addTarget_error htarget
  | ok set =>
    refine absurd (fun row hrow target htarget => ?_) h
    obtain ⟨set0, set1, hturn⟩ := except_foldlM_turn hc hrow
    obtain ⟨set0, set1, hturn⟩ := except_foldlM_turn hturn htarget
    exact boundTo_of_addTarget_ok hturn

/-! ### The outcome -/

/-- With DETACH the named elements are gone together with every edge at a named node. Without it,
either the statement is refused for the sake of a dependent object and nothing changes, or exactly
the named elements are gone. -/
def DeletesExactly (targets : List DeleteTarget) (mode : DeleteMode) (table : List Binding)
    (t : WriteTxn) (outcome : Except ExecutorError Unit × WriteTxn) : Prop :=
  if mode = .detach then
    outcome.1 = .ok () ∧
      RemovesExactly t.graph outcome.2.graph (NamedNode t.graph targets table) fun i =>
        NamedEdge t.graph targets table i ∨
          ∃ n e, NamedNode t.graph targets table n ∧ t.graph.edge i = some e ∧ e.endsAt n = true
  else
    (∃ m, outcome.1 = .error (.dependentObjectStillExists m)) ∧ outcome.2 = t ∨
      outcome.1 = .ok () ∧ RemovesExactly t.graph outcome.2.graph (NamedNode t.graph targets table)
        (NamedEdge t.graph targets table)

/-- A named node has an edge of the given kind that is not named. -/
def LeavesEdge (g : SeleneGraph) (targets : List DeleteTarget) (table : List Binding)
    (kind : EdgeDirectionality) : Prop :=
  ∃ n i e, NamedNode g targets table n ∧ g.edge i = some e ∧ e.directionality = kind ∧
    e.endsAt n = true ∧ ¬ NamedEdge g targets table i

/-- No vector index holds a named node back. -/
def NamedDeletable (g : SeleneGraph) (targets : List DeleteTarget) (table : List Binding) : Prop :=
  ∀ n s, NamedNode g targets table n → g.node n = some s → Deletable g s

theorem namedDeletable_iff (hnodes : ∀ n, n ∈ set.nodes ↔ NamedNode g targets table n) :
    NamedDeletable g targets table ↔ ∀ n ∈ set.nodes, ∀ s, LiveNode g n s → Deletable g s := by
  simp only [NamedDeletable, node_eq_some, hnodes]
  exact ⟨fun hd n hn s => hd n s hn, fun hd n s hn => hd n hn s⟩

theorem ensureDeleteNodesDetached_eq (h : Derived g ∅ ∅)
    (hnodes : ∀ n, n ∈ set.nodes ↔ NamedNode g targets table n)
    (hedges : ∀ i, i ∈ set.edges ↔ NamedEdge g targets table i) :
    LeavesEdge g targets table .directed ∧ (∃ m, ensureDeleteNodesDetached g set =
        .error (.dependentObjectStillExists m)) ∨
      ¬ LeavesEdge g targets table .directed ∧ ensureDeleteNodesDetached g set = .ok () := by
  have hany : (set.nodes.sort (· ≤ ·)).any (incidentEdgeOutsideDeleteSet g · set.edges) = true ↔
      LeavesEdge g targets table .directed := by
    simp only [List.any_eq_true, mem_sort, incidentEdgeOutsideDeleteSet_iff, listedAt_iff h, hnodes,
      hedges, LeavesEdge, edge_eq_some]
    constructor
    · rintro ⟨n, hn, i, ⟨e, he, hd, hend⟩, hi⟩
      exact ⟨n, i, e, hn, he, hd, hend, hi⟩
    · rintro ⟨n, i, e, hn, he, hd, hend, hi⟩
      exact ⟨n, hn, i, ⟨e, he, hd, hend⟩, hi⟩
  unfold ensureDeleteNodesDetached
  by_cases hleft : LeavesEdge g targets table .directed
  · rw [if_pos (hany.2 hleft)]
    exact .inl ⟨hleft, _, rfl⟩
  · rw [if_neg (mt hany.1 hleft)]
    exact .inr ⟨hleft, rfl⟩

theorem ofGraph_ne_dependent (e : GraphError) (m : String) :
    ExecutorError.ofGraph e ≠ .dependentObjectStillExists m := by
  cases e <;> simp [ExecutorError.ofGraph]

section Outcome

variable (h : Derived t.graph ∅ ∅) (hb : WellBound targets table)

include h hb

theorem detach_iff :
    DeletesExactly targets .detach table t (executeDeleteTargets targets .detach table t) ↔
      NamedDeletable t.graph targets table := by
  obtain ⟨set, hset, hnodes, hedges⟩ := collect_ok t.graph .detach hb
  have hrun : executeDeleteTargets targets .detach table t =
      mutator (Mutator.deleteElements (set.nodes.sort (· ≤ ·)) (set.edges.sort (· ≤ ·))) t := by
    simp [executeDeleteTargets, bind_apply, check_apply, hset]
  have hlive : ∀ n ∈ set.nodes, t.graph.isNodeAlive n = true :=
    fun n hn => ((hnodes n).1 hn).isNodeAlive
  have hlive' : ∀ i ∈ set.edges, t.graph.isEdgeAlive i = true := by
    intro i hi
    rcases (hedges i).1 hi with hnamed | ⟨-, n, -, hlisted⟩
    · exact hnamed.isEdgeAlive
    · obtain ⟨e, he, -⟩ := (listedAt_iff h).1 hlisted
      exact isEdgeAlive_iff.2 ⟨e, he⟩
  rw [hrun, DeletesExactly, if_pos rfl, namedDeletable_iff hnodes]
  rcases mutator_deleteElements h hlive hlive' with ⟨hadm, t', ht', hrem⟩ | ⟨hadm, e, t', ht'⟩
  · refine iff_of_true ?_ hadm
    rw [ht']
    refine ⟨rfl, hrem.congr (fun n _ => hnodes n) fun i _ => ?_⟩
    -- an edge the lists add is an edge at a named node
    constructor
    · rintro (⟨n, hn, e, he, hend⟩ | hi)
      · exact .inr ⟨n, e, (hnodes n).1 hn, edge_eq_some.2 he, hend⟩
      · rcases (hedges i).1 hi with hnamed | ⟨-, n, hn, hlisted⟩
        · exact .inl hnamed
        · obtain ⟨e, he, -, hend⟩ := (listedAt_iff h).1 hlisted
          exact .inr ⟨n, e, hn, edge_eq_some.2 he, hend⟩
    · rintro (hnamed | ⟨n, e, hn, he, hend⟩)
      · exact .inr ((hedges i).2 (.inl hnamed))
      · exact .inl ⟨n, (hnodes n).2 hn, e, edge_eq_some.1 he, hend⟩
  · refine iff_of_false ?_ hadm
    rw [ht']
    rintro ⟨hok, -⟩
    cases hok

theorem plain_iff (hmode : mode ≠ .detach) :
    DeletesExactly targets mode table t (executeDeleteTargets targets mode table t) ↔
      LeavesEdge t.graph targets table .directed ∨
        ¬ LeavesEdge t.graph targets table .undirected ∧ NamedDeletable t.graph targets table := by
  obtain ⟨set, hset, hnodes, hedges⟩ := collect_ok t.graph mode hb
  simp only [hmode, false_and, or_false] at hedges
  have hplain : mode = .bare ∨ mode = .noDetach := by
    cases mode <;> simp at hmode ⊢
  have hrun : executeDeleteTargets targets mode table t = match ensureDeleteNodesDetached t.graph set with
      | .ok () => mutator (Mutator.deleteElements (set.nodes.sort (· ≤ ·)) (set.edges.sort (· ≤ ·))) t
      | .error e => (.error e, t) := by
    rw [executeDeleteTargets, bind_apply, check_apply, hset]
    simp only [if_pos hplain, bind_apply, check_apply]
    cases ensureDeleteNodesDetached t.graph set <;> rfl
  rw [hrun, DeletesExactly, if_neg hmode]
  rcases ensureDeleteNodesDetached_eq h hnodes hedges with ⟨hleft, m, hcheck⟩ | ⟨hleft, hcheck⟩
  · rw [hcheck]
    exact iff_of_true (.inl ⟨⟨m, rfl⟩, rfl⟩) (.inl hleft)
  · rw [hcheck, or_iff_right hleft]
    have hlive : ∀ n ∈ set.nodes, t.graph.isNodeAlive n = true :=
      fun n hn => ((hnodes n).1 hn).isNodeAlive
    have hlive' : ∀ i ∈ set.edges, t.graph.isEdgeAlive i = true :=
      fun i hi => ((hedges i).1 hi).isEdgeAlive
    rw [namedDeletable_iff hnodes]
    rcases mutator_deleteElements h hlive hlive' with ⟨hadm, t', ht', hrem⟩ | ⟨hadm, e, t', ht'⟩
    · rw [ht', and_iff_left hadm]
      constructor
      · rintro (⟨⟨m, hm⟩, -⟩ | ⟨-, hexact⟩)
        · cases hm
        · rintro ⟨n, i, e, hn, he, -, hend, hi⟩
          -- the edge stays by one description and goes by the other
          have hstays := (hexact.edges i e).2 ⟨he, hi⟩
          exact ((hrem.edges i e).1 hstays).2 (.inl ⟨n, (hnodes n).2 hn, e, edge_eq_some.1 he, hend⟩)
      · intro hundirected
        refine .inr ⟨rfl, hrem.congr (fun n _ => hnodes n) fun i _ => ?_⟩
        rw [← hedges i]
        refine or_iff_right_of_imp ?_
        rintro ⟨n, hn, e, he, hend⟩
        by_contra hi
        have hleaves : LeavesEdge t.graph targets table e.directionality :=
          ⟨n, i, e, (hnodes n).1 hn, edge_eq_some.2 he, rfl, hend, mt (hedges i).2 hi⟩
        cases hd : e.directionality with
        | directed => exact hleft (hd ▸ hleaves)
        | undirected => exact hundirected (hd ▸ hleaves)
    · rw [ht']
      refine iff_of_false ?_ fun hboth => hadm hboth.2
      rintro (⟨⟨m, hm⟩, -⟩ | ⟨hok, -⟩)
      · exact ofGraph_ne_dependent e m (error.inj hm)
      · cases hok

end Outcome

/-- **What DELETE removes.** On a consistent graph a statement does what it should exactly when its
rows are well bound and either a directed edge of a named node makes a statement without DETACH
fail, or no vector index holds a named node back and, without DETACH, every undirected edge of a
named node is named. -/
theorem delete_exact_iff (targets : List DeleteTarget) (mode : DeleteMode) (table : List Binding)
    (t : WriteTxn) (hc : AssertIndexesConsistent t.graph) :
    DeletesExactly targets mode table t (executeDeleteTargets targets mode table t) ↔
      WellBound targets table ∧ (mode ≠ .detach ∧ LeavesEdge t.graph targets table .directed ∨
        (mode = .detach ∨ ¬ LeavesEdge t.graph targets table .undirected) ∧
          NamedDeletable t.graph targets table) := by
  have h := assertIndexesConsistent_iff.1 hc
  by_cases hb : WellBound targets table
  · by_cases hmode : mode = .detach
    · subst hmode
      rw [detach_iff h hb]
      simp [hb]
    · rw [plain_iff h hb hmode]
      simp [hb, hmode]
  · refine iff_of_false ?_ fun hboth => hb hboth.1
    obtain ⟨e, he, hne⟩ := collect_refused t.graph mode hb
    have hrun : executeDeleteTargets targets mode table t = (.error e, t) := by
      rw [executeDeleteTargets, bind_apply, check_apply, he]
    rw [hrun, DeletesExactly]
    by_cases hmode : mode = .detach
    · simp [hmode]
    · simp [hmode, hne]

/-- Two nodes and an undirected edge between them. -/
def linkedPair : Except GraphError Unit × WriteTxn :=
  each DataOperation.run
    [.createNode ∅ ∅, .createNode ∅ ∅, .createMixedEdge "K" 1 2 .undirected ∅]
    (SharedGraph.beginWrite ⟨.empty, ⟨1, 1⟩⟩)

theorem consistent_linkedPair : AssertIndexesConsistent linkedPair.2.graph := by
  have hrun := eq_ok_of_isOk (x := linkedPair) (by decide)
  exact assertIndexesConsistent_iff.2 (SharedGraph.intact_empty.operations hrun).derived

/-- DELETE of the first node succeeds, and the edge that it did not name is gone. -/
theorem bare_delete_takes_undirected_edge :
    let outcome := executeDeleteTargets [⟨.node, 0⟩] .bare [[.nodeRef 1]] linkedPair.2
    AssertIndexesConsistent linkedPair.2.graph ∧ outcome.1.isOk = true ∧
      (linkedPair.2.graph.edge 1).isSome = true ∧ outcome.2.graph.edge 1 = none ∧
      ¬ NamedEdge linkedPair.2.graph [⟨.node, 0⟩] [[.nodeRef 1]] 1 ∧
      ¬ DeletesExactly [⟨.node, 0⟩] .bare [[.nodeRef 1]] linkedPair.2 outcome := by
  intro outcome
  have hok : outcome.1.isOk = true := by decide +kernel
  have hsome : (linkedPair.2.graph.edge 1).isSome = true := by decide +kernel
  have hgone : outcome.2.graph.edge 1 = none := by
    rw [← Option.isNone_iff_eq_none]
    decide +kernel
  have hnot : ¬ NamedEdge linkedPair.2.graph [⟨.node, 0⟩] [[.nodeRef 1]] 1 := by
    rintro ⟨row, -, target, htarget, hk, -⟩
    cases List.mem_singleton.1 htarget
    cases hk
  refine ⟨consistent_linkedPair, hok, hsome, hgone, hnot, ?_⟩
  rintro (⟨⟨m, hm⟩, -⟩ | ⟨-, hexact⟩)
  · rw [hm] at hok
    cases hok
  · obtain ⟨e, he⟩ := Option.isSome_iff_exists.1 hsome
    have hstays := (hexact.edges 1 e).2 ⟨he, hnot⟩
    rw [hgone] at hstays
    cases hstays

/-- When the edge is named too, DELETE removes the two. -/
theorem delete_exact_of_linked_pair :
    DeletesExactly [⟨.node, 0⟩, ⟨.edge, 1⟩] .bare [[.nodeRef 1, .edgeRef 1]] linkedPair.2
      (executeDeleteTargets [⟨.node, 0⟩, ⟨.edge, 1⟩] .bare [[.nodeRef 1, .edgeRef 1]] linkedPair.2) := by
  have h := assertIndexesConsistent_iff.1 consistent_linkedPair
  refine (delete_exact_iff _ _ _ _ consistent_linkedPair).2 ⟨?_, .inr ⟨.inr ?_, ?_⟩⟩
  · intro row hrow target htarget
    cases List.mem_singleton.1 hrow
    rcases List.mem_pair.1 htarget with rfl | rfl
    · exact .inl ⟨rfl, .inr ⟨1, rfl⟩⟩
    · exact .inr ⟨rfl, .inr ⟨1, rfl⟩⟩
  · rintro ⟨n, i, e, -, he, -, -, hi⟩
    obtain ⟨hid, row, hrow⟩ := h.liveEdge_iff.1 (edge_eq_some.1 he)
    have hids : linkedPair.2.graph.edgeStore.map (·.id) = [1] := by decide
    have he : e ∈ linkedPair.2.graph.edgeStore :=
      List.mem_of_getElem? (Option.filter_eq_some_iff.1 hrow).1
    have hone : i = 1 := by
      rw [← hid, ← List.mem_singleton, ← hids]
      exact List.mem_map_of_mem he
    subst hone
    exact hi ⟨_, List.mem_cons_self, ⟨.edge, 1⟩, by simp, rfl, rfl, by decide⟩
  · intro n s _ _ key entry hentry
    have hnone : linkedPair.2.graph.vectorIndex key = none := rfl
    rw [hnone] at hentry
    cases hentry

end Selene.Query
