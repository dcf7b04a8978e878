import Selene.Proof.MutatorSteps

/-!
# The derived state survives the data operations

A data operation changes the live rows one at a time. `NodeChange` and `EdgeChange` say what one
change of a row comes with: the maintenance of every structure that reads the row. They keep
`Derived` (`Derived.changeNode`, `Derived.changeEdge`), and every operation is a chain of them.
-/

namespace Selene.Graph

open Mutator Function List Option SeleneGraph

variable {g g' : SeleneGraph} {gone : Set NodeId} {out : Set EdgeId}

/-! ## The stores -/

theorem nodeAt_append {s : NodeSlot} (h : g'.nodeStore = g.nodeStore ++ [s]) (ha : s.alive = true) :
    g'.nodeAt = update g.nodeAt g.nodeStore.length (some s) := by
  funext row
  rw [nodeAt, h]
  by_cases hr : row = g.nodeStore.length
  · subst hr
    simp [ha]
  · rw [update_of_ne hr, nodeAt]
    rcases lt_or_gt_of_ne hr with hlt | hgt
    · rw [getElem?_append_left hlt]
    · rw [getElem?_eq_none (by simp; exact hgt), getElem?_eq_none (le_of_lt hgt)]

theorem edgeAt_append {e : EdgeSlot} (h : g'.edgeStore = g.edgeStore ++ [e]) (ha : e.alive = true) :
    g'.edgeAt = update g.edgeAt g.edgeStore.length (some e) := by
  funext row
  rw [edgeAt, h]
  by_cases hr : row = g.edgeStore.length
  · subst hr
    simp [ha]
  · rw [update_of_ne hr, edgeAt]
    rcases lt_or_gt_of_ne hr with hlt | hgt
    · rw [getElem?_append_left hlt]
    · rw [getElem?_eq_none (by simp; exact hgt), getElem?_eq_none (le_of_lt hgt)]

theorem nodeAt_modify {row : Row} {s : NodeSlot} {f : NodeSlot → NodeSlot}
    (h : g'.nodeStore = g.nodeStore.modify row f) (hs : g.nodeAt row = some s) :
    g'.nodeAt = update g.nodeAt row ((some (f s)).filter (·.alive)) := by
  funext r
  rw [nodeAt, h, getElem?_modify]
  by_cases hr : r = row
  · subst hr
    rw [update_self, (g.nodeAt_eq_some.1 hs).1]
    simp
  · rw [update_of_ne hr, nodeAt]
    simp [Ne.symm hr]

theorem edgeAt_modify {row : Row} {s : EdgeSlot} {f : EdgeSlot → EdgeSlot}
    (h : g'.edgeStore = g.edgeStore.modify row f) (hs : g.edgeAt row = some s) :
    g'.edgeAt = update g.edgeAt row ((some (f s)).filter (·.alive)) := by
  funext r
  rw [edgeAt, h, getElem?_modify]
  by_cases hr : r = row
  · subst hr
    rw [update_self, (g.edgeAt_eq_some.1 hs).1]
    simp
  · rw [update_of_ne hr, edgeAt]
    simp [Ne.symm hr]

theorem getElem?_concat_eq_some {σ : Type} {store : List σ} {s s' : σ} {r : ℕ} :
    (store ++ [s])[r]? = some s' ↔ store[r]? = some s' ∨ r = store.length ∧ s' = s := by
  rw [getElem?_append]
  split
  · next h => simp [h.ne]
  · next h =>
    rw [getElem?_eq_none (not_lt.1 h), getElem?_singleton]
    rcases Nat.lt_or_ge store.length r with hlt | hge
    · simp [Nat.sub_ne_zero_of_lt hlt, hlt.ne']
    · obtain rfl := Nat.le_antisymm hge (not_lt.1 h)
      simp [eq_comm]

section IdMap

variable {σ : Type} {rows : ℕ → Option Row} {store : List σ} {id : σ → ℕ}

theorem IdMap.modify (h : IdMap rows store id) (row : Row) {f : σ → σ} (hf : ∀ s, id (f s) = id s) :
    IdMap rows (store.modify row f) id := by
  intro i r
  rw [h i r, getElem?_modify]
  refine and_congr_right fun _ => ?_
  split
  · simp [hf]
  · simp

theorem IdMap.append (h : IdMap rows store id) {s : σ} (hid : id s ≠ tombstone)
    (hfresh : ∀ s' ∈ store, id s' ≠ id s) :
    IdMap (update rows (id s) (some store.length)) (store ++ [s]) id := by
  intro i r
  by_cases hi : i = id s
  · subst hi
    rw [update_self, Option.some.injEq]
    constructor
    · rintro rfl
      exact ⟨hid, s, by simp, rfl⟩
    · rintro ⟨-, s', hs', he⟩
      rcases getElem?_concat_eq_some.1 hs' with hs' | ⟨rfl, -⟩
      · exact absurd he (hfresh s' (mem_of_getElem? hs'))
      · rfl
  · rw [update_of_ne hi, h i r]
    refine and_congr_right fun _ => ⟨?_, ?_⟩
    · rintro ⟨s', hs', he⟩
      exact ⟨s', getElem?_concat_eq_some.2 (.inl hs'), he⟩
    · rintro ⟨s', hs', he⟩
      rcases getElem?_concat_eq_some.1 hs' with hs' | ⟨-, rfl⟩
      · exact ⟨s', hs', he⟩
      · exact absurd he.symm hi

end IdMap

/-! ## One row -/

/-- A change of the node in one row, with the maintenance it comes with. -/
structure NodeChange (g g' : SeleneGraph) (id : NodeId) (row : Row) (new : Option NodeSlot) : Prop where
  stable : id ≠ tombstone
  ids : ∀ r s, g.nodeAt r = some s → (s.id = id ↔ r = row)
  newId : ∀ s, new = some s → s.id = id
  nodeAt : g'.nodeAt = update g.nodeAt row new
  nodeRows : IdMap g'.nodeRows g'.nodeStore NodeSlot.id
  labels : ∀ label r, r ∈ g'.idxLabel label ↔
    if r = row then ∃ s, new = some s ∧ label ∈ s.labels else r ∈ g.idxLabel label
  property : g'.propertyIndex = PropertyIndex.visited (g.nodePayload row)
    (new.map fun s => (s.labels, s.properties)) row g.propertyIndex
  composite : g'.compositePropertyIndex = CompositeIndex.visited (g.nodePayload row)
    (new.map fun s => (s.labels, s.properties)) row g.compositePropertyIndex
  admitted : VectorIndex.Admitted g.vectorIndex (g.nodePayload row)
    (new.map fun s => (s.labels, s.properties))
  vector : g'.vectorIndex = VectorIndex.visited (g.nodePayload row)
    (new.map fun s => (s.labels, s.properties)) row g.vectorIndex
  text : g'.textIndex = TextIndex.visited (g.nodePayload row)
    (new.map fun s => (s.labels, s.properties)) row id g.textIndex
  edgeStore : g'.edgeStore = g.edgeStore
  edgeRows : g'.edgeRows = g.edgeRows
  edgeLabels : g'.idxEdgeLabel = g.idxEdgeLabel
  edgeProperty : g'.edgePropertyIndex = g.edgePropertyIndex

theorem nodePayload_eq_update {row : Row} {new : Option NodeSlot}
    (h : g'.nodeAt = update g.nodeAt row new) :
    g'.nodePayload = update g.nodePayload row (new.map fun s => (s.labels, s.properties)) := by
  show Option.map _ ∘ g'.nodeAt = _
  rw [h, comp_update]
  rfl

theorem edgePayload_eq_update {row : Row} {new : Option EdgeSlot}
    (h : g'.edgeAt = update g.edgeAt row new) :
    g'.edgePayload = update g.edgePayload row (new.map fun e => ({e.label}, e.properties)) := by
  show Option.map _ ∘ g'.edgeAt = _
  rw [h, comp_update]
  rfl

theorem edgeAt_congr (h : g'.edgeStore = g.edgeStore) : g'.edgeAt = g.edgeAt := by
  funext row
  rw [edgeAt, h, edgeAt]

theorem nodeAt_congr (h : g'.nodeStore = g.nodeStore) : g'.nodeAt = g.nodeAt := by
  funext row
  rw [nodeAt, h, nodeAt]

/-- **A change of a node keeps the derived state**, up to the adjacency lists. -/
theorem Derived.changeNode {gone' : Set NodeId} {id : NodeId} {row : Row} {new : Option NodeSlot}
    (h : Derived g gone out) (c : NodeChange g g' id row new)
    (hout : Adjacency.Exact g'.adjacencyOut EdgeSlot.outEnds g.edgeAt gone' out)
    (hin : Adjacency.Exact g'.adjacencyIn EdgeSlot.inEnds g.edgeAt gone' out)
    (hund : Adjacency.Exact g'.adjacencyUndirected EdgeSlot.undirectedEnds g.edgeAt gone' out) :
    Derived g' gone' out := by
  have hpayload := nodePayload_eq_update c.nodeAt
  have hedges := edgeAt_congr c.edgeStore
  have hepayload : g'.edgePayload = g.edgePayload := by
    funext r
    rw [edgePayload, hedges, edgePayload]
  exact {
    nodeRows := c.nodeRows
    edgeRows := by rw [c.edgeRows, c.edgeStore]; exact h.edgeRows
    labels := by
      intro label r
      rw [c.labels, c.nodeAt]
      by_cases hr : r = row
      · subst hr; simp
      · rw [if_neg hr, update_of_ne hr]
        exact h.labels label r
    edgeLabels := by rw [c.edgeLabels, hedges]; exact h.edgeLabels
    property := by rw [c.property, hpayload]; exact h.property.update _
    edgeProperty := by rw [c.edgeProperty, hepayload]; exact h.edgeProperty
    composite := by rw [c.composite, hpayload]; exact h.composite.update _
    vector := by rw [c.vector, hpayload]; exact h.vector.update c.admitted
    text := by
      intro key index' hindex
      rw [c.text] at hindex
      obtain ⟨index, hkey, rfl⟩ := map_eq_some_iff.1 hindex
      obtain ⟨hstable, hex⟩ := h.text key index hkey
      constructor
      · intro r s hs hl
        rw [c.nodeAt] at hs
        by_cases hr : r = row
        · subst hr
          rw [update_self] at hs
          rw [c.newId s hs]
          exact c.stable
        · rw [update_of_ne hr] at hs
          exact hstable r s hs hl
      · have hrep := hex.replace row id new c.ids c.newId
        rw [c.nodeAt]
        rwa [payloadText, payloadText, nodePayload, bind_map, bind_map]
    stableIds := by rw [hedges]; exact h.stableIds
    canonical := by rw [hedges]; exact h.canonical
    outgoing := by rw [hedges]; exact hout
    incoming := by rw [hedges]; exact hin
    undirected := by rw [hedges]; exact hund }

/-- A change of the edge in one row, with the maintenance it comes with. -/
structure EdgeChange (g g' : SeleneGraph) (row : Row) (new : Option EdgeSlot) : Prop where
  edgeAt : g'.edgeAt = update g.edgeAt row new
  edgeRows : IdMap g'.edgeRows g'.edgeStore EdgeSlot.id
  stable : ∀ e, new = some e → e.id ≠ tombstone
  canonical : ∀ e, new = some e → e.directionality = .undirected → e.source ≤ e.target
  labels : ∀ label r, r ∈ g'.idxEdgeLabel label ↔
    if r = row then ∃ e, new = some e ∧ e.label = label else r ∈ g.idxEdgeLabel label
  property : g'.edgePropertyIndex = PropertyIndex.visited (g.edgePayload row)
    (new.map fun e => ({e.label}, e.properties)) row g.edgePropertyIndex
  nodeStore : g'.nodeStore = g.nodeStore
  nodeRows : g'.nodeRows = g.nodeRows
  nodeLabels : g'.idxLabel = g.idxLabel
  nodeProperty : g'.propertyIndex = g.propertyIndex
  composite : g'.compositePropertyIndex = g.compositePropertyIndex
  vector : g'.vectorIndex = g.vectorIndex
  text : g'.textIndex = g.textIndex

theorem Derived.changeEdge {gone' : Set NodeId} {out' : Set EdgeId} {row : Row}
    {new : Option EdgeSlot} (h : Derived g gone out) (c : EdgeChange g g' row new)
    (hout : Adjacency.Exact g'.adjacencyOut EdgeSlot.outEnds g'.edgeAt gone' out')
    (hin : Adjacency.Exact g'.adjacencyIn EdgeSlot.inEnds g'.edgeAt gone' out')
    (hund : Adjacency.Exact g'.adjacencyUndirected EdgeSlot.undirectedEnds g'.edgeAt gone' out') :
    Derived g' gone' out' := by
  have hpayload := edgePayload_eq_update c.edgeAt
  have hnodes := nodeAt_congr c.nodeStore
  have hnpayload : g'.nodePayload = g.nodePayload := by
    funext r
    rw [nodePayload, hnodes, nodePayload]
  -- a live edge is the new one or an old one
  have hlive : ∀ r e, g'.edgeAt r = some e → r = row ∧ new = some e ∨ g.edgeAt r = some e := by
    intro r e he
    rw [c.edgeAt] at he
    by_cases hr : r = row
    · subst hr
      rw [update_self] at he
      exact .inl ⟨rfl, he⟩
    · rw [update_of_ne hr] at he
      exact .inr he
  exact {
    nodeRows := by rw [c.nodeRows, c.nodeStore]; exact h.nodeRows
    edgeRows := c.edgeRows
    labels := by rw [c.nodeLabels, hnodes]; exact h.labels
    edgeLabels := by
      intro label r
      rw [c.labels, c.edgeAt]
      by_cases hr : r = row
      · subst hr; simp
      · rw [if_neg hr, update_of_ne hr]
        exact h.edgeLabels label r
    property := by rw [c.nodeProperty, hnpayload]; exact h.property
    edgeProperty := by rw [c.property, hpayload]; exact h.edgeProperty.update _
    composite := by rw [c.composite, hnpayload]; exact h.composite
    vector := by rw [c.vector, hnpayload]; exact h.vector
    text := by rw [c.text, hnodes]; exact h.text
    stableIds := by
      intro r e he
      rcases hlive r e he with ⟨-, hnew⟩ | hold
      · exact c.stable e hnew
      · exact h.stableIds r e hold
    canonical := by
      intro r e he
      rcases hlive r e he with ⟨-, hnew⟩ | hold
      · exact c.canonical e hnew
      · exact h.canonical r e hold
    outgoing := hout
    incoming := hin
    undirected := hund }

/-! ## Changes of a node -/

section Node

variable {id : NodeId} {row : Row} {s : NodeSlot} {labels : LabelSet} {props : PropertyMap}

section

variable (h : Derived g gone out)
include h

section

variable (hrow : g.nodeRows id = some row)
include hrow

theorem Derived.live_node (hs : g.nodeAt row = some s) :
    id ≠ tombstone ∧ s.id = id ∧ ∀ r s', g.nodeAt r = some s' → (s'.id = id ↔ r = row) := by
  obtain ⟨hne, s0, hs0, hid⟩ := (h.nodeRows id row).1 hrow
  obtain rfl := mem_unique hs0 (g.nodeAt_eq_some.1 hs).1
  refine ⟨hne, hid, fun r s' hs' => ⟨fun he => ?_, ?_⟩⟩
  · exact nodeRow_unique h.nodeRows hs' hs (he ▸ hne) (he.trans hid.symm)
  · rintro rfl
    rw [mem_unique hs' hs, hid]

omit hrow in
theorem nodeChange_created (hid : id ≠ tombstone) (hfresh : ∀ s ∈ g.nodeStore, s.id ≠ id)
    (hadm : VectorIndex.Admitted g.vectorIndex none (some (labels, props))) :
    NodeChange g (createdNode g id labels props) id g.nodeStore.length
      (some ⟨id, labels, props, true⟩) := by
  have hnone : g.nodePayload g.nodeStore.length = none := by
    rw [nodePayload, g.nodeAt_eq_none le_rfl]
    rfl
  exact {
    stable := hid
    ids := by
      intro r s hs
      have hr := (g.nodeAt_eq_some.1 hs).1
      refine ⟨fun he => absurd he (hfresh s (mem_of_getElem? hr)), ?_⟩
      rintro rfl
      rw [getElem?_eq_none le_rfl] at hr
      cases hr
    newId := by rintro s ⟨⟩; rfl
    nodeAt := nodeAt_append rfl rfl
    nodeRows := h.nodeRows.append (s := (⟨id, labels, props, true⟩ : NodeSlot)) hid hfresh
    labels := by
      intro label r
      refine (mem_insertIndexRows _ _ _ _ _).trans ?_
      rw [Std.ExtTreeSet.mem_toList]
      by_cases hr : r = g.nodeStore.length
      · subst hr
        have hnot : g.nodeStore.length ∉ g.idxLabel label := by
          rw [h.labels, g.nodeAt_eq_none le_rfl]
          simp
        simp [hnot]
      · simp [hr]
    property := by rw [hnone]; exact PropertyIndex.applyNodeCreate_apply ..
    composite := by rw [hnone]; exact CompositeIndex.applyNodeCreate_apply ..
    admitted := by rw [hnone]; exact hadm
    vector := by rw [hnone]; rfl
    text := by rw [hnone]; exact TextIndex.applyNodeCreate_apply ..
    edgeStore := rfl
    edgeRows := rfl
    edgeLabels := rfl
    edgeProperty := rfl }

theorem nodeChange_updated (hs : g.nodeAt row = some s)
    (hadm : VectorIndex.Admitted g.vectorIndex (some (s.labels, s.properties)) (some (labels, props)))
    {idx : DbString → Finset Row}
    (hidx : ∀ label r, r ∈ idx label ↔ if r = row then label ∈ labels else r ∈ g.idxLabel label) :
    NodeChange g (updatedNode g id row s labels props idx) id row
      (some { s with labels, properties := props }) := by
  have hsome : g.nodePayload row = some (s.labels, s.properties) := by
    rw [nodePayload, hs]
    rfl
  obtain ⟨hne, hid, hids⟩ := h.live_node hrow hs
  exact {
    stable := hne
    ids := hids
    newId := by rintro s' ⟨⟩; exact hid
    nodeAt := by
      refine (nodeAt_modify rfl hs).trans ?_
      simp [Option.filter, (g.nodeAt_eq_some.1 hs).2]
    nodeRows := h.nodeRows.modify row fun _ => rfl
    labels := by
      intro label r
      refine (hidx label r).trans ?_
      simp
    property := by rw [hsome]; rfl
    composite := by rw [hsome]; rfl
    admitted := by rw [hsome]; exact hadm
    vector := by rw [hsome]; rfl
    text := by rw [hsome]; rfl
    edgeStore := rfl
    edgeRows := rfl
    edgeLabels := rfl
    edgeProperty := rfl }

theorem nodeChange_removed (hs : g.nodeAt row = some s)
    (hadm : VectorIndex.Admitted g.vectorIndex (some (s.labels, s.properties)) none) :
    NodeChange g (removedNode g id row s) id row none := by
  have hsome : g.nodePayload row = some (s.labels, s.properties) := by
    rw [nodePayload, hs]
    rfl
  obtain ⟨hne, hid, hids⟩ := h.live_node hrow hs
  exact {
    stable := hne
    ids := hids
    newId := by rintro s' ⟨⟩
    nodeAt := (nodeAt_modify rfl hs).trans rfl
    nodeRows := h.nodeRows.modify row fun _ => rfl
    labels := by
      intro label r
      refine (mem_removeIndexRows _ _ _ _ _).trans ?_
      rw [Std.ExtTreeSet.mem_toList]
      by_cases hr : r = row
      · subst hr; simp [h.labels, hs]
      · simp [hr]
    property := by rw [hsome]; rfl
    composite := by rw [hsome]; rfl
    admitted := by rw [hsome]; exact hadm
    vector := by rw [hsome]; rfl
    text := by rw [hsome]; rfl
    edgeStore := rfl
    edgeRows := rfl
    edgeLabels := rfl
    edgeProperty := rfl }

omit hrow in
omit h in
theorem Derived.created (h : Derived g ∅ ∅) (hid : id ≠ tombstone)
    (hfresh : ∀ s ∈ g.nodeStore, s.id ≠ id)
    (hadm : VectorIndex.Admitted g.vectorIndex none (some (labels, props))) :
    Derived (createdNode g id labels props) ∅ ∅ :=
  h.changeNode (nodeChange_created h hid hfresh hadm) h.outgoing h.incoming h.undirected

theorem Derived.updated (hs : g.nodeAt row = some s)
    (hadm : VectorIndex.Admitted g.vectorIndex (some (s.labels, s.properties)) (some (labels, props)))
    {idx : DbString → Finset Row}
    (hidx : ∀ label r, r ∈ idx label ↔ if r = row then label ∈ labels else r ∈ g.idxLabel label) :
    Derived (updatedNode g id row s labels props idx) gone out :=
  h.changeNode (nodeChange_updated h hrow hs hadm hidx) h.outgoing h.incoming h.undirected

theorem Derived.removed (hs : g.nodeAt row = some s)
    (hadm : VectorIndex.Admitted g.vectorIndex (some (s.labels, s.properties)) none) :
    Derived (removedNode g id row s) (insert id gone) out :=
  h.changeNode (nodeChange_removed h hrow hs hadm) (h.outgoing.dropNode id) (h.incoming.dropNode id)
    (h.undirected.dropNode id)

end

end

end Node

/-! ## Changes of an edge -/

section Edge

variable {id : EdgeId} {row : Row} {e : EdgeSlot} {d : EdgeDirectionality} {label : DbString}
  {source target : NodeId} {props : PropertyMap}

theorem Derived.live_edge (h : Derived g gone out) (hrow : g.edgeRows id = some row)
    (he : g.edgeAt row = some e) : id ≠ tombstone ∧ e.id = id := by
  obtain ⟨hne, e0, he0, hid⟩ := (h.edgeRows id row).1 hrow
  obtain rfl := mem_unique he0 (g.edgeAt_eq_some.1 he).1
  exact ⟨hne, hid⟩

theorem Derived.distinctIds (h : Derived g gone out) : DistinctIds g.edgeAt :=
  distinctIds_of_rows h.edgeRows h.stableIds

theorem appendEdge_edgeStore : (appendEdge id d label source target props row g).edgeStore =
    g.edgeStore ++ [⟨id, d, label, source, target, props, true⟩] := by
  cases d <;> rfl

theorem edgeChange_created (label : DbString) (props : PropertyMap) (h : Derived g gone out)
    (hid : id ≠ tombstone) (hfresh : ∀ s ∈ g.edgeStore, s.id ≠ id)
    (hcanon : d = .undirected → source ≤ target) :
    EdgeChange g (appendEdge id d label source target props g.edgeStore.length g) g.edgeStore.length
      (some ⟨id, d, label, source, target, props, true⟩) := by
  have hnone : g.edgePayload g.edgeStore.length = none := by
    rw [edgePayload, g.edgeAt_eq_none le_rfl]
    rfl
  have hrows := h.edgeRows.append (s := (⟨id, d, label, source, target, props, true⟩ : EdgeSlot))
    hid hfresh
  have hproperty := PropertyIndex.applyEdgeCreate_apply g.edgeStore.length props label g.edgePropertyIndex
  have hlabels : ∀ l r, r ∈ insertIndexRow label g.edgeStore.length g.idxEdgeLabel l ↔
      if r = g.edgeStore.length then ∃ e, some (⟨id, d, label, source, target, props, true⟩ : EdgeSlot) =
        some e ∧ e.label = l else r ∈ g.idxEdgeLabel l := by
    intro l r
    have hmem := mem_insertIndexRows [label] g.edgeStore.length r g.idxEdgeLabel l
    refine hmem.trans ?_
    by_cases hr : r = g.edgeStore.length
    · subst hr
      have hnot : g.edgeStore.length ∉ g.idxEdgeLabel l := by
        rw [h.edgeLabels, g.edgeAt_eq_none le_rfl]
        simp
      simp [hnot, eq_comm]
    · simp [hr]
  rw [← hnone] at hproperty
  cases d <;> exact {
    edgeAt := edgeAt_append rfl rfl
    edgeRows := hrows
    stable := by rintro e ⟨⟩; exact hid
    canonical := by rintro e ⟨⟩ hd; exact hcanon hd
    labels := hlabels
    property := hproperty
    nodeStore := rfl
    nodeRows := rfl
    nodeLabels := rfl
    nodeProperty := rfl
    composite := rfl
    vector := rfl
    text := rfl }

theorem edgeChange_set (props : PropertyMap) (h : Derived g gone out) (he : g.edgeAt row = some e) :
    EdgeChange g (setEdgeProperties row e props g) row (some { e with properties := props }) := by
  have hsome : g.edgePayload row = some ({e.label}, e.properties) := by
    rw [edgePayload, he]
    rfl
  exact {
    edgeAt := by
      refine (edgeAt_modify rfl he).trans ?_
      simp [Option.filter, (g.edgeAt_eq_some.1 he).2]
    edgeRows := h.edgeRows.modify row fun _ => rfl
    stable := by rintro e' ⟨⟩; exact h.stableIds row e he
    canonical := by rintro e' ⟨⟩; exact h.canonical row e he
    labels := by
      intro l r
      by_cases hr : r = row
      · subst hr
        refine (h.edgeLabels l r).trans ?_
        simp [he]
      · rw [if_neg hr]
        rfl
    property := by rw [hsome]; exact PropertyIndex.applyEdgeUpdate_apply ..
    nodeStore := rfl
    nodeRows := rfl
    nodeLabels := rfl
    nodeProperty := rfl
    composite := rfl
    vector := rfl
    text := rfl }

section

variable (h : Derived g gone out)
include h

section

variable (he : g.edgeAt row = some e)
include he

theorem edgeChange_cleared : EdgeChange g (clearEdge row e g) row none := by
  have hsome : g.edgePayload row = some ({e.label}, e.properties) := by
    rw [edgePayload, he]
    rfl
  exact {
    edgeAt := (edgeAt_modify rfl he).trans rfl
    edgeRows := h.edgeRows.modify row fun _ => rfl
    stable := by rintro e' ⟨⟩
    canonical := by rintro e' ⟨⟩
    labels := by
      intro l r
      have hmem := mem_removeIndexRows [e.label] row r g.idxEdgeLabel l
      refine hmem.trans ?_
      by_cases hr : r = row
      · subst hr
        rw [h.edgeLabels]
        simp [he, eq_comm]
      · simp [hr]
    property := by rw [hsome]; exact PropertyIndex.applyEdgeDelete_apply ..
    nodeStore := rfl
    nodeRows := rfl
    nodeLabels := rfl
    nodeProperty := rfl
    composite := rfl
    vector := rfl
    text := rfl }

theorem Derived.edgeSet : Derived (setEdgeProperties row e props g) gone out := by
  have c := edgeChange_set props h he
  refine h.changeEdge c ?_ ?_ ?_ <;> rw [c.edgeAt]
  · exact h.outgoing.rewrite he rfl rfl
  · exact h.incoming.rewrite he rfl rfl
  · exact h.undirected.rewrite he rfl rfl

theorem Derived.edgeCleared (hout : e.id ∈ out) : Derived (clearEdge row e g) gone out := by
  have c := edgeChange_cleared h he
  refine h.changeEdge c ?_ ?_ ?_ <;> rw [c.edgeAt]
  · exact h.outgoing.clear he hout
  · exact h.incoming.clear he hout
  · exact h.undirected.clear he hout

theorem Derived.edgeDropped :
    Derived (dropAdjacency e.id e.source e.target (clearEdge row e g)) gone out := by
  have c := edgeChange_cleared h he
  have c' : EdgeChange g (dropAdjacency e.id e.source e.target (clearEdge row e g)) row none :=
    { c with }
  have hother : ∀ {n m : NodeId} (lists : NodeId → AdjacencyEntry), n ≠ m →
      removeEdgeFromAdjacency m e.id lists n = lists n := fun lists hn =>
    update_of_ne hn _ _
  have hself : ∀ (n : NodeId) (lists : NodeId → AdjacencyEntry),
      removeEdgeFromAdjacency n e.id lists n = AdjacencyEntry.remove e.id (lists n) := fun n lists =>
    update_self ..
  refine h.changeEdge c' ?_ ?_ ?_ <;> rw [c'.edgeAt]
  · refine h.outgoing.drop isEnds_out h.distinctIds he fun n => ?_
    by_cases hn : n = e.source
    · subst hn
      exact .inl (hself _ _)
    · refine .inr ⟨fun a ha => ?_, hother _ hn⟩
      unfold EdgeSlot.outEnds at ha
      split at ha <;> simp [hn] at ha
  · refine h.incoming.drop isEnds_in h.distinctIds he fun n => ?_
    by_cases hn : n = e.target
    · subst hn
      exact .inl (hself _ _)
    · refine .inr ⟨fun a ha => ?_, hother _ hn⟩
      unfold EdgeSlot.inEnds at ha
      split at ha <;> simp [hn] at ha
  · refine h.undirected.drop isEnds_undirected h.distinctIds he fun n => ?_
    have hlists : (dropAdjacency e.id e.source e.target (clearEdge row e g)).adjacencyUndirected =
        if e.source = e.target then removeEdgeFromAdjacency e.source e.id g.adjacencyUndirected
        else removeEdgeFromAdjacency e.target e.id
          (removeEdgeFromAdjacency e.source e.id g.adjacencyUndirected) := rfl
    rw [hlists]
    by_cases hn : n = e.source ∨ n = e.target
    · left
      by_cases hl : e.source = e.target
      · rw [if_pos hl]
        rcases hn with rfl | rfl
        · exact hself _ _
        · rw [← hl]; exact hself _ _
      · rw [if_neg hl]
        rcases hn with rfl | rfl
        · rw [hother _ hl, hself]
        · rw [hself, hother _ (Ne.symm hl)]
    · push Not at hn
      refine .inr ⟨fun a ha => ?_, ?_⟩
      · obtain ⟨-, ⟨hs, -⟩ | ⟨ht, -⟩⟩ := mem_undirectedEnds.1 ha
        · exact hn.1 hs
        · exact hn.2 ht
      · split
        · exact hother _ hn.1
        · rw [hother _ hn.2, hother _ hn.1]

end

end

theorem Derived.edgeCreated (h : Derived g ∅ ∅) (hid : id ≠ tombstone)
    (hfresh : ∀ s ∈ g.edgeStore, s.id ≠ id) (hcanon : d = .undirected → source ≤ target) :
    Derived (appendEdge id d label source target props g.edgeStore.length g) ∅ ∅ := by
  have c := edgeChange_created label props h hid hfresh hcanon
  have hnone : g.edgeAt g.edgeStore.length = none := g.edgeAt_eq_none le_rfl
  have hnew : ∀ r e', g.edgeAt r = some e' → e'.id ≠ id := fun r e' he' =>
    hfresh e' (mem_of_getElem? (g.edgeAt_eq_some.1 he').1)
  refine h.changeEdge c ?_ ?_ ?_ <;> rw [c.edgeAt]
  · refine h.outgoing.add isEnds_out hnone hnew fun n => ?_
    cases d with
    | directed =>
      by_cases hn : n = source
      · subst hn
        exact .inl ⟨_, mem_singleton.2 rfl, update_self ..⟩
      · exact .inr ⟨by simp [EdgeSlot.outEnds, hn], update_of_ne hn _ _⟩
    | undirected => exact .inr ⟨by simp [EdgeSlot.outEnds], rfl⟩
  · refine h.incoming.add isEnds_in hnone hnew fun n => ?_
    cases d with
    | directed =>
      by_cases hn : n = target
      · subst hn
        exact .inl ⟨_, mem_singleton.2 rfl, update_self ..⟩
      · exact .inr ⟨by simp [EdgeSlot.inEnds, hn], update_of_ne hn _ _⟩
    | undirected => exact .inr ⟨by simp [EdgeSlot.inEnds], rfl⟩
  · refine h.undirected.add isEnds_undirected hnone hnew fun n => ?_
    cases d with
    | directed => exact .inr ⟨by simp [EdgeSlot.undirectedEnds], rfl⟩
    | undirected =>
      -- a loop is listed once at its node, another edge at both ends
      by_cases hl : source = target
      · subst hl
        by_cases hn : n = source
        · subst hn
          refine .inl ⟨⟨label, n, id⟩, mem_undirectedEnds.2 ⟨rfl, .inl ⟨rfl, rfl⟩⟩, ?_⟩
          simp [appendEdge, addAdjacency]
        · refine .inr ⟨fun a ha => ?_, ?_⟩
          · obtain ⟨-, ⟨hs, -⟩ | ⟨ht, -⟩⟩ := mem_undirectedEnds.1 ha
            · exact hn hs
            · exact hn ht
          · simp [appendEdge, addAdjacency, hn]
      · by_cases hs : n = source
        · subst hs
          refine .inl ⟨⟨label, target, id⟩, mem_undirectedEnds.2 ⟨rfl, .inl ⟨rfl, rfl⟩⟩, ?_⟩
          simp [appendEdge, addAdjacency, hl]
        · by_cases ht : n = target
          · subst ht
            refine .inl ⟨⟨label, source, id⟩, mem_undirectedEnds.2 ⟨rfl, .inr ⟨rfl, rfl⟩⟩, ?_⟩
            simp [appendEdge, addAdjacency, hl, hs]
          · refine .inr ⟨fun a ha => ?_, ?_⟩
            · obtain ⟨-, ⟨hs', -⟩ | ⟨ht', -⟩⟩ := mem_undirectedEnds.1 ha
              · exact hs hs'
              · exact ht ht'
            · simp [appendEdge, addAdjacency, hl, hs, ht]

end Edge

end Selene.Graph
