import Selene.Proof.Effects

/-!
# Validation of the changes is validation of the graph

A commit to a closed graph checks the elements its changes mention, and the edges at relabelled
nodes, against the bound type. `validated_commit_conforms`: when the graph conformed before, that is
enough for every live element of the new graph to conform. What a type demands is stated here
without the validator's order of search; `validateNodeState_sound` and `validateEdgeState_sound`
tie the two.
-/

namespace Selene.Graph

open Attempt Function List Option SeleneGraph SharedGraph DataOperation

variable {g g' g₀ : SeleneGraph} {t t' : WriteTxn} {type : GraphTypeDef}

variable {c : Change} {declaredIn : DbString} {e : EdgeSlot} {entity : EntityId}
  {declarations : List PropertyTypeDef} {w : List TypeWarning} {id : NodeId} {mode : ValidationMode} {i : ℕ}

/-! ## Conformance -/

/-- What a type demands of the properties of an element. -/
structure PropertiesConform (declarations : List PropertyTypeDef) (mode : ValidationMode)
    (props : PropertyMap) : Prop where
  declared : ∀ key v, props[key]? = some v →
    (∃ d ∈ declarations, d.name = key ∧ (∀ type payload, v ≠ .extended type payload) ∧
      (v.isNull = true ∧ d.required = false ∨ d.matchesValue v = true)) ∨
    mode = .warn ∧ ∀ d ∈ declarations, d.name ≠ key
  required : ∀ d ∈ declarations, d.required = true →
    ∃ v, props[d.name]? = some v ∧ v.isNull = false

section

variable (type : GraphTypeDef)

def NodeConforms (s : NodeSlot) : Prop :=
  ∃ t ∈ type.nodeTypes, t.keyLabels = s.labels ∧
    PropertiesConform t.properties t.validationMode s.properties

/-- The node type at an index has the label set. -/
def HasNodeType (labels : LabelSet) (index : ℕ) : Prop :=
  ∃ t, type.nodeTypes[index]? = some t ∧ t.keyLabels = labels

/-- The endpoint declaration allows the node types, for an undirected edge in either order. -/
def EdgeTypeDef.Allows (t : EdgeTypeDef) (d : EdgeDirectionality) (source target : ℕ) : Prop :=
  t.sourceNodeType.matchesNodeType source = true ∧ t.targetNodeType.matchesNodeType target = true ∨
    d = .undirected ∧ t.sourceNodeType.matchesNodeType target = true ∧
      t.targetNodeType.matchesNodeType source = true

/-- An edge between nodes with the two label sets conforms. -/
def EdgeShape (source target : LabelSet) (e : EdgeSlot) : Prop :=
  ∃ i j, HasNodeType type source i ∧ HasNodeType type target j ∧
    ∃ t ∈ type.edgeTypes, t.label = e.label ∧ t.Allows e.directionality i j ∧
      PropertiesConform t.properties t.validationMode e.properties

def EdgeConforms (g : SeleneGraph) (e : EdgeSlot) : Prop :=
  ∃ source target, g.node e.source = some source ∧ g.node e.target = some target ∧
    EdgeShape type source.labels target.labels e

end

/-- Every live element conforms to the type. -/
structure Conforms (g : SeleneGraph) (type : GraphTypeDef) : Prop where
  nodes : ∀ id s, g.node id = some s → NodeConforms type s
  edges : ∀ id e, g.edge id = some e → EdgeConforms type g e

/-! ## The validator -/

theorem validateProperty_sound {key : DbString} {v : Value}
    (h : validateProperty entity declaredIn mode declarations (key, v) = .ok w) :
    (∃ d ∈ declarations, d.name = key ∧ (∀ type payload, v ≠ .extended type payload) ∧
      (v.isNull = true ∧ d.required = false ∨ d.matchesValue v = true)) ∨
    mode = .warn ∧ ∀ d ∈ declarations, d.name ≠ key := by
  unfold validateProperty at h
  split at h
  · next hfind =>
    refine .inr ⟨?_, fun d hd hname => ?_⟩
    · by_contra hmode
      rw [if_neg hmode] at h
      cases h
    · have := find?_eq_none.1 hfind d hd
      simp [hname] at this
  · next d hfind =>
    have hname : d.name = key := by simpa using find?_some hfind
    refine .inl ⟨d, mem_of_find?_eq_some hfind, hname, ?_⟩
    dsimp only at h
    split at h
    · cases h
    · refine ⟨nofun, .inl ⟨rfl, ?_⟩⟩
      split at h
      · cases h
      · next hreq => simpa using hreq
    · next hext _ =>
      refine ⟨hext, .inr ?_⟩
      split at h
      · assumption
      · cases h

theorem validateEntries_sound {entries : List (DbString × Value)}
    (h : validateEntries entity declaredIn mode declarations entries = .ok w) :
    ∀ entry ∈ entries, ∃ w', validateProperty entity declaredIn mode declarations entry = .ok w' := by
  induction entries generalizing w with
  | nil => simp
  | cons entry rest ih =>
    obtain ⟨w', hhead, h⟩ := except_bind_ok.1 h
    obtain ⟨w'', hrest, -⟩ := except_bind_ok.1 h
    exact forall_mem_cons.2 ⟨⟨w', hhead⟩, ih hrest⟩

theorem validateProperties_sound {props : PropertyMap}
    (h : validateProperties entity declaredIn mode declarations props = .ok w) :
    PropertiesConform declarations mode props := by
  obtain ⟨w', hentries, h⟩ := except_bind_ok.1 h
  obtain ⟨⟨⟩, hrequired, -⟩ := except_bind_ok.1 h
  constructor
  · intro key v hv
    obtain ⟨w'', hw⟩ := validateEntries_sound hentries (key, v)
      (Std.ExtTreeMap.mem_toList_iff_getElem?_eq_some.2 hv)
    exact validateProperty_sound hw
  · intro d hd hreq
    have hone := except_forM_ok.1 hrequired d (mem_filter.2 ⟨hd, hreq⟩)
    split at hone
    · cases hone
    · next hsome =>
      rw [isNone_iff_eq_none] at hsome
      obtain ⟨v, hv⟩ := ne_none_iff_exists'.1 hsome
      obtain ⟨hget, hnull⟩ := filter_eq_some_iff.1 hv
      exact ⟨v, hget, by simpa using hnull⟩

theorem findNodeTypeIndex_sound {labels : LabelSet}
    (h : type.findNodeTypeIndex labels = some i) : HasNodeType type labels i := by
  obtain ⟨hidx, -⟩ := filter_eq_some_iff.1 h
  obtain ⟨hi, hkey, -⟩ := findIdx?_eq_some_iff_getElem.1 hidx
  exact ⟨type.nodeTypes[i], getElem?_eq_getElem hi, by simpa using hkey⟩

theorem validateNodeState_sound {s : NodeSlot}
    (hs : g.node id = some s) (h : validateNodeState id g type = .ok (i, w)) :
    NodeConforms type s ∧ HasNodeType type s.labels i := by
  unfold validateNodeState at h
  have hlabels : (g.nodeLabels id).getD ∅ = s.labels := by rw [nodeLabels, hs]; rfl
  have hprops : (g.nodeProperties id).getD ∅ = s.properties := by
    rw [nodeProperties, hs]; rfl
  rw [hlabels, hprops] at h
  dsimp only at h
  cases hfind : type.findNodeTypeIndex s.labels with
  | none =>
    rw [hfind] at h
    cases h
  | some index =>
    rw [hfind] at h
    obtain ⟨t, ht, hkey⟩ := findNodeTypeIndex_sound hfind
    dsimp only at h
    rw [ht] at h
    obtain ⟨w', hvalid, h⟩ := except_bind_ok.1 h
    cases h
    exact ⟨⟨t, mem_of_getElem? ht, hkey, validateProperties_sound hvalid⟩, t, ht, hkey⟩

theorem findMixedEdgeType_sound {label : DbString} {j : ℕ} {d : EdgeDirectionality} {t : EdgeTypeDef}
    (h : type.findMixedEdgeType label i j d = some t) :
    t ∈ type.edgeTypes ∧ t.label = label ∧ t.Allows d i j := by
  cases d with
  | directed =>
    have hfound := find?_some h
    simp only [Bool.and_eq_true, beq_iff_eq] at hfound
    exact ⟨mem_of_find?_eq_some h, hfound.1.1, .inl ⟨hfound.1.2, hfound.2⟩⟩
  | undirected =>
    unfold GraphTypeDef.findMixedEdgeType at h
    dsimp only at h
    split at h
    · next t' hfilter =>
      cases h
      have hmem : t ∈ [t] := mem_singleton_self t
      rw [← hfilter, mem_filter] at hmem
      obtain ⟨hmem, hfound⟩ := hmem
      simp only [Bool.and_eq_true, Bool.or_eq_true, beq_iff_eq] at hfound
      refine ⟨hmem, hfound.1, ?_⟩
      rcases hfound.2 with ⟨hs, ht⟩ | ⟨hs, ht⟩
      · exact .inl ⟨hs, ht⟩
      · exact .inr ⟨rfl, hs, ht⟩
    · cases h

theorem validateEdgeState_sound {id : EdgeId} {source target : NodeSlot}
    {r : EdgeTypeDef × List TypeWarning} (he : g.edge id = some e)
    (hsource : g.node e.source = some source) (htarget : g.node e.target = some target)
    (h : validateEdgeState id g type = .ok r) : EdgeConforms type g e := by
  refine ⟨source, target, hsource, htarget, ?_⟩
  unfold validateEdgeState at h
  rw [he] at h
  obtain ⟨⟨t, w⟩, hends, h⟩ := except_bind_ok.1 h
  obtain ⟨w', hvalid, -⟩ := except_bind_ok.1 h
  obtain ⟨⟨i, wi⟩, hi, hends⟩ := except_bind_ok.1 hends
  obtain ⟨⟨j, wj⟩, hj, hends⟩ := except_bind_ok.1 hends
  refine ⟨i, j, (validateNodeState_sound hsource hi).2, (validateNodeState_sound htarget hj).2, ?_⟩
  dsimp only at hends
  cases hfind : type.findMixedEdgeType e.label i j e.directionality with
  | none =>
    rw [hfind] at hends
    dsimp only at hends
    split at hends <;> cases hends
  | some t' =>
    rw [hfind] at hends
    cases hends
    obtain ⟨hmem, hlabel, hallows⟩ := findMixedEdgeType_sound hfind
    exact ⟨t, hmem, hlabel, hallows, validateProperties_sound hvalid⟩

/-! ## One change -/

theorem validateEdges_ok {ids : List EdgeId}
    (h : validateEdges g type ids = .ok w) : ∀ id ∈ ids, ∃ r, validateEdgeState id g type = .ok r := by
  induction ids generalizing w with
  | nil => simp
  | cons id rest ih =>
    obtain ⟨r, hhead, h⟩ := except_bind_ok.1 h
    obtain ⟨w', hrest, -⟩ := except_bind_ok.1 h
    exact forall_mem_cons.2 ⟨⟨r, hhead⟩, ih hrest⟩

theorem revalidateIncidentEdges_ok (hd : Derived g ∅ ∅) {n : NodeId}
    (h : revalidateIncidentEdges n g type = .ok w) {id : EdgeId}
    (he : g.edge id = some e) (hend : e.endsAt n = true) :
    ∃ r, validateEdgeState id g type = .ok r := by
  obtain ⟨out, hout, h⟩ := except_bind_ok.1 h
  obtain ⟨into, hinto, h⟩ := except_bind_ok.1 h
  obtain ⟨both, hboth, -⟩ := except_bind_ok.1 h
  have halive : g.isEdgeAlive id = true := by rw [isEdgeAlive, he]; rfl
  obtain ⟨rfl, row, hat⟩ := hd.liveEdge_iff.1 (edge_eq_some.1 he)
  obtain ⟨a, ha | ha | ha⟩ := mem_ends_of_endsAt hend
  · have hmem := (hd.outgoing.mem n a).2 ⟨Set.notMem_empty _, row, e, hat, Set.notMem_empty _, ha⟩
    rw [← isEnds_out.edgeId ha] at halive ⊢
    exact validateEdges_ok hout _ (mem_filter.2 ⟨mem_map_of_mem hmem, halive⟩)
  · have hmem := (hd.incoming.mem n a).2 ⟨Set.notMem_empty _, row, e, hat, Set.notMem_empty _, ha⟩
    rw [← isEnds_in.edgeId ha] at halive ⊢
    exact validateEdges_ok hinto _ (mem_filter.2 ⟨mem_map_of_mem hmem, halive⟩)
  · have hmem := (hd.undirected.mem n a).2 ⟨Set.notMem_empty _, row, e, hat, Set.notMem_empty _, ha⟩
    rw [← isEnds_undirected.edgeId ha]
    exact validateEdges_ok hboth _ (mem_map_of_mem hmem)

section

variable (h : validateChange c g type = .ok w)
include h

theorem validateChange_node (hc : c.written = some (.node id))
    (halive : g.isNodeAlive id = true) : ∃ r, validateNodeState id g type = .ok r := by
  cases c with
  | nodeCreated | nodeUpdated | nodePropertyRemoved | nodeLabelRemoved =>
    cases hc
    unfold validateChange at h
    simp only [halive, if_true] at h
    obtain ⟨r, hr, -⟩ := except_bind_ok.1 h
    exact ⟨r, hr⟩
  | _ => cases hc

theorem validateChange_edge {id : EdgeId} (hc : c.written = some (.edge id))
    (halive : g.isEdgeAlive id = true) : ∃ r, validateEdgeState id g type = .ok r := by
  cases c with
  | edgeCreated | edgeUpdated | edgePropertyRemoved =>
    cases hc
    unfold validateChange at h
    simp only [halive, if_true] at h
    obtain ⟨r, hr, -⟩ := except_bind_ok.1 h
    exact ⟨r, hr⟩
  | _ => cases hc

theorem validateChange_relabelled (hc : c.relabelled = some id)
    (halive : g.isNodeAlive id = true) : ∃ w', revalidateIncidentEdges id g type = .ok w' := by
  cases c with
  | nodeUpdated n labelsDiff diff =>
    have hdiff : ¬ (labelsDiff.added = [] ∧ labelsDiff.removed = []) := by
      intro hdiff
      simp [Change.relabelled, hdiff] at hc
    obtain rfl : n = id := by simpa [Change.relabelled, hdiff] using hc
    unfold validateChange at h
    simp only [halive, if_true, if_neg hdiff] at h
    obtain ⟨r, -, h⟩ := except_bind_ok.1 h
    split at h
    · obtain ⟨⟨⟩, -, h⟩ := except_bind_ok.1 h
      obtain ⟨w', hw', -⟩ := except_bind_ok.1 h
      exact ⟨w', hw'⟩
    · obtain ⟨⟨⟩, -, h⟩ := except_bind_ok.1 h
      obtain ⟨w', hw', -⟩ := except_bind_ok.1 h
      exact ⟨w', hw'⟩
  | nodeLabelRemoved n label =>
    cases hc
    unfold validateChange at h
    simp only [halive, if_true] at h
    obtain ⟨r, -, h⟩ := except_bind_ok.1 h
    obtain ⟨w', hw', -⟩ := except_bind_ok.1 h
    exact ⟨w', hw'⟩
  | _ => cases hc

end

/-! ## What the changes miss -/

/-- A transaction that began on `g₀`: an element no change writes is as it was, and an edge whose
endpoints no change relabels has endpoints with the labels they had. -/
structure Tracked (g₀ : SeleneGraph) (t : WriteTxn) : Prop where
  anchored : ∀ id e n, t.graph.edge id = some e → e.endsAt n = true → t.graph.node n ≠ none
  nodes : ∀ id s, t.graph.node id = some s →
    g₀.node id = some s ∨ ∃ c ∈ t.changes, c.written = some (.node id)
  edges : ∀ id e, t.graph.edge id = some e →
    g₀.edge id = some e ∧ (∀ n, e.endsAt n = true →
      (∃ s s', g₀.node n = some s ∧ t.graph.node n = some s' ∧ s.labels = s'.labels) ∨
        ∃ c ∈ t.changes, c.relabelled = some n) ∨
    ∃ c ∈ t.changes, c.written = some (.edge id)

namespace Tracked

theorem logged_of_changes (h : t'.changes = t.changes ++ [c]) :
    (∀ {P : Change → Prop}, (∃ c ∈ t.changes, P c) → ∃ c ∈ t'.changes, P c) ∧ c ∈ t'.changes := by
  simp only [h, mem_append, mem_singleton, or_true, and_true]
  exact fun ⟨c', hc', hp⟩ => ⟨c', .inl hc', hp⟩

theorem refl (h : ∀ id e n, g₀.edge id = some e → e.endsAt n = true → g₀.node n ≠ none)
    (hg : t.graph = g₀) : Tracked g₀ t := by
  subst hg
  refine ⟨h, fun id s hs => .inl hs, fun id e he => .inl ⟨he, fun n hn => .inl ?_⟩⟩
  obtain ⟨s, hs⟩ := ne_none_iff_exists'.1 (h id e n he hn)
  exact ⟨s, s, hs, hs, rfl⟩

section

variable (h : Tracked g₀ t)
include h

theorem nodeWrite {s : NodeSlot} (hw : NodeWrite t t' id s c) : Tracked g₀ t' := by
  obtain ⟨hmono, hc⟩ := logged_of_changes hw.changes
  constructor
  · intro i e n he hn
    rw [hw.edges] at he
    rw [hw.nodes]
    by_cases hid : n = id
    · rw [hid, update_self]
      simp
    · rw [update_of_ne hid]
      exact h.anchored i e n he hn
  · intro n s' hs'
    by_cases hid : n = id
    · subst hid
      exact .inr ⟨c, hc, hw.written⟩
    · rw [hw.nodes, update_of_ne hid] at hs'
      exact (h.nodes n s' hs').imp_right hmono
  · intro i e he
    rw [hw.edges] at he
    rcases h.edges i e he with ⟨h₀, hends⟩ | hwritten
    · refine .inl ⟨h₀, fun n hn => ?_⟩
      rcases hends n hn with ⟨s₀, s1, hs0, hs1, heq⟩ | hre
      · by_cases hid : n = id
        · subst hid
          rcases hw.labels s1 hs1 with hlabels | hre
          · exact .inl ⟨s₀, s, hs0, by rw [hw.nodes, update_self], heq.trans hlabels⟩
          · exact .inr ⟨c, hc, hre⟩
        · exact .inl ⟨s₀, s1, hs0, by rw [hw.nodes, update_of_ne hid, hs1], heq⟩
      · exact .inr (hmono hre)
    · exact .inr (hmono hwritten)

theorem edgeWrite {id : EdgeId} (hw : EdgeWrite t t' id e c) : Tracked g₀ t' := by
  obtain ⟨hmono, hc⟩ := logged_of_changes hw.changes
  constructor
  · intro i e' n he' hn
    rw [hw.nodes]
    by_cases hid : i = id
    · rw [hw.edges, hid, update_self] at he'
      cases he'
      rcases hw.ends with ⟨old, hold, hsource, htarget⟩ | ⟨hsource, htarget⟩
      · refine h.anchored id old n hold ?_
        rwa [endsAt_iff, hsource, htarget, ← endsAt_iff]
      · rcases endsAt_iff.1 hn with rfl | rfl
        · exact hsource
        · exact htarget
    · rw [hw.edges, update_of_ne hid] at he'
      exact h.anchored i e' n he' hn
  · intro n s hs
    rw [hw.nodes] at hs
    exact (h.nodes n s hs).imp_right hmono
  · intro i e' he'
    by_cases hid : i = id
    · subst hid
      exact .inr ⟨c, hc, hw.written⟩
    · rw [hw.edges, update_of_ne hid] at he'
      rw [hw.nodes]
      exact (h.edges i e' he').imp
        (And.imp_right fun hends n hn => (hends n hn).imp_right hmono) hmono

theorem removal {node : NodeId → Prop} {edge : EdgeId → Prop} {ds : List Change}
    (hr : Removal t t' node edge ds) : Tracked g₀ t' := by
  have hmono : ∀ {P : Change → Prop}, (∃ c ∈ t.changes, P c) → ∃ c ∈ t'.changes, P c := by
    rintro P ⟨c', hc', hp⟩
    refine ⟨c', ?_, hp⟩
    rcases hr.recorded with ⟨hchanges, -⟩ | ⟨c, -, hchanges, -⟩
    · exact hchanges ▸ mem_append_left _ hc'
    · exact hchanges ▸ mem_append_left _ hc'
  -- an edge that stays has its endpoints
  have hstay : ∀ i e n s, t'.graph.edge i = some e → e.endsAt n = true → t.graph.node n = some s →
      t'.graph.node n = some s := by
    intro i e n s he hn hs
    obtain ⟨he, hnot⟩ := (hr.edges i e).1 he
    exact (hr.nodes n s).2 ⟨hs, fun hremoved => hnot (hr.cascade i e n he hremoved hn)⟩
  constructor
  · intro i e n he hn
    obtain ⟨s, hs⟩ := ne_none_iff_exists'.1 (h.anchored i e n ((hr.edges i e).1 he).1 hn)
    rw [hstay i e n s he hn hs]
    simp
  · intro n s hs
    exact (h.nodes n s ((hr.nodes n s).1 hs).1).imp_right hmono
  · intro i e he
    rcases h.edges i e ((hr.edges i e).1 he).1 with ⟨h₀, hends⟩ | hwritten
    · refine .inl ⟨h₀, fun n hn => ?_⟩
      rcases hends n hn with ⟨s, s', hs, hs', heq⟩ | hre
      · exact .inl ⟨s, s', hs, hstay i e n s' he hn hs', heq⟩
      · exact .inr (hmono hre)
    · exact .inr (hmono hwritten)

theorem effects (hsteps : Effects t t') : Tracked g₀ t' := by
  induction hsteps with
  | refl => exact h
  | tail _ hstep ih =>
    cases hstep with
    | node hw => exact ih.nodeWrite hw
    | edge hw => exact ih.edgeWrite hw
    | removal hr => exact ih.removal hr

end

end Tracked

/-! ## The commit -/

/-- The elements the changes miss conformed before, and have not moved. -/
theorem Tracked.conforms (h : Tracked g₀ t) (hd : Derived t.graph ∅ ∅) (h₀ : Conforms g₀ type)
    (hvalid : ∀ c ∈ t.changes, ∃ w, validateChange c t.graph type = .ok w) :
    Conforms t.graph type := by
  constructor
  · intro id s hs
    rcases h.nodes id s hs with hold | ⟨c, hc, hwritten⟩
    · exact h₀.nodes id s hold
    · obtain ⟨w, hw⟩ := hvalid c hc
      have halive : t.graph.isNodeAlive id = true := by rw [isNodeAlive, hs]; rfl
      obtain ⟨⟨i, w'⟩, hr⟩ := validateChange_node hw hwritten halive
      exact (validateNodeState_sound hs hr).1
  · intro id e he
    have hlive : ∀ n, e.endsAt n = true → ∃ s, t.graph.node n = some s :=
      fun n hn => ne_none_iff_exists'.1 (h.anchored id e n he hn)
    obtain ⟨source, hsource⟩ := hlive e.source (endsAt_iff.2 (.inl rfl))
    obtain ⟨target, htarget⟩ := hlive e.target (endsAt_iff.2 (.inr rfl))
    have hrelabelled : ∀ n, e.endsAt n = true → (∃ c ∈ t.changes, c.relabelled = some n) →
        EdgeConforms type t.graph e := by
      rintro n hn ⟨c, hc, hre⟩
      obtain ⟨w, hw⟩ := hvalid c hc
      obtain ⟨s, hs⟩ := hlive n hn
      have halive : t.graph.isNodeAlive n = true := by rw [isNodeAlive, hs]; rfl
      obtain ⟨w', hw'⟩ := validateChange_relabelled hw hre halive
      obtain ⟨r, hr⟩ := revalidateIncidentEdges_ok hd hw' he hn
      exact validateEdgeState_sound he hsource htarget hr
    rcases h.edges id e he with ⟨hold, hends⟩ | ⟨c, hc, hwritten⟩
    · -- no change writes the edge: its endpoints have their labels, or one was relabelled
      rcases hends e.source (endsAt_iff.2 (.inl rfl)) with ⟨s, s', hs, hs', hslabels⟩ | hre
      · rcases hends e.target (endsAt_iff.2 (.inr rfl)) with ⟨u, u', hu, hu', hulabels⟩ | hre
        · obtain ⟨s₀, u0, hs0, hu0, hshape⟩ := h₀.edges id e hold
          obtain rfl := mem_unique hs0 hs
          obtain rfl := mem_unique hu0 hu
          refine ⟨s', u', hs', hu', ?_⟩
          rwa [← hslabels, ← hulabels]
        · exact hrelabelled _ (endsAt_iff.2 (.inr rfl)) hre
      · exact hrelabelled _ (endsAt_iff.2 (.inl rfl)) hre
    · obtain ⟨w, hw⟩ := hvalid c hc
      have halive : t.graph.isEdgeAlive id = true := by rw [isEdgeAlive, he]; rfl
      obtain ⟨r, hr⟩ := validateChange_edge hw hwritten halive
      exact validateEdgeState_sound he hsource htarget hr

/-- **Commit validation is complete.** A graph that a run of transactions leaves conforms to a type;
data operations return on a working copy of it, and every change passes `validate_change` against
the working copy they end with. Then every live element of the working copy conforms. -/
theorem validated_commit_conforms (s₀ s : SharedGraph) (txns : List SharedGraph.Transaction)
    (h₀ : s₀.Intact) (hs : Transition.run step s₀ txns = some s)
    (type : GraphTypeDef) (hconforms : Conforms s.snapshot type) (ops : List DataOperation)
    (t : WriteTxn) (hrun : each run ops s.beginWrite = (.ok (), t))
    (hvalid : ∀ c ∈ t.changes, ∃ w, validateChange c t.graph type = .ok w) :
    Conforms t.graph type := by
  have hintact := Transition.run_invariant (I := SharedGraph.Intact) step_intact hs h₀
  obtain ⟨heffects, ht⟩ := each_run_effects
    ⟨assertIndexesConsistent_iff.1 hintact.consistent, hintact.floor⟩ hrun
  have htracked : Tracked s.snapshot s.beginWrite := by
    refine Tracked.refl (fun id e n he hn => ?_) rfl
    obtain ⟨source, target, hsource, htarget, -⟩ := hconforms.edges id e he
    rcases endsAt_iff.1 hn with rfl | rfl
    · simp [hsource]
    · simp [htarget]
  exact (htracked.effects heffects).conforms ht.derived hconforms hvalid

/-- Nodes `A`, `B` and `C`, and edges `K` from an `A` to a `B` or a `C`. -/
def sampleType : GraphTypeDef where
  name := "T"
  nodeTypes := [⟨"A", {"A"}, [], .strict⟩, ⟨"B", {"B"}, [], .strict⟩, ⟨"C", {"C"}, [], .strict⟩]
  edgeTypes := [⟨"K", "K", .nodeType 0, .oneOf [1, 2], [], .strict⟩]

/-- An `A`, a `B` and an edge between them. -/
def sampleTransaction : List DataOperation :=
  [.createNode {"A"} ∅, .createNode {"B"} ∅, .createMixedEdge "K" 1 2 .directed ∅]

/-- `B` becomes `C`. -/
def relabelling : List DataOperation :=
  [.updateNode 2 ⟨["C"], ["B"], by decide⟩ ⟨[], [], by decide, by decide⟩]

theorem exists_ok_of_all {ε α : Type} {changes : List Change} {f : Change → Except ε α}
    (h : changes.all (fun c => (f c).isOk) = true) : ∀ c ∈ changes, ∃ w, f c = .ok w := by
  intro c hc
  have hok := all_eq_true.1 h c hc
  cases hf : f c with
  | ok w => exact ⟨w, rfl⟩
  | error e =>
    rw [hf] at hok
    cases hok

theorem conforms_empty {type : GraphTypeDef} : Conforms empty type where
  nodes id s h := by cases h
  edges id e h := by cases h

/-- The edge that the second transaction does not mention ends at a relabelled node. -/
theorem validated_commit_conforms_of_relabelling :
    ∃ s t, Transition.run step ⟨.empty, ⟨1, 1⟩⟩ [⟨sampleTransaction, true⟩] = some s ∧
      each run relabelling s.beginWrite = (.ok (), t) ∧
      t.changes.length = 1 ∧ t.graph.isEdgeAlive 1 = true ∧
      (t.graph.nodeLabels 2).map (·.toList) = some ["C"] ∧ Conforms t.graph sampleType := by
  set t₁ := (each run sampleTransaction
    (beginWrite ⟨.empty, ⟨1, 1⟩⟩)).2 with ht₁
  have hrun₁ : each run sampleTransaction
      (beginWrite ⟨.empty, ⟨1, 1⟩⟩) = (.ok (), t₁) := eq_ok_of_isOk (by decide)
  have hstep : Transition.run step ⟨.empty, ⟨1, 1⟩⟩ [⟨sampleTransaction, true⟩] =
      some ⟨t₁.graph, t₁.allocator⟩ := by
    simp [Transition.run, step, hrun₁]
  have hconforms : Conforms t₁.graph sampleType :=
    validated_commit_conforms _ _ [] intact_empty rfl sampleType conforms_empty _ _ hrun₁
      (exists_ok_of_all (by decide))
  set t₂ := (each run relabelling
    (beginWrite ⟨t₁.graph, t₁.allocator⟩)).2 with ht₂
  have hrun₂ : each run relabelling
      (beginWrite ⟨t₁.graph, t₁.allocator⟩) = (.ok (), t₂) := eq_ok_of_isOk (by decide)
  refine ⟨_, t₂, hstep, hrun₂, by decide, by decide, by decide, ?_⟩
  exact validated_commit_conforms _ _ _ intact_empty hstep sampleType hconforms _ _ hrun₂
    (exists_ok_of_all (by decide))

end Selene.Graph
