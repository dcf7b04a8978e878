import Selene.Proof.IndexMaintenance
import Selene.Proof.Adjacency

/-!
# The derived state, read from the live rows

`assert_indexes_consistent` compares every derived structure with a fresh build. `Derived` says
the same directly, row by row: what each structure makes of the live node or edge in a row. The
two agree (`assertIndexesConsistent_iff`), and the data operations are proved against `Derived`.
-/

namespace Selene.Graph

open List Option SeleneGraph

namespace SeleneGraph

variable (g : SeleneGraph)

/-- Labels and properties of the live node in a row. -/
def nodePayload (row : Row) : Option Payload := (g.nodeAt row).map fun s => (s.labels, s.properties)

/-- An edge as the property indexes see it: a payload with one label. -/
def edgePayload (row : Row) : Option Payload := (g.edgeAt row).map fun e => ({e.label}, e.properties)

variable {row : Row}

theorem nodeAt_eq_none (h : g.nodeStore.length ≤ row) : g.nodeAt row = none := by
  rw [nodeAt, getElem?_eq_none h]
  rfl

theorem edgeAt_eq_none (h : g.edgeStore.length ≤ row) : g.edgeAt row = none := by
  rw [edgeAt, getElem?_eq_none h]
  rfl

theorem nodeAt_eq_some {s : NodeSlot} :
    g.nodeAt row = some s ↔ g.nodeStore[row]? = some s ∧ s.alive = true := by
  rw [nodeAt, filter_eq_some_iff]

theorem edgeAt_eq_some {e : EdgeSlot} :
    g.edgeAt row = some e ↔ g.edgeStore[row]? = some e ∧ e.alive = true := by
  rw [edgeAt, filter_eq_some_iff]

end SeleneGraph

/-- The id map of a store: stable ids and their rows. -/
def IdMap {σ : Type} (rows : ℕ → Option Row) (store : List σ) (id : σ → ℕ) : Prop :=
  ∀ i row, rows i = some row ↔ i ≠ tombstone ∧ ∃ s, store[row]? = some s ∧ id s = i

/-- **The derived state of a graph**, while the lists of the nodes `gone` are dropped and the edges
`out` are taken from the lists. Between operations both sets are empty. -/
structure Derived (g : SeleneGraph) (gone : Set NodeId) (out : Set EdgeId) : Prop where
  nodeRows : IdMap g.nodeRows g.nodeStore NodeSlot.id
  edgeRows : IdMap g.edgeRows g.edgeStore EdgeSlot.id
  labels : ∀ label row, row ∈ g.idxLabel label ↔ ∃ s, g.nodeAt row = some s ∧ label ∈ s.labels
  edgeLabels : ∀ label row, row ∈ g.idxEdgeLabel label ↔ ∃ e, g.edgeAt row = some e ∧ e.label = label
  property : PropertyIndex.Exact g.propertyIndex g.nodePayload
  edgeProperty : PropertyIndex.Exact g.edgePropertyIndex g.edgePayload
  composite : CompositeIndex.Exact g.compositePropertyIndex g.nodePayload
  vector : VectorIndex.Exact g.vectorIndex g.nodePayload
  text : ∀ key index, g.textIndex key = some index →
    (∀ row s, g.nodeAt row = some s → key.1 ∈ s.labels → s.id ≠ tombstone) ∧
      index.Exact key g.nodeAt
  stableIds : ∀ row e, g.edgeAt row = some e → e.id ≠ tombstone
  canonical : ∀ row e, g.edgeAt row = some e → e.directionality = .undirected → e.source ≤ e.target
  outgoing : Adjacency.Exact g.adjacencyOut EdgeSlot.outEnds g.edgeAt gone out
  incoming : Adjacency.Exact g.adjacencyIn EdgeSlot.inEnds g.edgeAt gone out
  undirected : Adjacency.Exact g.adjacencyUndirected EdgeSlot.undirectedEnds g.edgeAt gone out

variable {g : SeleneGraph}

/-! ## Property and composite indexes -/

theorem exact_iff_eq_build {κ : Type} {built : Index κ} {view : ℕ → Keying κ} (ix : Index κ)
    (hb : built.Exact view) :
    ix.drifted = built.drifted ∧ ix.buckets = built.buckets ↔ ix.Exact view := by
  constructor
  · rintro ⟨hd, hk⟩
    have : ix = built := by cases ix; cases built; simp_all
    rwa [this]
  · intro h
    rw [h.unique hb fun _ => rfl]
    exact ⟨rfl, rfl⟩

theorem propertyIndex_iff {σ : Type} (slots : Row → Option σ) (payload : σ → Payload) {n : ℕ}
    (hn : ∀ row, n ≤ row → slots row = none) (key : IndexKey) (entry : PropertyIndexEntry) :
    let built : PropertyIndexEntry := (List.range n).foldl (fun built row =>
      match (slots row).bind fun s => indexableValue (payload s).1 (payload s).2 key with
      | some value => built.insertCommit value row
      | none => built) (.new entry.index.kind)
    entry.driftedRows = built.driftedRows ∧ entry.index.rows = built.index.rows ↔
      entry.toIndex.Exact fun row =>
        TypedIndex.keying entry.index.kind (payloadValue key ((slots row).map payload)) := by
  refine exact_iff_eq_build entry.toIndex (Index.Exact.build_steps PropertyIndexEntry.toIndex
    (·.index.kind = entry.index.kind) (e := .new _) (fun e row h => ?_) rfl rfl fun row h => ?_)
  · rw [payloadValue, Option.bind_map]
    show _ ∧ _ = Index.insert (TypedIndex.keying _ ((slots row).bind fun s =>
      indexableValue (payload s).1 (payload s).2 key)) row _
    cases (slots row).bind fun s => indexableValue (payload s).1 (payload s).2 key with
    | none => exact ⟨h, rfl⟩
    | some v => exact ⟨(e.insertCommit_spec v row).1.trans h, h ▸ (e.insertCommit_spec v row).2⟩
  · rw [hn row h]; rfl

theorem propertyIndexes_iff : (∀ key entry, g.propertyIndex key = some entry →
    entry.driftedRows = (g.buildPropertyIndexLenient key entry.index.kind).driftedRows ∧
      entry.index.rows = (g.buildPropertyIndexLenient key entry.index.kind).index.rows) ↔
    PropertyIndex.Exact g.propertyIndex g.nodePayload :=
  forall₃_congr fun key entry _ => propertyIndex_iff g.nodeAt (fun s => (s.labels, s.properties))
    (fun _ => g.nodeAt_eq_none) key entry

theorem edgePropertyIndexes_iff : (∀ key entry, g.edgePropertyIndex key = some entry →
    entry.driftedRows = (g.buildEdgePropertyIndexLenient key entry.index.kind).driftedRows ∧
      entry.index.rows = (g.buildEdgePropertyIndexLenient key entry.index.kind).index.rows) ↔
    PropertyIndex.Exact g.edgePropertyIndex g.edgePayload :=
  forall₃_congr fun key entry _ => propertyIndex_iff g.edgeAt (fun s => ({s.label}, s.properties))
    (fun _ => g.edgeAt_eq_none) key entry

theorem compositePropertyIndexes_iff : (∀ key entry, g.compositePropertyIndex key = some entry →
    entry.driftedRows = (g.buildCompositePropertyIndexLenient key.1 entry.declaredProperties
        entry.kinds).driftedRows ∧
      entry.rows = (g.buildCompositePropertyIndexLenient key.1 entry.declaredProperties
        entry.kinds).rows) ↔ CompositeIndex.Exact g.compositePropertyIndex g.nodePayload := by
  refine forall₃_congr fun key entry _ => ?_
  refine exact_iff_eq_build entry.toIndex (Index.Exact.build_steps
    CompositePropertyIndexEntry.toIndex (·.kinds = entry.kinds) (e := .new _ _)
    (fun e row h => ?_) rfl rfl fun row h => ?_)
  · rw [nodePayload, payloadValues, Option.bind_map]
    show _ ∧ _ = Index.insert (CompositePropertyIndexEntry.keying _ ((g.nodeAt row).bind fun s =>
      indexableValues s.labels s.properties key.1 entry.declaredProperties)) row _
    cases (g.nodeAt row).bind fun s =>
      indexableValues s.labels s.properties key.1 entry.declaredProperties with
    | none => exact ⟨h, rfl⟩
    | some v => exact ⟨(e.replaceCommit_declared none (some v) row).1.trans h, h ▸ e.insertCommit_toIndex v row⟩
  · rw [nodePayload, g.nodeAt_eq_none h]; rfl

/-! ## Vector and text indexes, label bitmaps -/

theorem vectorIndexes_iff : (∀ key entry, g.vectorIndex key = some entry →
    entry.rows = g.buildVectorIndexLenient key entry) ↔ VectorIndex.Exact g.vectorIndex g.nodePayload := by
  refine forall₃_congr fun key entry _ => ?_
  rw [Finset.ext_iff]
  refine forall_congr' fun row => iff_congr Iff.rfl ?_
  rw [buildVectorIndexLenient, Finset.mem_filter, Finset.mem_range, Option.any_eq_true,
    nodePayload, payloadValue, Option.bind_map]
  have hok : ∀ v, (entry.admitValue v).isOk = true ↔ entry.admitValue v = .ok () := fun v => by
    cases entry.admitValue v <;> simp [Except.isOk, Except.toBool]
  simp only [hok]
  constructor
  · rintro ⟨-, v, hv⟩
    exact ⟨v, hv⟩
  · rintro ⟨v, hv, ha⟩
    refine ⟨?_, v, hv, ha⟩
    by_contra hr
    rw [g.nodeAt_eq_none (not_lt.1 hr)] at hv
    cases hv

/-- One row of `TextIndex::build`. -/
def textStep (g : SeleneGraph) (key : IndexKey) (index : TextIndex) (row : Row) : TextIndex :=
  match g.nodeAt row with
  | some s =>
    match indexableText s.labels s.properties key with
    | some text => index.insertDocument row s.id text
    | none => index
  | none => index

theorem buildTextIndex_exact (key : IndexKey) (tokenize : String → List String)
    (hids : ∀ r r' s s', g.nodeAt r = some s → g.nodeAt r' = some s' → key.1 ∈ s.labels →
      key.1 ∈ s'.labels → s.id = s'.id → r = r') :
    (g.buildTextIndex key tokenize).tokenize = tokenize ∧
      (g.buildTextIndex key tokenize).Exact key g.nodeAt := by
  -- by induction on the number of rows, for the nodes with the label among them
  let upTo (n : ℕ) : ℕ → Option NodeSlot := fun row =>
    if row < n then (g.nodeAt row).filter fun s => s.labels.contains key.1 else none
  let step := textStep g key
  have hbuild : ∀ n, ((List.range n).foldl step (.empty tokenize)).tokenize = tokenize ∧
      ((List.range n).foldl step (.empty tokenize)).Exact key (upTo n) := by
    intro n
    induction n with
    | zero =>
      refine ⟨rfl, ⟨fun row => ?_, fun node ts => ?_⟩⟩ <;> simp [upTo, TextIndex.empty]
    | succ n ih =>
      rw [range_succ, foldl_append, foldl_cons, foldl_nil]
      set index := (List.range n).foldl step (.empty tokenize)
      obtain ⟨htok, hex⟩ := ih
      have hlow : upTo n n = none := by simp [upTo]
      have hsucc : upTo (n + 1) = Function.update (upTo n) n
          ((g.nodeAt n).filter fun s => s.labels.contains key.1) := by
        funext r
        by_cases hr : r = n
        · subst hr; simp [upTo]
        · have : r < n + 1 ↔ r < n := by omega
          simp [upTo, hr, this]
      cases hs : (g.nodeAt n).filter fun s => s.labels.contains key.1 with
      | none =>
        have hstep : step index n = index := by
          simp only [step, textStep]
          cases hn : g.nodeAt n with
          | none => rfl
          | some s =>
            have hl : key.1 ∉ s.labels := by
              intro hl
              rw [hn] at hs
              simp [Option.filter] at hs
              exact hs hl
            simp [indexableText, hl]
        rw [hstep, hsucc, hs]
        refine ⟨htok, ?_⟩
        rwa [show Function.update (upTo n) n none = upTo n from
          Function.update_eq_self_iff.2 hlow.symm]
      | some s =>
        obtain ⟨hn, hl⟩ := filter_eq_some_iff.1 hs
        have hl : key.1 ∈ s.labels := by simpa using hl
        have hstep : step index n = index.replaceDocument none
            (indexableText s.labels s.properties key) n s.id := by
          simp only [step, textStep, hn]
          cases indexableText s.labels s.properties key <;> rfl
        have hrep := hex.replace n s.id (some s) ?_ ?_
        · rw [hlow] at hrep
          rw [hsucc, hs, hstep]
          exact ⟨by rw [TextIndex.replaceDocument_tokenize, htok], hrep⟩
        · intro r t ht
          simp only [upTo] at ht
          split at ht
          · next hr =>
            obtain ⟨ht, hlt⟩ := filter_eq_some_iff.1 ht
            constructor
            · intro hid
              exact absurd (hids r n t s ht hn (by simpa using hlt) hl hid) hr.ne
            · intro h
              exact absurd h hr.ne
          · cases ht
        · intro t ht
          rw [Option.some.inj ht]
  obtain ⟨htok, hex⟩ := hbuild g.nodeStore.length
  refine ⟨htok, ?_⟩
  -- the nodes without the label have no text
  have hnone : ∀ s : NodeSlot, key.1 ∉ s.labels → indexableText s.labels s.properties key = none := by
    intro s hl
    simp [indexableText, hl]
  have hview : ∀ row s, g.nodeAt row = some s → key.1 ∈ s.labels → upTo g.nodeStore.length row = some s := by
    intro row s hs hl
    have hr : row < g.nodeStore.length := by
      by_contra hr
      rw [g.nodeAt_eq_none (not_lt.1 hr)] at hs
      cases hs
    simp only [upTo, if_pos hr, hs]
    exact filter_eq_some_iff.2 ⟨rfl, by simpa using hl⟩
  have hback : ∀ row s, upTo g.nodeStore.length row = some s → g.nodeAt row = some s := by
    intro row s hs
    simp only [upTo] at hs
    split at hs
    · exact (filter_eq_some_iff.1 hs).1
    · cases hs
  have hlabel : ∀ {s : NodeSlot} {index : TextIndex},
      index.document (indexableText s.labels s.properties key) ≠ none → key.1 ∈ s.labels := by
    intro s index h
    by_contra hl
    rw [hnone s hl] at h
    exact h rfl
  constructor
  · intro row
    refine (hex.rows row).trans ⟨?_, ?_⟩
    · rintro ⟨s, hs, hd⟩
      exact ⟨s, hback row s hs, hd⟩
    · rintro ⟨s, hs, hd⟩
      exact ⟨s, hview row s hs (hlabel hd), hd⟩
  · intro node ts
    refine (hex.terms node ts).trans ⟨?_, ?_⟩
    · rintro ⟨row, s, hs, hid, hd⟩
      exact ⟨row, s, hback row s hs, hid, hd⟩
    · rintro ⟨row, s, hs, hid, hd⟩
      exact ⟨row, s, hview row s hs (hlabel (by rw [hd]; simp)), hid, hd⟩

theorem TextIndex.exact_iff {index built : TextIndex} {key : IndexKey} {nodes : Row → Option NodeSlot}
    (hb : built.Exact key nodes) (htok : built.tokenize = index.tokenize) :
    index.rows = built.rows ∧ index.documentTerms = built.documentTerms ↔ index.Exact key nodes := by
  have hdoc : ∀ text, built.document text = index.document text := fun text => by
    simp only [document, htok]
  constructor
  · rintro ⟨hr, ht⟩
    refine ⟨fun row => ?_, fun node ts => ?_⟩
    · rw [hr, hb.rows]
      simp only [hdoc]
    · rw [ht, hb.terms]
      simp only [hdoc]
  · intro h
    constructor
    · ext row
      rw [h.rows, hb.rows]
      simp only [hdoc]
    · funext node
      ext ts
      rw [h.terms, hb.terms]
      simp only [hdoc]

theorem labelIndex_iff : (∀ label, g.idxLabel label = g.labelRows label) ↔
    ∀ label row, row ∈ g.idxLabel label ↔ ∃ s, g.nodeAt row = some s ∧ label ∈ s.labels := by
  refine forall_congr' fun label => ?_
  rw [Finset.ext_iff]
  refine forall_congr' fun row => iff_congr Iff.rfl ?_
  rw [labelRows, Finset.mem_filter, Finset.mem_range, Option.any_eq_true]
  simp only [Std.ExtTreeSet.contains_iff_mem]
  refine and_iff_right_of_imp ?_
  rintro ⟨s, hs, -⟩
  by_contra hr
  rw [g.nodeAt_eq_none (not_lt.1 hr)] at hs
  cases hs

theorem edgeLabelIndex_iff : (∀ label, g.idxEdgeLabel label = g.edgeLabelRows label) ↔
    ∀ label row, row ∈ g.idxEdgeLabel label ↔ ∃ e, g.edgeAt row = some e ∧ e.label = label := by
  refine forall_congr' fun label => ?_
  rw [Finset.ext_iff]
  refine forall_congr' fun row => iff_congr Iff.rfl ?_
  rw [edgeLabelRows, Finset.mem_filter, Finset.mem_range, Option.any_eq_true]
  simp only [beq_iff_eq]
  refine and_iff_right_of_imp ?_
  rintro ⟨s, hs, -⟩
  by_contra hr
  rw [g.edgeAt_eq_none (not_lt.1 hr)] at hs
  cases hs

/-! ## Adjacency -/

section Adjacency

variable {ends : EdgeSlot → List (NodeId × AdjacencyEdge)}

/-- The entries of a node, row by row. -/
def SeleneGraph.entriesAt (g : SeleneGraph) (ends : EdgeSlot → List (NodeId × AdjacencyEdge))
    (node : NodeId) (row : Row) : List AdjacencyEdge :=
  match g.edgeAt row with
  | some e => (ends e).filterMap fun x => if x.1 = node then some x.2 else none
  | none => []

theorem mem_entriesAt {node : NodeId} {row : Row} {a : AdjacencyEdge} :
    a ∈ g.entriesAt ends node row ↔ ∃ e, g.edgeAt row = some e ∧ (node, a) ∈ ends e := by
  unfold entriesAt
  cases g.edgeAt row with
  | none => simp
  | some e =>
    simp only [mem_filterMap, ite_none_right_eq_some, Option.some.injEq, exists_eq_left']
    constructor
    · rintro ⟨⟨n, b⟩, hb, rfl, rfl⟩
      exact hb
    · intro h
      exact ⟨(node, a), h, rfl, rfl⟩

theorem nodup_entriesAt (hends : IsEnds ends) (node : NodeId) (row : Row) :
    (g.entriesAt ends node row).Nodup := by
  unfold entriesAt
  split
  · next e _ =>
    refine List.Nodup.filterMap ?_ (List.Nodup.of_map _ (hends.nodup e))
    rintro ⟨n, a⟩ ⟨n', a'⟩ b hb hb'
    simp only [mem_def, ite_none_right_eq_some, Option.some.injEq] at hb hb'
    rw [hb.1, hb'.1, hb.2, hb'.2]
  · exact nodup_nil

theorem mem_buildAdjacency {node : NodeId} {a : AdjacencyEdge} :
    a ∈ g.buildAdjacency ends node ↔ ∃ row e, g.edgeAt row = some e ∧ (node, a) ∈ ends e := by
  rw [buildAdjacency, mem_insertionSort]
  refine mem_flatMap.trans ⟨?_, ?_⟩
  · rintro ⟨row, -, ha⟩
    exact ⟨row, mem_entriesAt.1 ha⟩
  · rintro ⟨row, e, he, ha⟩
    refine ⟨row, mem_range.2 ?_, mem_entriesAt.2 ⟨e, he, ha⟩⟩
    by_contra hr
    rw [g.edgeAt_eq_none (not_lt.1 hr)] at he
    cases he

instance : Std.Total fun a b : AdjacencyEdge => a.key ≤ b.key := ⟨fun a b => le_total a.key b.key⟩

instance : IsTrans AdjacencyEdge fun a b => a.key ≤ b.key := ⟨fun _ _ _ => le_trans⟩

theorem sorted_buildAdjacency (hends : IsEnds ends) (hinj : DistinctIds g.edgeAt) (node : NodeId) :
    AdjacencyEntry.Sorted (g.buildAdjacency ends node) := by
  have hnodup : (g.buildAdjacency ends node).Nodup := by
    refine (perm_insertionSort _ _).nodup_iff.2 (nodup_flatMap.2 ⟨?_, ?_⟩)
    · intro row _
      exact nodup_entriesAt hends node row
    · refine (nodup_range (n := g.edgeStore.length)).imp fun {r r'} hne => ?_
      intro a ha ha'
      obtain ⟨e, he, hea⟩ := mem_entriesAt.1 ha
      obtain ⟨e', he', hea'⟩ := mem_entriesAt.1 ha'
      exact hne (hinj he he' (by rw [← hends.edgeId hea, ← hends.edgeId hea']))
  have hsorted := pairwise_insertionSort (fun a b : AdjacencyEdge => a.key ≤ b.key)
    ((List.range g.edgeStore.length).flatMap (g.entriesAt ends node))
  refine (hsorted.and hnodup).imp fun {a b} h => ?_
  exact lt_of_le_of_ne h.1 fun hk => h.2 (AdjacencyEdge.key_injective hk)

theorem adjacency_iff (hends : IsEnds ends) (hinj : DistinctIds g.edgeAt)
    {lists : NodeId → AdjacencyEntry} :
    (∀ node, lists node = g.buildAdjacency ends node) ↔
      Adjacency.Exact lists ends g.edgeAt ∅ ∅ := by
  have hmem : ∀ n a, a ∈ g.buildAdjacency ends n ↔
      n ∉ (∅ : Set NodeId) ∧ ∃ row e, g.edgeAt row = some e ∧ e.id ∉ (∅ : Set EdgeId) ∧
        (n, a) ∈ ends e := by
    intro n a
    simp [mem_buildAdjacency]
  constructor
  · intro h
    exact ⟨fun n => by rw [h n]; exact sorted_buildAdjacency hends hinj n,
      fun n a => by rw [h n]; exact hmem n a⟩
  · intro h node
    have hsorted := sorted_buildAdjacency hends hinj node
    -- two sorted lists with the same members
    have : Std.Irrefl fun a b : AdjacencyEdge => a.key < b.key := ⟨fun a => lt_irrefl a.key⟩
    have : Std.Antisymm fun a b : AdjacencyEdge => a.key < b.key :=
      ⟨fun a b hab hba => absurd hab (lt_asymm hba)⟩
    exact (h.sorted node).eq_of_mem_iff hsorted fun a => (h.mem node a).trans (hmem node a).symm

end Adjacency

/-! ## The two forms agree -/

theorem idMap_iff {σ : Type} {rows : ℕ → Option Row} {store : List σ} {id : σ → ℕ} :
    ((∀ i row, rows i = some row → ((store[row]?).map id).filter (· != tombstone) = some i) ∧
      ∀ row s, store[row]? = some s → id s ≠ tombstone → rows (id s) = some row) ↔
    IdMap rows store id := by
  have hid : ∀ (row : Row) (i : ℕ), ((store[row]?).map id).filter (· != tombstone) = some i ↔
      i ≠ tombstone ∧ ∃ s, store[row]? = some s ∧ id s = i := by
    intro row i
    rw [filter_eq_some_iff, map_eq_some_iff, and_comm, bne_iff_ne]
  constructor
  · rintro ⟨h, h'⟩ i row
    refine ⟨fun hr => (hid row i).1 (h i row hr), ?_⟩
    rintro ⟨hne, s, hs, rfl⟩
    exact h' row s hs hne
  · intro h
    exact ⟨fun i row hr => (hid row i).2 ((h i row).1 hr), fun row s hs hne =>
      (h (id s) row).2 ⟨hne, s, hs, rfl⟩⟩

theorem distinctIds_of_rows (hrows : IdMap g.edgeRows g.edgeStore EdgeSlot.id)
    (hstable : ∀ row e, g.edgeAt row = some e → e.id ≠ tombstone) : DistinctIds g.edgeAt := by
  intro r r' e e' he he' hid
  have h := (hrows e.id r).2 ⟨hstable r e he, e, (g.edgeAt_eq_some.1 he).1, rfl⟩
  have h' := (hrows e'.id r').2 ⟨hstable r' e' he', e', (g.edgeAt_eq_some.1 he').1, rfl⟩
  rw [hid] at h
  exact mem_unique h h'

theorem nodeRow_unique (hrows : IdMap g.nodeRows g.nodeStore NodeSlot.id) {r r' : Row}
    {s s' : NodeSlot} (hs : g.nodeAt r = some s) (hs' : g.nodeAt r' = some s') (hne : s.id ≠ tombstone)
    (hid : s.id = s'.id) : r = r' := by
  have h := (hrows s.id r).2 ⟨hne, s, (g.nodeAt_eq_some.1 hs).1, rfl⟩
  have h' := (hrows s'.id r').2 ⟨hid ▸ hne, s', (g.nodeAt_eq_some.1 hs').1, rfl⟩
  rw [hid] at h
  exact mem_unique h h'

theorem textIndexes_iff (hrows : IdMap g.nodeRows g.nodeStore NodeSlot.id) :
    (∀ key index, g.textIndex key = some index →
      (∀ row s, g.nodeAt row = some s → key.1 ∈ s.labels → s.id ≠ tombstone) ∧
        index.rows = (g.buildTextIndex key index.tokenize).rows ∧
        index.documentTerms = (g.buildTextIndex key index.tokenize).documentTerms) ↔
    ∀ key index, g.textIndex key = some index →
      (∀ row s, g.nodeAt row = some s → key.1 ∈ s.labels → s.id ≠ tombstone) ∧
        index.Exact key g.nodeAt := by
  refine forall₃_congr fun key index _ => and_congr_right fun hstable => ?_
  obtain ⟨htok, hex⟩ := buildTextIndex_exact (g := g) key index.tokenize
    fun r r' s s' hs hs' hl _ hid => nodeRow_unique hrows hs hs' (hstable r s hs hl) hid
  exact TextIndex.exact_iff hex htok

theorem assertIndexesConsistent_iff : AssertIndexesConsistent g ↔ Derived g ∅ ∅ := by
  constructor
  · intro h
    have hrows : IdMap g.edgeRows g.edgeStore EdgeSlot.id := idMap_iff.1 ⟨h.edgeRows, h.edgeIds⟩
    have hnodes : IdMap g.nodeRows g.nodeStore NodeSlot.id := idMap_iff.1 ⟨h.nodeRows, h.nodeIds⟩
    have hinj := distinctIds_of_rows hrows h.edgeStableIds
    exact {
      nodeRows := hnodes
      edgeRows := hrows
      labels := labelIndex_iff.1 h.labelIndex
      edgeLabels := edgeLabelIndex_iff.1 h.edgeLabelIndex
      property := propertyIndexes_iff.1 h.propertyIndexes
      edgeProperty := edgePropertyIndexes_iff.1 h.edgePropertyIndexes
      composite := compositePropertyIndexes_iff.1 h.compositePropertyIndexes
      vector := vectorIndexes_iff.1 h.vectorIndexes
      text := (textIndexes_iff hnodes).1 h.textIndexes
      stableIds := h.edgeStableIds
      canonical := h.canonicalEndpoints
      outgoing := (adjacency_iff isEnds_out hinj).1 h.adjacencyOut
      incoming := (adjacency_iff isEnds_in hinj).1 h.adjacencyIn
      undirected := (adjacency_iff isEnds_undirected hinj).1 h.adjacencyUndirected }
  · intro h
    have hinj := distinctIds_of_rows h.edgeRows h.stableIds
    exact {
      nodeRows := (idMap_iff.2 h.nodeRows).1
      edgeRows := (idMap_iff.2 h.edgeRows).1
      nodeIds := (idMap_iff.2 h.nodeRows).2
      edgeIds := (idMap_iff.2 h.edgeRows).2
      labelIndex := labelIndex_iff.2 h.labels
      edgeLabelIndex := edgeLabelIndex_iff.2 h.edgeLabels
      propertyIndexes := propertyIndexes_iff.2 h.property
      edgePropertyIndexes := edgePropertyIndexes_iff.2 h.edgeProperty
      compositePropertyIndexes := compositePropertyIndexes_iff.2 h.composite
      vectorIndexes := vectorIndexes_iff.2 h.vector
      textIndexes := (textIndexes_iff h.nodeRows).2 h.text
      edgeStableIds := h.stableIds
      canonicalEndpoints := h.canonical
      adjacencyOut := (adjacency_iff isEnds_out hinj).2 h.outgoing
      adjacencyIn := (adjacency_iff isEnds_in hinj).2 h.incoming
      adjacencyUndirected := (adjacency_iff isEnds_undirected hinj).2 h.undirected }

end Selene.Graph
