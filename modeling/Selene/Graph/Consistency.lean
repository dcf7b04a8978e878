import Selene.Graph.Mutator

/-!
# What `assert_indexes_consistent` checks

Every derived structure is compared with one computed afresh from the columns (`consistency.rs`).
The fresh builds are the loops of the source over the rows; a check that runs over a map is a
statement about all its keys. The expression indexes have no check.
-/

namespace Selene.Graph

/-- An empty index of the given kind. -/
def PropertyIndexEntry.new (kind : TypedIndexKind) : PropertyIndexEntry where
  index := { kind, rows := fun _ => ∅ }
  name := none
  driftedRows := 0

def CompositePropertyIndexEntry.new (kinds : List TypedIndexKind) (properties : List DbString) :
    CompositePropertyIndexEntry where
  kinds := kinds
  rows _ := ∅
  declaredProperties := properties
  name := none
  driftedRows := 0

def TextIndex.empty (tokenize : String → List String) : TextIndex where
  tokenize := tokenize
  rows := ∅
  documentTerms _ := none

namespace SeleneGraph

variable (g : SeleneGraph)

/-! ## Fresh builds -/

/-- `build_property_index_lenient`: a row without a key is left out, and counted when its value is
of another kind. -/
def buildPropertyIndexLenient (key : IndexKey) (kind : TypedIndexKind) : PropertyIndexEntry :=
  (List.range g.nodeStore.length).foldl (fun entry row =>
    match (g.nodeAt row).bind fun s => indexableValue s.labels s.properties key with
    | some value => entry.insertCommit value row
    | none => entry) (.new kind)

def buildEdgePropertyIndexLenient (key : IndexKey) (kind : TypedIndexKind) : PropertyIndexEntry :=
  (List.range g.edgeStore.length).foldl (fun entry row =>
    match (g.edgeAt row).bind fun s => indexableValue {s.label} s.properties key with
    | some value => entry.insertCommit value row
    | none => entry) (.new kind)

def buildCompositePropertyIndexLenient (label : DbString) (properties : List DbString)
    (kinds : List TypedIndexKind) : CompositePropertyIndexEntry :=
  (List.range g.nodeStore.length).foldl (fun entry row =>
    match (g.nodeAt row).bind fun s => indexableValues s.labels s.properties label properties with
    | some values => entry.insertCommit values row
    | none => entry) (.new kinds properties)

/-- `build_vector_index_lenient`: the rows whose value is admitted. -/
def buildVectorIndexLenient (key : IndexKey) (entry : VectorIndexEntry) : Finset Row :=
  (Finset.range g.nodeStore.length).filter fun row =>
    ((g.nodeAt row).bind fun s => indexableValue s.labels s.properties key).any fun value =>
      (entry.admitValue value).isOk

/-- `TextIndex::build`. -/
def buildTextIndex (key : IndexKey) (tokenize : String → List String) : TextIndex :=
  (List.range g.nodeStore.length).foldl (fun index row =>
    match g.nodeAt row with
    | some s =>
      match indexableText s.labels s.properties key with
      | some text => index.insertDocument row s.id text
      | none => index
    | none => index) (.empty tokenize)

/-- The live rows that carry a label. -/
def labelRows (label : DbString) : Finset Row :=
  (Finset.range g.nodeStore.length).filter fun row =>
    (g.nodeAt row).any fun s => s.labels.contains label

def edgeLabelRows (label : DbString) : Finset Row :=
  (Finset.range g.edgeStore.length).filter fun row => (g.edgeAt row).any fun s => s.label == label

end SeleneGraph

/-! ## Adjacency -/

namespace EdgeSlot

/-- What an edge leaves in the outgoing lists: the node it is listed at, and the entry. -/
def outEnds (e : EdgeSlot) : List (NodeId × AdjacencyEdge) :=
  match e.directionality with
  | .directed => [(e.source, ⟨e.label, e.target, e.id⟩)]
  | .undirected => []

def inEnds (e : EdgeSlot) : List (NodeId × AdjacencyEdge) :=
  match e.directionality with
  | .directed => [(e.target, ⟨e.label, e.source, e.id⟩)]
  | .undirected => []

def undirectedEnds (e : EdgeSlot) : List (NodeId × AdjacencyEdge) :=
  match e.directionality with
  | .directed => []
  | .undirected =>
    (e.source, ⟨e.label, e.target, e.id⟩) ::
      if e.source = e.target then [] else [(e.target, ⟨e.label, e.source, e.id⟩)]

end EdgeSlot

/-- The entries of one node over all live edges, in the order of their keys. -/
def SeleneGraph.buildAdjacency (g : SeleneGraph) (ends : EdgeSlot → List (NodeId × AdjacencyEdge))
    (node : NodeId) : AdjacencyEntry :=
  ((List.range g.edgeStore.length).flatMap fun row =>
    match g.edgeAt row with
    | some e => (ends e).filterMap fun x => if x.1 = node then some x.2 else none
    | none => []).insertionSort fun a b => a.key ≤ b.key

/-! ## The checks -/

structure AssertIndexesConsistent (g : SeleneGraph) : Prop where
  /-- `check_typed_id_maps`. -/
  nodeRows : ∀ id row, g.nodeRows id = some row → g.nodeIdForNodeRow row = some id
  edgeRows : ∀ id row, g.edgeRows id = some row → g.edgeIdForEdgeRow row = some id
  nodeIds : ∀ row s, g.nodeStore[row]? = some s → s.id ≠ tombstone → g.nodeRows s.id = some row
  edgeIds : ∀ row s, g.edgeStore[row]? = some s → s.id ≠ tombstone → g.edgeRows s.id = some row
  /-- `check_label_index` and `check_edge_label_index`. -/
  labelIndex : ∀ label, g.idxLabel label = g.labelRows label
  edgeLabelIndex : ∀ label, g.idxEdgeLabel label = g.edgeLabelRows label
  /-- `check_property_indexes` and `check_edge_property_indexes`. -/
  propertyIndexes : ∀ key entry, g.propertyIndex key = some entry →
    entry.driftedRows = (g.buildPropertyIndexLenient key entry.index.kind).driftedRows ∧
      entry.index.rows = (g.buildPropertyIndexLenient key entry.index.kind).index.rows
  edgePropertyIndexes : ∀ key entry, g.edgePropertyIndex key = some entry →
    entry.driftedRows = (g.buildEdgePropertyIndexLenient key entry.index.kind).driftedRows ∧
      entry.index.rows = (g.buildEdgePropertyIndexLenient key entry.index.kind).index.rows
  /-- `check_composite_property_indexes`. -/
  compositePropertyIndexes : ∀ key entry, g.compositePropertyIndex key = some entry →
    entry.driftedRows = (g.buildCompositePropertyIndexLenient key.1 entry.declaredProperties
        entry.kinds).driftedRows ∧
      entry.rows = (g.buildCompositePropertyIndexLenient key.1 entry.declaredProperties
        entry.kinds).rows
  /-- `check_vector_indexes`. -/
  vectorIndexes : ∀ key entry, g.vectorIndex key = some entry →
    entry.rows = g.buildVectorIndexLenient key entry
  /-- `check_text_indexes`; the build stops at a live row without a stable id. -/
  textIndexes : ∀ key index, g.textIndex key = some index →
    (∀ row s, g.nodeAt row = some s → key.1 ∈ s.labels → s.id ≠ tombstone) ∧
      index.rows = (g.buildTextIndex key index.tokenize).rows ∧
      index.documentTerms = (g.buildTextIndex key index.tokenize).documentTerms
  /-- `check_adjacency`. -/
  edgeStableIds : ∀ row e, g.edgeAt row = some e → e.id ≠ tombstone
  canonicalEndpoints : ∀ row e, g.edgeAt row = some e → e.directionality = .undirected →
    e.source ≤ e.target
  adjacencyOut : ∀ node, g.adjacencyOut node = g.buildAdjacency EdgeSlot.outEnds node
  adjacencyIn : ∀ node, g.adjacencyIn node = g.buildAdjacency EdgeSlot.inEnds node
  adjacencyUndirected : ∀ node,
    g.adjacencyUndirected node = g.buildAdjacency EdgeSlot.undirectedEnds node

end Selene.Graph
