import Selene.Graph.Store

/-!
# Closed-graph validation

What `type_validator.rs` checks of one live node or edge against the bound graph type, and
`validate_change`, which checks the entities one change of a transaction concerns in the graph the
transaction ends with.
-/

namespace Selene.Graph

/-- The changes a transaction records, as data operations emit them. -/
inductive Change where
  | nodeCreated (id : NodeId) (labels : LabelSet) (properties : PropertyMap)
  | nodeUpdated (id : NodeId) (labelsDiff : LabelDiff) (propertiesDiff : PropertyDiff)
  | nodeDeleted (id : NodeId)
  | edgeCreated (id : EdgeId) (directionality : EdgeDirectionality) (label : DbString)
      (source target : NodeId) (properties : PropertyMap)
  | edgeUpdated (id : EdgeId) (propertiesDiff : PropertyDiff)
  | edgeDeleted (id : EdgeId)
  | nodePropertyRemoved (id : NodeId) (property : DbString)
  | edgePropertyRemoved (id : EdgeId) (property : DbString)
  | nodeLabelRemoved (id : NodeId) (label : DbString)
  | nodesOfTypeTruncated (label : DbString)
  | edgesOfTypeTruncated (label : DbString)
  | graphReset

abbrev TypeWarning := TypeViolation

/-- The check of one property in `validate_properties`. -/
def validateProperty (entity : EntityId) (declaredIn : DbString) (mode : ValidationMode)
    (declarations : List PropertyTypeDef) (entry : DbString × Value) :
    Except TypeViolation (List TypeWarning) :=
  match declarations.find? fun d => d.name == entry.1 with
  | none =>
    if mode = .warn then .ok [.undeclaredProperty entity entry.1]
    else .error (.undeclaredProperty entity entry.1)
  | some d =>
    match entry.2 with
    | .extended _ _ => .error (.extensionValueRejected entity entry.1)
    | .null =>
      if d.required then .error (.missingRequiredProperty entity entry.1 declaredIn) else .ok []
    | v =>
      if d.matchesValue v then .ok []
      else .error (.propertyTypeMismatch entity entry.1 d.valueType v.variantName)

/-- Every required property is present and not null. -/
def validateRequired (entity : EntityId) (declaredIn : DbString)
    (declarations : List PropertyTypeDef) (properties : PropertyMap) : Except TypeViolation Unit :=
  (declarations.filter (·.required)).forM fun d =>
    if ((properties[d.name]?).filter fun v => !v.isNull).isNone then
      .error (.missingRequiredProperty entity d.name declaredIn)
    else .ok ()

/-- The warnings of all properties in key order, or the first violation. -/
def validateEntries (entity : EntityId) (declaredIn : DbString) (mode : ValidationMode)
    (declarations : List PropertyTypeDef) :
    List (DbString × Value) → Except TypeViolation (List TypeWarning)
  | [] => .ok []
  | entry :: rest => do
    let warnings ← validateProperty entity declaredIn mode declarations entry
    .ok (warnings ++ (← validateEntries entity declaredIn mode declarations rest))

def validateProperties (entity : EntityId) (declaredIn : DbString) (mode : ValidationMode)
    (declarations : List PropertyTypeDef) (properties : PropertyMap) :
    Except TypeViolation (List TypeWarning) := do
  let warnings ← validateEntries entity declaredIn mode declarations properties.toList
  validateRequired entity declaredIn declarations properties
  .ok warnings

/-- `validate_node_state`: the index of the node's type, and the warnings. -/
def validateNodeState (id : NodeId) (g : SeleneGraph) (type : GraphTypeDef) :
    Except TypeViolation (ℕ × List TypeWarning) :=
  let labels := (g.nodeLabels id).getD ∅
  match type.findNodeTypeIndex labels with
  | none => .error (.unknownNodeLabel id labels)
  | some index =>
    match type.nodeTypes[index]? with
    | none => .error (.unknownNodeLabel id labels)
    | some t => do
      let warnings ← validateProperties (.node id) t.name t.validationMode t.properties
        ((g.nodeProperties id).getD ∅)
      .ok (index, warnings)

def validateEdgeEndpoints (id : EdgeId) (label : DbString) (source target : NodeId)
    (d : EdgeDirectionality) (g : SeleneGraph) (type : GraphTypeDef) :
    Except TypeViolation (EdgeTypeDef × List TypeWarning) := do
  let (sourceType, warnings) ← validateNodeState source g type
  let (targetType, targetWarnings) ← validateNodeState target g type
  match type.findMixedEdgeType label sourceType targetType d with
  | some t => .ok (t, warnings ++ targetWarnings)
  | none =>
    match type.firstEdgeTypeWithLabel label with
    | none => .error (.unknownEdgeLabel id label)
    | some expected => .error (.edgeEndpointTypeMismatch id label expected.sourceNodeType sourceType
        expected.targetNodeType targetType)

/-- The label of an edge that is not alive, in `validate_edge_state`'s error. -/
def missingEdgeLabel : DbString := "__selene_missing_edge_label"

def validateEdgeState (id : EdgeId) (g : SeleneGraph) (type : GraphTypeDef) :
    Except TypeViolation (EdgeTypeDef × List TypeWarning) :=
  match g.edge id with
  | none => .error (.unknownEdgeLabel id missingEdgeLabel)
  | some e => do
    let (t, warnings) ←
      validateEdgeEndpoints id e.label e.source e.target e.directionality g type
    let more ← validateProperties (.edge id) t.name t.validationMode t.properties e.properties
    .ok (t, warnings ++ more)

/-! ## One change -/

/-- The edges in one list, in order, each against the type. -/
def validateEdges (g : SeleneGraph) (type : GraphTypeDef) :
    List EdgeId → Except TypeViolation (List TypeWarning)
  | [] => .ok []
  | id :: rest => do
    let (_, warnings) ← validateEdgeState id g type
    .ok (warnings ++ (← validateEdges g type rest))

/-- The outgoing and incoming edges that are alive, and the undirected ones. -/
def revalidateIncidentEdges (node : NodeId) (g : SeleneGraph) (type : GraphTypeDef) :
    Except TypeViolation (List TypeWarning) := do
  let alive := fun (entry : AdjacencyEntry) =>
    (entry.map (·.edgeId)).filter fun id => g.isEdgeAlive id
  let out ← validateEdges g type (alive (g.adjacencyOut node))
  let into ← validateEdges g type (alive (g.adjacencyIn node))
  let both ← validateEdges g type ((g.adjacencyUndirected node).map (·.edgeId))
  .ok (out ++ into ++ both)

def validateChange (change : Change) (g : SeleneGraph) (type : GraphTypeDef) :
    Except TypeViolation (List TypeWarning) :=
  match change with
  | .nodeCreated id _ _ =>
    if g.isNodeAlive id then do .ok (← validateNodeState id g type).2 else .ok []
  | .nodeUpdated id labelsDiff propertiesDiff =>
    if g.isNodeAlive id then do
      let (index, warnings) ← validateNodeState id g type
      match type.nodeTypes[index]? with
      | some t => rejectImmutablePropertyUpdate (.node id) t.name t.properties propertiesDiff
      | none => .ok ()
      if labelsDiff.added = [] ∧ labelsDiff.removed = [] then .ok warnings
      else .ok (warnings ++ (← revalidateIncidentEdges id g type))
    else .ok []
  | .edgeCreated id _ _ _ _ _ =>
    if g.isEdgeAlive id then do .ok (← validateEdgeState id g type).2 else .ok []
  | .edgeUpdated id propertiesDiff =>
    if g.isEdgeAlive id then do
      let (t, warnings) ← validateEdgeState id g type
      rejectImmutablePropertyUpdate (.edge id) t.name t.properties propertiesDiff
      .ok warnings
    else .ok []
  | .nodePropertyRemoved id property =>
    if g.isNodeAlive id then do
      let (index, warnings) ← validateNodeState id g type
      match type.nodeTypes[index]? with
      | some t => rejectIfImmutable (.node id) t.name t.properties property
      | none => .ok ()
      .ok warnings
    else .ok []
  | .edgePropertyRemoved id property =>
    if g.isEdgeAlive id then do
      let (t, warnings) ← validateEdgeState id g type
      rejectIfImmutable (.edge id) t.name t.properties property
      .ok warnings
    else .ok []
  | .nodeLabelRemoved id _ =>
    if g.isNodeAlive id then do
      let (_, warnings) ← validateNodeState id g type
      .ok (warnings ++ (← revalidateIncidentEdges id g type))
    else .ok []
  | .nodeDeleted _ | .edgeDeleted _ | .nodesOfTypeTruncated _ | .edgesOfTypeTruncated _
  | .graphReset => .ok []

end Selene.Graph
