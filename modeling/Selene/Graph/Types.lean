import Selene.Graph.Value
import Mathlib.Data.List.Basic

/-!
# Graph types and errors

The closed graph type a graph may be bound to: node types found by their label set, edge types by
label and endpoint node types. A property declaration carries its value type by what the engine
does with it: which values match the declared type, and the store assignment that a value
undergoes before it is written (`none` where `declaration_may_coerce` says there is none).
-/

namespace Selene.Graph

inductive EntityId where
  | node (id : NodeId)
  | edge (id : EdgeId)

inductive EdgeEndpointDef where
  | any
  | nodeType (index : ℕ)
  | oneOf (indices : List ℕ)

def EdgeEndpointDef.matchesNodeType (d : EdgeEndpointDef) (nodeType : ℕ) : Bool :=
  match d with
  | .any => true
  | .nodeType expected => expected == nodeType
  | .oneOf indices => indices.contains nodeType

/-- Two values, or a value and itself, cannot be compared for distinctness. -/
inductive ValueComparisonError where
  | notComparable
  | tooDeep

inductive TypeViolation where
  | unknownNodeLabel (id : NodeId) (labels : LabelSet)
  | unknownEdgeLabel (id : EdgeId) (label : DbString)
  | edgeEndpointTypeMismatch (id : EdgeId) (label : DbString) (expectedSource : EdgeEndpointDef)
      (observedSource : ℕ) (expectedTarget : EdgeEndpointDef) (observedTarget : ℕ)
  | missingRequiredProperty (entity : EntityId) (property declaredIn : DbString)
  | propertyTypeMismatch (entity : EntityId) (property : DbString) (expected observed : String)
  | extensionValueRejected (entity : EntityId) (property : DbString)
  | undeclaredProperty (entity : EntityId) (property : DbString)
  | immutablePropertyUpdate (entity : EntityId) (property declaredIn : DbString)
  | uniquePropertyDuplicate (entity conflicting : EntityId) (property declaredIn : DbString)
  | uniquePropertyComparison (entity : EntityId) (property declaredIn : DbString)
      (source : ValueComparisonError)

inductive StoreAssignmentException where
  | numericValueOutOfRange
  | stringDataRightTruncation

inductive GraphError where
  | core (e : CoreError)
  | nodeNotFound (id : NodeId)
  | nodeNotAlive (id : NodeId)
  | edgeNotFound (id : EdgeId)
  | edgeNotAlive (id : EdgeId)
  | counterExhausted (kind : String)
  | rowSpaceExhausted (kind : String) (rows maxRows : ℕ)
  | typeViolation (v : TypeViolation)
  | storeAssignment (property : DbString) (e : StoreAssignmentException) (reason : String)
  | vectorIndexValueRejected (label property : DbString) (expectedDimension : ℕ) (observed : String)
  | inconsistent (reason : String)

inductive ValidationMode where
  | strict
  | warn
deriving DecidableEq

structure PropertyTypeDef where
  name : DbString
  /-- The declared type's name, as errors print it. -/
  valueType : String
  required : Bool
  default : Option (Except GraphError Value)
  immutable : Bool
  unique : Bool
  /-- `property_value_matches`. -/
  matchesValue : Value → Bool
  /-- `coerce_property_value`, where the declaration may coerce. -/
  coerce : Option (Value → Except GraphError Value)

structure NodeTypeDef where
  name : DbString
  keyLabels : LabelSet
  properties : List PropertyTypeDef
  validationMode : ValidationMode

structure EdgeTypeDef where
  name : DbString
  label : DbString
  sourceNodeType : EdgeEndpointDef
  targetNodeType : EdgeEndpointDef
  properties : List PropertyTypeDef
  validationMode : ValidationMode

structure GraphTypeDef where
  name : DbString
  nodeTypes : List NodeTypeDef
  edgeTypes : List EdgeTypeDef

namespace GraphTypeDef

variable (g : GraphTypeDef)

def findNodeType (labels : LabelSet) : Option NodeTypeDef :=
  g.nodeTypes.find? fun t => t.keyLabels == labels

/-- `find_node_type_index`: the position, where it fits a `u32`. -/
def findNodeTypeIndex (labels : LabelSet) : Option ℕ :=
  (g.nodeTypes.findIdx? fun t => t.keyLabels == labels).filter (· < 2 ^ 32)

def findEdgeType (label : DbString) (source target : ℕ) : Option EdgeTypeDef :=
  g.edgeTypes.find? fun t =>
    t.label == label && t.sourceNodeType.matchesNodeType source &&
      t.targetNodeType.matchesNodeType target

/-- `find_mixed_edge_type`: an undirected edge matches its endpoints in either order, and must
match one declaration only. -/
def findMixedEdgeType (label : DbString) (first second : ℕ) (d : EdgeDirectionality) :
    Option EdgeTypeDef :=
  match d with
  | .directed => g.findEdgeType label first second
  | .undirected =>
    match g.edgeTypes.filter fun t => t.label == label &&
        ((t.sourceNodeType.matchesNodeType first && t.targetNodeType.matchesNodeType second) ||
          (t.sourceNodeType.matchesNodeType second && t.targetNodeType.matchesNodeType first)) with
    | [t] => some t
    | _ => none

def firstEdgeTypeWithLabel (label : DbString) : Option EdgeTypeDef :=
  g.edgeTypes.find? fun t => t.label == label

end GraphTypeDef

/-! ## Defaults, store assignment and immutability -/

variable (declarations : List PropertyTypeDef)

/-- `fill_property_defaults`: a declared default for every declared property that is absent. -/
def fillPropertyDefaults (props : PropertyMap) : Except GraphError PropertyMap :=
  declarations.foldlM (fun props d =>
    if d.name ∈ props then .ok props
    else match d.default with
      | some default => do ((props.set d.name (← default)).mapError .core)
      | none => .ok props) props

/-- `coerce_property_value` leaves a null alone. -/
def PropertyTypeDef.coerceValue (coerce : Value → Except GraphError Value) (v : Value) :
    Except GraphError Value :=
  if v.isNull then .ok v else coerce v

def coercePropertyMap (props : PropertyMap) : Except GraphError PropertyMap :=
  declarations.foldlM (fun props d =>
    match d.coerce, props[d.name]? with
    | some coerce, some v => do
      let v ← PropertyTypeDef.coerceValue coerce v
      (PropertyMap.set (props.erase d.name) d.name v).mapError .core
    | _, _ => .ok props) props

/-- The new value of one entry in `coerce_property_diff`. -/
def coerceEntry (entry : DbString × Value) : Except GraphError Value :=
  match declarations.find? fun d => d.name == entry.1 with
  | some d =>
    match d.coerce with
    | some coerce => PropertyTypeDef.coerceValue coerce entry.2
    | none => .ok entry.2
  | none => .ok entry.2

/-- The entries `coerce_property_diff` leaves: the keys stay, their values are assigned. -/
def coerceEntries (declarations : List PropertyTypeDef) :
    List (DbString × Value) → Except GraphError (List (DbString × Value))
  | [] => .ok []
  | entry :: rest => do
    let v ← coerceEntry declarations entry
    let rest ← coerceEntries declarations rest
    .ok ((entry.1, v) :: rest)

theorem coerceEntries_keys {declarations : List PropertyTypeDef} :
    ∀ {entries out : List (DbString × Value)}, coerceEntries declarations entries = .ok out →
      out.map Prod.fst = entries.map Prod.fst := by
  intro entries
  induction entries with
  | nil => intro out h; cases h; rfl
  | cons entry rest ih =>
    intro out h
    simp only [coerceEntries] at h
    cases hv : coerceEntry declarations entry with
    | error e => rw [hv] at h; cases h
    | ok v =>
      rw [hv] at h
      cases hr : coerceEntries declarations rest with
      | error e => rw [hr] at h; cases h
      | ok out' => rw [hr] at h; cases h; simp [ih hr]

def coercePropertyDiff (diff : PropertyDiff) : Except GraphError PropertyDiff :=
  match h : coerceEntries declarations diff.set with
  | .ok entries => .ok
    { set := entries
      removed := diff.removed
      nodup := by rw [coerceEntries_keys h]; exact diff.nodup
      disjoint := by rw [coerceEntries_keys h]; exact diff.disjoint }
  | .error e => .error e

/-- `apply_property_diff`: the sets first, then the removals. -/
def applyPropertyDiff (props : PropertyMap) (diff : PropertyDiff) : Except GraphError PropertyMap := do
  let props ← diff.set.foldlM (fun props entry => (props.set entry.1 entry.2).mapError .core) props
  .ok (diff.removed.foldl (fun props key => props.erase key) props)

def rejectIfImmutable (entity : EntityId) (declaredIn : DbString)
    (declarations : List PropertyTypeDef) (property : DbString) : Except TypeViolation Unit :=
  if declarations.any fun d => d.name == property && d.immutable then
    .error (.immutablePropertyUpdate entity property declaredIn)
  else .ok ()

def rejectImmutablePropertyUpdate (entity : EntityId) (declaredIn : DbString)
    (declarations : List PropertyTypeDef) (diff : PropertyDiff) : Except TypeViolation Unit := do
  diff.set.forM fun entry => rejectIfImmutable entity declaredIn declarations entry.1
  diff.removed.forM fun key => rejectIfImmutable entity declaredIn declarations key

end Selene.Graph
