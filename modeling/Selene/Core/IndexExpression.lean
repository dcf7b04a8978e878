import Selene.Core.Value

/-!
# Scalar index expressions

`scalar_index_expression.rs`: a property of an element and a list of operations on it, which an
expression index evaluates on every element it holds. Case mapping, normalisation and the numeric
readings of a JSON number are foreign (`Shared`); the query runtime uses the same functions.
-/

namespace Selene.Core

/-- The foreign functions that index expressions and queries share. -/
structure Shared (F : Foreign) where
  toLowercase : String → String
  toUppercase : String → String
  isNfc : String → Bool
  nfc : String → String
  asI64 : F.Number → Option Int64
  asU64 : F.Number → Option UInt64
  asF64 : F.Number → Option UInt64

/-- `f64::is_finite`. -/
def isFinite64 (bits : UInt64) : Bool := bits &&& 0x7FF0000000000000 != 0x7FF0000000000000

/-- `PropertyMap::get`. -/
abbrev PropertyMap (F : Foreign) := DbString → Option (Value F)

inductive ScalarIndexSelector where
  | key (name : String)
  | index (position : Int64)
deriving DecidableEq

inductive ScalarIndexOperation where
  | lower
  | upper
  | jsonScalarPath (path : List ScalarIndexSelector)
  | jsonTextPath (path : List ScalarIndexSelector)
deriving DecidableEq

structure ScalarIndexExpression where
  semantics : UInt32
  property : String
  operations : List ScalarIndexOperation
deriving DecidableEq

inductive ScalarIndexEvaluationError where
  | invalidExpression
  | type
  | container
  | range

/-- `matches!(value, Value::Null)`. -/
def Value.isNull {F : Foreign} : Value F → Bool
  | .null => true
  | _ => false

namespace ScalarIndexSelector

def isValid : ScalarIndexSelector → Bool
  | key name => (dbString name).isSome
  | index _ => true

end ScalarIndexSelector

namespace ScalarIndexOperation

def isValid : ScalarIndexOperation → Bool
  | lower | upper => true
  | jsonScalarPath path | jsonTextPath path =>
    1 ≤ path.length && path.length ≤ 64 && path.all ScalarIndexSelector.isValid

end ScalarIndexOperation

/-- The place a signed index names in an array; negative ones count from the end. -/
def arrayPosition (index : Int64) (len : ℕ) : Option ℕ :=
  if 0 ≤ index.toInt then some index.toInt.toNat
  else if index.toInt.natAbs ≤ len then some (len - index.toInt.natAbs) else none

namespace ScalarIndexExpression

variable {F : Foreign} (S : Shared F)

def isValid (e : ScalarIndexExpression) : Bool :=
  e.semantics == 1 && e.property != "" && (dbString e.property).isSome &&
    e.operations.length ≤ 16 && e.operations.all ScalarIndexOperation.isValid

/-- One selector: the child, none when there is no such child, an error for a container of the
other kind. -/
def selectChild (j : Json F.Number) (selector : ScalarIndexSelector) :
    Except ScalarIndexEvaluationError (Option (Json F.Number)) :=
  match j, selector with
  | .object fields, .key name => .ok (fields.lookup name)
  | .array items, .index i => .ok ((arrayPosition i items.length).bind (items[·]?))
  | .object _, _ | .array _, _ => .error .type
  | _, _ => .ok none

def selectPath (j : Json F.Number) :
    List ScalarIndexSelector → Except ScalarIndexEvaluationError (Option (Json F.Number))
  | [] => .ok (some j)
  | selector :: path =>
    match selectChild j selector with
    | .error e => .error e
    | .ok none => .ok none
    | .ok (some child) => selectPath child path

def stringResult (text : String) : Except ScalarIndexEvaluationError (Value F) :=
  match dbString text with
  | some s => .ok (.string s)
  | none => .error .range

/-- A native number of a JSON number. -/
def numberResult (n : F.Number) : Except ScalarIndexEvaluationError (Value F) :=
  match S.asI64 n, S.asU64 n, (S.asF64 n).filter isFinite64 with
  | some i, _, _ => .ok (.int i)
  | none, some u, _ => .ok (.uint u)
  | none, none, some bits => .ok (.float bits)
  | none, none, none => .error .range

/-- What a selected JSON value becomes. -/
def selected (text : Bool) (j : Json F.Number) : Except ScalarIndexEvaluationError (Value F) :=
  match j with
  | .null => .ok .null
  | .string s => stringResult s
  | other =>
    if text then
      if other.validate then stringResult (F.json.print other) else .error .range
    else
      match other with
      | .bool b => .ok (.bool b)
      | .number n => numberResult S n
      | _ => .error .container

def extract (j : Json F.Number) (path : List ScalarIndexSelector) (text : Bool) :
    Except ScalarIndexEvaluationError (Value F) :=
  match selectPath j path with
  | .error e => .error e
  | .ok none => .ok .null
  | .ok (some j) => selected S text j

/-- The text of a string value. -/
def textOf : Value F → Option DbString
  | .string s => some s
  | _ => none

/-- The document of a JSON value. -/
def documentOf : Value F → Option (JsonValue F.Number)
  | .json j => some j
  | _ => none

def applyCase (transform : String → String) (value : Value F) :
    Except ScalarIndexEvaluationError (Value F) :=
  match textOf value with
  | some s => stringResult (transform s.val)
  | none => .error .type

def applyPath (path : List ScalarIndexSelector) (text : Bool) (value : Value F) :
    Except ScalarIndexEvaluationError (Value F) :=
  match documentOf value with
  | some j => extract S j.value path text
  | none => .error .type

/-- One operation on a value that is not null. -/
def apply (operation : ScalarIndexOperation) (value : Value F) :
    Except ScalarIndexEvaluationError (Value F) :=
  match operation with
  | .lower => applyCase S.toLowercase value
  | .upper => applyCase S.toUppercase value
  | .jsonScalarPath path => applyPath S path false value
  | .jsonTextPath path => applyPath S path true value

/-- The loop over the operations; null goes through all of them. -/
def applyAll : List ScalarIndexOperation → Value F → Except ScalarIndexEvaluationError (Value F)
  | [], value => .ok value
  | operation :: operations, value =>
    if value.isNull then applyAll operations value
    else
      match apply S operation value with
      | .error e => .error e
      | .ok value => applyAll operations value

def evaluate (e : ScalarIndexExpression) (properties : PropertyMap F) :
    Except ScalarIndexEvaluationError (Value F) :=
  if !e.isValid then .error .invalidExpression
  else
    match dbString e.property with
    | none => .error .invalidExpression
    | some key => applyAll S e.operations ((properties key).getD .null)

end ScalarIndexExpression

end Selene.Core
