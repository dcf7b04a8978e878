import Selene.Core.IndexExpression
import Selene.Query.Evaluator

/-!
# Query expressions that an index can answer

The runtime evaluator on the functions an expression index knows (`scalar_fns.rs`, `string_fns.rs`,
`json_fns.rs`), and the compiler from an analyzed expression to a scalar index expression
(`analyze/index_expression.rs`). The forms and functions that the compiler refuses are given by the
environment.
-/

namespace Selene.Query.Indexing

open Selene.Core

/-! ## Expressions -/

variable {F : Foreign} {ε : Type}

/-- `Literal`: the two kinds the compiler looks at, and the values of the others. -/
inductive Literal (F : Foreign) where
  | string (value : DbString)
  | integer (value : Int64)
  | other (value : Value F)

/-- `literal_value`. -/
def Literal.value : Literal F → Value F
  | string s => .string s
  | integer i => .int i
  | other v => v

inductive GqlType where
  | json
  | other (name : String)

inductive ValueExpr (F : Foreign) (ε : Type) where
  | literal (literal : Literal F)
  | var (name : DbString) (span : SourceSpan)
  | propertyAccess (target : ValueExpr F ε) (key : DbString) (span : SourceSpan)
  | unaryOp (op : UnaryOp) (operand : ValueExpr F ε) (span : SourceSpan)
  | functionCall (name : List DbString) (args : List (ValueExpr F ε)) (star distinct : Bool)
      (span : SourceSpan)
  | cast (value : ValueExpr F ε) (target : GqlType) (span : SourceSpan)
  | other (form : ε)

/-! ## The runtime -/

inductive ExceptionSubclass where
  | invalidValueType
  | stringDataRightTruncation
  | numericValueOutOfRange
  | invalidCharacterValueForCast
  | invalidReferenceValue

/-- `ExecutorError`, as far as these functions raise it. -/
inductive ExecutorError where
  | dataException (subclass : ExceptionSubclass) (message : String) (span : SourceSpan)
  | functionArityMismatch (name expected : String) (actual : ℕ) (span : SourceSpan)
  | invalidFunctionModifier (name modifier : String) (span : SourceSpan)
  | unknownFunction (name : String) (span : SourceSpan)

abbrev Evaluated (α : Type) := Except ExecutorError α

def dataException {α : Type} (message : String) (span : SourceSpan) : Evaluated α :=
  .error (.dataException .invalidValueType message span)

/-- What the evaluator reads: the row, the live nodes, a cap, and the forms not written out here. -/
structure EvalCtx (F : Foreign) (ε : Type) where
  lookup : DbString → SourceSpan → Evaluated (Value F)
  /-- The properties of a node, if it is alive. -/
  nodeProperties : UInt64 → Option (PropertyMap F)
  maxStringLength : UInt32
  access : Value F → DbString → SourceSpan → Evaluated (Value F)
  unary : UnaryOp → Value F → SourceSpan → Evaluated (Value F)
  castTo : String → Value F → SourceSpan → Evaluated (Value F)
  call : String → List (ValueExpr F ε) → SourceSpan → Evaluated (Value F)
  form : ε → Evaluated (Value F)

def stringValue (text : String) (span : SourceSpan) : Evaluated (Value F) :=
  match Selene.Core.dbString text with
  | some s => .ok (.string s)
  | none => dataException "string exceeds the maximum byte length" span

section Functions

variable (S : Shared F) (maxStringLength : UInt32)

def cappedStringFunctionValue (text : String) (span : SourceSpan) (subject : String) :
    Evaluated (Value F) :=
  if maxStringLength.toNat < text.length then
    .error (.dataException .stringDataRightTruncation
      s!"{subject} exceeds the configured maximum character length" span)
  else
    match Selene.Core.dbString text with
    | some s => .ok (.string s)
    | none => .error (.dataException .stringDataRightTruncation
        s!"{subject} exceeds the maximum byte length" span)

/-- The text that `eval_string_transform` makes of a text. -/
def transformed (transform : String → String) (text : String) : String :=
  if S.isNfc text then S.nfc (transform text) else transform text

def evalStringTransform (transform : String → String) (value : Value F) (span : SourceSpan) :
    Evaluated (Value F) :=
  if value.isNull then .ok .null
  else
    match ScalarIndexExpression.textOf value with
    | none => dataException "string function argument is not a string" span
    | some s => cappedStringFunctionValue maxStringLength (transformed S transform s.val) span
        "string fold result"

def parseStr (text : String) : Option (JsonValue F.Number) :=
  match F.json.parse text with
  | none => none
  | some raw => (raw.strict F.parseNumber).attach.map fun doc =>
    ⟨doc.1, (Json.strict_admitted doc.2).1, (Json.strict_admitted doc.2).2⟩

/-- `parse_json_value`; the parser's own text is left out of the message. -/
def parseJsonValue (text : String) (span : SourceSpan) : Evaluated (Value F) :=
  match parseStr text with
  | some j => .ok (.json j)
  | none => .error (.dataException .invalidCharacterValueForCast "STRING value is not valid JSON" span)

def evalJsonParse (value : Value F) (span : SourceSpan) : Evaluated (Value F) :=
  if value.isNull then .ok .null
  else
    match ScalarIndexExpression.textOf value with
    | none => dataException "json_parse argument is not a string" span
    | some s => parseJsonValue s.val span

/-! ### JSON paths -/

/-- `json_signed_array_index`, of any width. -/
def signedArrayIndex (index : ℤ) (len : ℕ) : Option ℕ :=
  if 0 ≤ index then if index.toNat < len then some index.toNat else none
  else if index.natAbs ≤ len then some (len - index.natAbs) else none

/-- `json_decimal_array_index`. -/
def decimalArrayIndex (d : Graph.Decimal) (len : ℕ) (function : String) (span : SourceSpan) :
    Evaluated (Option ℕ) :=
  if d.mantissa % 10 ^ d.scale ≠ 0 then dataException s!"{function} array index is not an integer" span
  else .ok (signedArrayIndex (d.mantissa / 10 ^ d.scale) len)

def jsonArrayIndex (value : Value F) (len : ℕ) (function : String) (span : SourceSpan) :
    Evaluated (Option ℕ) :=
  match value with
  | .int i => .ok (signedArrayIndex i.toInt len)
  | .int128 i => .ok (signedArrayIndex i.toInt len)
  | .uint n => .ok (signedArrayIndex n.toNat len)
  | .uint128 n => .ok (signedArrayIndex n.toNat len)
  | .decimal d => decimalArrayIndex (F.decimalOf d) len function span
  | _ => dataException s!"{function} array index is not an integer" span

def selectJsonChild (j : Json F.Number) (selector : Value F) (function : String) (span : SourceSpan) :
    Evaluated (Option (Json F.Number)) :=
  match j with
  | .object fields =>
    match ScalarIndexExpression.textOf selector with
    | some key => .ok (fields.lookup key.val)
    | none => dataException s!"{function} object key is not a string" span
  | .array items =>
    match jsonArrayIndex selector items.length function span with
    | .error e => .error e
    | .ok none => .ok none
    | .ok (some i) => .ok items[i]?
  | _ => .ok none

/-- The loop over the selectors. -/
def selectJsonArgs (function : String) (span : SourceSpan) :
    Json F.Number → List (Value F) → Evaluated (Option (Json F.Number))
  | j, [] => .ok (some j)
  | j, selector :: selectors =>
    if selector.isNull then .ok none
    else
      match selectJsonChild j selector function span with
      | .error e => .error e
      | .ok none => .ok none
      | .ok (some child) => selectJsonArgs function span child selectors

/-- `json_document_array_index`. -/
def documentArrayIndex (n : F.Number) (len : ℕ) (function : String) (span : SourceSpan) :
    Evaluated (Option ℕ) :=
  match S.asI64 n with
  | some i => .ok (signedArrayIndex i.toInt len)
  | none =>
    match S.asU64 n with
    | some u => .ok (signedArrayIndex u.toNat len)
    | none => dataException s!"{function} path document array index is not an integer" span

def selectJsonDocumentChild (j selector : Json F.Number) (function : String) (span : SourceSpan) :
    Evaluated (Option (Json F.Number)) :=
  match j, selector with
  | .object fields, .string key => .ok (fields.lookup key)
  | .array items, .number n =>
    match documentArrayIndex S n items.length function span with
    | .error e => .error e
    | .ok none => .ok none
    | .ok (some i) => .ok items[i]?
  | .object _, _ => dataException s!"{function} path document object key is not a string" span
  | .array _, _ => dataException s!"{function} path document array index is not an integer" span
  | _, _ => .ok none

def selectJsonDocument (function : String) (span : SourceSpan) :
    Json F.Number → List (Json F.Number) → Evaluated (Option (Json F.Number))
  | j, [] => .ok (some j)
  | j, selector :: selectors =>
    match selectJsonDocumentChild S j selector function span with
    | .error e => .error e
    | .ok none => .ok none
    | .ok (some child) => selectJsonDocument function span child selectors

def selectJsonDocumentPath (j : Json F.Number) (document : JsonValue F.Number) (function : String)
    (span : SourceSpan) : Evaluated (Option (Json F.Number)) :=
  match document.value with
  | .array selectors =>
    if selectors = [] then
      dataException s!"{function} path document must contain at least one selector" span
    else if 64 < selectors.length then
      dataException s!"{function} supports at most 64 path selectors" span
    else selectJsonDocument S function span j selectors
  | _ => dataException s!"{function} path document is not a JSON array" span

/-- The document that stands alone behind the target. -/
def optionalPathDocument : List (Value F) → Option (JsonValue F.Number)
  | [selector] => ScalarIndexExpression.documentOf selector
  | _ => none

/-- `select_json_path`, with `DocumentOrVariadic`. -/
def selectJsonPath (target : Value F) (selectors : List (Value F)) (function : String)
    (span : SourceSpan) : Evaluated (Option (Json F.Number)) :=
  if target.isNull then .ok none
  else
    match ScalarIndexExpression.documentOf target with
    | none => dataException s!"{function} target is not JSON" span
    | some j =>
      match optionalPathDocument selectors with
      | some document => selectJsonDocumentPath S j.value document function span
      | none => selectJsonArgs function span j.value selectors

def selectedJsonText (j : Json F.Number) (span : SourceSpan) : Evaluated (Value F) :=
  match j with
  | .null => .ok .null
  | .string s => stringValue s span
  | other =>
    if other.validate then stringValue (F.json.print other) span
    else dataException "selected JSON value is invalid" span

def jsonScalarNumber (n : F.Number) (function : String) (span : SourceSpan) : Evaluated (Value F) :=
  match S.asI64 n, S.asU64 n, (S.asF64 n).filter isFinite64 with
  | some i, _, _ => .ok (.int i)
  | none, some u, _ => .ok (.uint u)
  | none, none, some bits => .ok (.float bits)
  | none, none, none =>
    dataException s!"{function} selected JSON number is outside supported scalar ranges" span

def selectedJsonScalar (j : Json F.Number) (function : String) (span : SourceSpan) :
    Evaluated (Value F) :=
  match j with
  | .null => .ok .null
  | .bool b => .ok (.bool b)
  | .number n => jsonScalarNumber S n function span
  | .string s => stringValue s span
  | .array _ | .object _ => dataException s!"{function} selected value is not a JSON scalar" span

/-- A selection that finds nothing is null. -/
def orNull (finish : Json F.Number → Evaluated (Value F)) :
    Evaluated (Option (Json F.Number)) → Evaluated (Value F)
  | .error e => .error e
  | .ok none => .ok .null
  | .ok (some j) => finish j

def evalJsonGetPathText (target : Value F) (selectors : List (Value F)) (span : SourceSpan) :
    Evaluated (Value F) :=
  orNull (fun j => selectedJsonText j span)
    (selectJsonPath S target selectors "json_get_path_text" span)

def evalJsonGetPathScalar (target : Value F) (selectors : List (Value F)) (span : SourceSpan) :
    Evaluated (Value F) :=
  orNull (fun j => selectedJsonScalar S j "json_get_path_scalar" span)
    (selectJsonPath S target selectors "json_get_path_scalar" span)

/-! ### The dispatch -/

inductive ScalarFunction where
  | upper
  | lower
  | jsonParse
  | jsonGetPathText
  | jsonGetPathScalar
deriving DecidableEq

/-- The arms of `eval_function_call` that are written out. -/
def ScalarFunction.ofName (segment : String) : Option ScalarFunction :=
  if segment = "upper" then some .upper
  else if segment = "lower" then some .lower
  else if segment = "json" ∨ segment = "json_parse" then some .jsonParse
  else if segment = "json_get_path_text" then some .jsonGetPathText
  else if segment = "json_get_path_scalar" then some .jsonGetPathScalar
  else none

/-- The least and the largest number of arguments, and how an error words them. -/
def ScalarFunction.arity : ScalarFunction → ℕ × ℕ × String
  | upper | lower | jsonParse => (1, 1, "1")
  | jsonGetPathText | jsonGetPathScalar => (2, 65, "2 to 65")

/-- A function on its arguments, the first of which is `value`. -/
def ScalarFunction.run (f : ScalarFunction) (value : Value F) (rest : List (Value F)) (span : SourceSpan) :
    Evaluated (Value F) :=
  match f with
  | upper => evalStringTransform S maxStringLength S.toUppercase value span
  | lower => evalStringTransform S maxStringLength S.toLowercase value span
  | jsonParse => evalJsonParse value span
  | jsonGetPathText => evalJsonGetPathText S value rest span
  | jsonGetPathScalar => evalJsonGetPathScalar S value rest span

end Functions

/-- `single_segment_name`, in ASCII lower case. -/
def singleSegmentName : List DbString → Option String
  | [segment] => some segment.val.toLower
  | _ => none

def displayName (name : List DbString) : String := ".".intercalate (name.map Subtype.val)

def propertyAccess (ctx : EvalCtx F ε) (target : Value F) (key : DbString) (span : SourceSpan) :
    Evaluated (Value F) :=
  match target with
  | .null => .ok .null
  | .nodeRef id =>
    match ctx.nodeProperties id with
    | none => .error (.dataException .invalidReferenceValue "referenced graph element has been deleted" span)
    | some properties => .ok ((properties key).getD .null)
  | target => ctx.access target key span

def checkedNeg (i : Int64) : Option Int64 := if i = Int64.minValue then none else some (-i)

/-- `eval_unary`, on integers. -/
def evalUnary (ctx : EvalCtx F ε) (op : UnaryOp) (value : Value F) (span : SourceSpan) :
    Evaluated (Value F) :=
  match op, value with
  | .negate, .int i =>
    match checkedNeg i with
    | some n => .ok (.int n)
    | none => .error (.dataException .numericValueOutOfRange
        "negation overflow: result is out of the signed integer range" span)
  | op, value => ctx.unary op value span

def evalCast (ctx : EvalCtx F ε) (value : Value F) (target : GqlType) (span : SourceSpan) :
    Evaluated (Value F) :=
  match target with
  | .other name => ctx.castTo name value span
  | .json =>
    match value with
    | .null => .ok .null
    | .json j => .ok (.json j)
    | .string s => parseJsonValue s.val span
    | value => ctx.castTo "JSON" value span

section Evaluate

variable (S : Shared F) (ctx : EvalCtx F ε)

mutual

def evaluate : ValueExpr F ε → Evaluated (Value F)
  | .literal l => .ok l.value
  | .var name span => ctx.lookup name span
  | .propertyAccess target key span =>
    match evaluate target with
    | .error e => .error e
    | .ok value => propertyAccess ctx value key span
  | .unaryOp op operand span =>
    match evaluate operand with
    | .error e => .error e
    | .ok value => evalUnary ctx op value span
  | .functionCall name args star distinct span =>
    if star then .error (.invalidFunctionModifier (displayName name) "*" span)
    else if distinct then .error (.invalidFunctionModifier (displayName name) "DISTINCT" span)
    else
      match singleSegmentName name with
      | none => .error (.unknownFunction (displayName name) span)
      | some segment =>
        match ScalarFunction.ofName segment with
        | none => ctx.call segment args span
        | some f =>
          if args.length < f.arity.1 ∨ f.arity.2.1 < args.length then
            .error (.functionArityMismatch (displayName name) f.arity.2.2 args.length span)
          else
            match evaluateAll args with
            | .error e => .error e
            | .ok [] => .error (.functionArityMismatch (displayName name) f.arity.2.2 0 span)
            | .ok (value :: rest) => f.run S ctx.maxStringLength value rest span
  | .cast value target span =>
    match evaluate value with
    | .error e => .error e
    | .ok value => evalCast ctx value target span
  | .other form => ctx.form form

def evaluateAll : List (ValueExpr F ε) → Evaluated (List (Value F))
  | [] => .ok []
  | arg :: args =>
    match evaluate arg with
    | .error e => .error e
    | .ok value =>
      match evaluateAll args with
      | .error e => .error e
      | .ok values => .ok (value :: values)

end

end Evaluate

/-! ## The analyzed expression -/

/-- `ExpressionKind`, as far as the compiler looks at it. -/
inductive ExpressionKind (F : Foreign) where
  | literal (literal : Literal F)
  | binding (id : ℕ)
  | property (key : DbString)
  | function (name : List DbString) (star distinct : Bool)
  | unary (op : UnaryOp)
  | cast (target : GqlType)
  | other

structure SemanticExpression (F : Foreign) where
  kind : ExpressionKind F
  children : List ℕ

inductive TypeKind where
  | dynamic
  | scalar
  | other
deriving DecidableEq

/-- `SemanticTree`: the expressions by their ids, and the kinds of their types. -/
structure SemanticTree (F : Foreign) where
  expressions : List (SemanticExpression F)
  typeKind : ℕ → TypeKind

section Holds

variable (tree : SemanticTree F) (resolve : DbString → ℕ)

mutual

/-- The tree holds the expression under an id, as `SemanticExpression::new` has put it there;
`resolve` is the binding a name stands for. -/
def Holds : ValueExpr F ε → ℕ → Prop
  | .literal l, id => tree.expressions[id]? = some ⟨.literal l, []⟩
  | .var name _, id => tree.expressions[id]? = some ⟨.binding (resolve name), []⟩
  | .propertyAccess target key _, id =>
    ∃ child, tree.expressions[id]? = some ⟨.property key, [child]⟩ ∧ Holds target child
  | .unaryOp op operand _, id =>
    ∃ child, tree.expressions[id]? = some ⟨.unary op, [child]⟩ ∧ Holds operand child
  | .functionCall name args star distinct _, id =>
    ∃ ids, tree.expressions[id]? = some ⟨.function name star distinct, ids⟩ ∧ HoldsAll args ids
  | .cast value target _, id =>
    ∃ child, tree.expressions[id]? = some ⟨.cast target, [child]⟩ ∧ Holds value child
  | .other _, id => ∃ ids, tree.expressions[id]? = some ⟨.other, ids⟩

def HoldsAll : List (ValueExpr F ε) → List ℕ → Prop
  | [], ids => ids = []
  | arg :: args, ids => ∃ id rest, ids = id :: rest ∧ Holds arg id ∧ HoldsAll args rest

end

end Holds

/-! ## The compiler -/

section Compile

variable (S : Shared F) (tree : SemanticTree F)

/-- Whether the node is a JSON document written as a cast or a call of `json_parse`. -/
def isDocument : ExpressionKind F → Bool
  | .cast .json => true
  | .function name false false =>
    match singleSegmentName name with
    | some segment => segment = "json" ∨ segment = "json_parse"
    | none => false
  | _ => false

/-- The text of a document node, when it is a literal. -/
def documentText (id : ℕ) : Option DbString :=
  match tree.expressions[id]? with
  | some ⟨kind, [child]⟩ =>
    if isDocument kind then
      match tree.expressions[child]? with
      | some ⟨.literal (.string text), _⟩ => some text
      | _ => none
    else none
  | _ => none

/-- A selector of a path document. -/
def documentSelector : Json F.Number → Option ScalarIndexSelector
  | .string key => some (.key key)
  | .number n => (S.asI64 n).map .index
  | _ => none

/-- The selectors of a path document. -/
def documentSelectors (text : DbString) : Option (List ScalarIndexSelector) :=
  match parseStr (F := F) text.val with
  | some ⟨.array values, _, _⟩ =>
    if 1 ≤ values.length ∧ values.length ≤ 64 then values.mapM (documentSelector S) else none
  | _ => none

/-- A selector written as a literal. -/
def literalSelector (id : ℕ) : Option ScalarIndexSelector :=
  match tree.expressions[id]? with
  | some ⟨.literal (.string key), _⟩ => some (.key key.val)
  | some ⟨.literal (.integer i), _⟩ => some (.index i)
  | some ⟨.unary .negate, [child]⟩ =>
    match tree.expressions[child]? with
    | some ⟨.literal (.integer i), _⟩ => (checkedNeg i).map .index
    | _ => none
  | _ => none

def selectors (ids : List ℕ) : Option (List ScalarIndexSelector) :=
  if ¬ (1 ≤ ids.length ∧ ids.length ≤ 64) then none
  else
    match ids with
    | [id] =>
      match documentText tree id with
      | some text => documentSelectors S text
      | none => [id].mapM (literalSelector tree)
    | ids => ids.mapM (literalSelector tree)

/-- The operation of a function call, from its name and the ids behind its first argument. -/
def operationOf (segment : String) (rest : List ℕ) : Option ScalarIndexOperation :=
  if segment = "lower" then if rest = [] then some .lower else none
  else if segment = "upper" then if rest = [] then some .upper else none
  else if segment = "json_get_path_scalar" then (selectors S tree rest).map .jsonScalarPath
  else if segment = "json_get_path_text" then (selectors S tree rest).map .jsonTextPath
  else none

/-- `compile`, with the levels that are left of the sixteen. -/
def compile : ℕ → ℕ → Option (ℕ × ScalarIndexExpression)
  | 0, _ => none
  | level + 1, id =>
    match tree.expressions[id]? with
    | none => none
    | some node =>
      if tree.typeKind id = .other then none
      else
        match node.kind with
        | .property key =>
          match node.children with
          | [child] =>
            match tree.expressions[child]? with
            | some ⟨.binding b, _⟩ => some (b, ⟨1, key.val, []⟩)
            | _ => none
          | _ => none
        | .function name false false =>
          match singleSegmentName name, node.children with
          | some segment, first :: rest =>
            match compile level first with
            | none => none
            | some (b, e) =>
              match operationOf S tree segment rest with
              | none => none
              | some operation => some (b, { e with operations := e.operations ++ [operation] })
          | _, _ => none
        | _ => none

/-- `from_source`: depth 0 to 16. -/
def fromSource (id : ℕ) : Option (ℕ × ScalarIndexExpression) :=
  match compile S tree 17 id with
  | some (b, e) => if e.isValid then some (b, e) else none
  | none => none

end Compile

end Selene.Query.Indexing
