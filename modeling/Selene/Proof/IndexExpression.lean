import Selene.Proof.ValueRoundTrip
import Selene.Query.IndexExpression

/-!
# Index expressions against queries

An expression index and the query runtime evaluate the same expression with code of their own.
`Meaning` is what the compiler keeps of a query expression: the operations it lists are the calls
of the expression, innermost first, with their arguments evaluated. Operation by operation the two
agree on JSON paths without condition, and on a case mapping exactly when the runtime's
normalisation changes nothing.
-/

namespace Selene.Query.Indexing

open Selene.Core List Option ScalarIndexExpression Nat

variable {F : Foreign} {ε : Type} {S : Shared F}

variable {key s : DbString} {path : List ScalarIndexSelector} {selector : ScalarIndexSelector}
  {transform : String → String} {value : Value F}

/-! ## Answers -/

/-- Two computations return the same; their errors may differ. -/
def Same {ε₁ ε₂ α : Type} (x : Except ε₁ α) (y : Except ε₂ α) : Prop := ∀ a, x = .ok a ↔ y = .ok a

namespace Same

variable {ε₁ ε₂ α : Type} {x : Except ε₁ α} {y : Except ε₂ α}

theorem ok (a : α) : Same (.ok a : Except ε₁ α) (.ok a : Except ε₂ α) := by
  intro b
  simp

theorem error (e1 : ε₁) (e2 : ε₂) : Same (.error e1 : Except ε₁ α) (.error e2 : Except ε₂ α) := by
  intro b
  simp

theorem ok_iff {a b : α} : Same (.ok a : Except ε₁ α) (.ok b : Except ε₂ α) ↔ a = b := by
  constructor
  · intro h
    exact (Except.ok.inj ((h a).1 rfl)).symm
  · intro h
    rw [h]
    exact ok b

theorem cases (h : Same x y) : (∃ a, x = .ok a ∧ y = .ok a) ∨ ∃ e1 e2, x = .error e1 ∧ y = .error e2 := by
  cases hx : x with
  | ok a => exact .inl ⟨a, rfl, (h a).1 hx⟩
  | error e1 =>
    cases hy : y with
    | ok a => exact absurd ((h a).2 hy) (by rw [hx]; simp)
    | error e2 => exact .inr ⟨e1, e2, rfl, rfl⟩

end Same

/-! ## JSON paths -/

variable (function : String) (span : SourceSpan)

theorem getElem_arrayPosition {α : Type} (items : List α) (i : Int64) :
    (arrayPosition i items.length).bind (items[·]?) =
      (signedArrayIndex i.toInt items.length).bind (items[·]?) := by
  unfold arrayPosition signedArrayIndex
  split
  · split
    · rfl
    · rename_i hlen
      exact getElem?_eq_none (by omega)
  · rfl

/-- The argument that stands for a selector. -/
inductive Argument : ScalarIndexSelector → Value F → Prop
  | key (k : DbString) : Argument (.key k.val) (.string k)
  | index (i : Int64) : Argument (.index i) (.int i)

theorem selectChild_argument (h : Argument selector value) (j : Json F.Number) :
    Same (selectChild j selector) (selectJsonChild j value function span) := by
  cases h with
  | key k =>
    cases j with
    | object fields => exact Same.ok _
    | array items => exact Same.error _ _
    | _ => exact Same.ok _
  | index i =>
    cases j with
    | object fields => exact Same.error _ _
    | array items =>
      have hplace := getElem_arrayPosition items i
      rw [selectChild, selectJsonChild, jsonArrayIndex, hplace]
      cases signedArrayIndex i.toInt items.length with
      | none => exact Same.ok _
      | some place => exact Same.ok _
    | _ => exact Same.ok _

theorem selectPath_arguments {values : List (Value F)}
    (h : List.Forall₂ Argument path values) : ∀ j : Json F.Number,
    Same (selectPath j path) (selectJsonArgs function span j values) := by
  induction h with
  | nil => exact fun j => Same.ok _
  | @cons selector value path values hs hrest ih =>
    intro j
    have hnull : value.isNull = false := by cases hs <;> rfl
    rw [selectPath, selectJsonArgs, if_neg (by rw [hnull]; decide)]
    obtain ⟨child, hx, hy⟩ | ⟨e1, e2, hx, hy⟩ := (selectChild_argument function span hs j).cases
    · rw [hx, hy]
      cases child with
      | none => exact Same.ok _
      | some child => exact ih child
    · rw [hx, hy]
      exact Same.error _ _

theorem selectChild_document {document : Json F.Number}
    (h : documentSelector S document = some selector) (j : Json F.Number) :
    Same (selectChild j selector) (selectJsonDocumentChild S j document function span) := by
  cases document with
  | string key =>
    cases h
    cases j with
    | object fields => exact Same.ok _
    | array items => exact Same.error _ _
    | _ => exact Same.ok _
  | number n =>
    obtain ⟨i, hi, rfl⟩ := map_eq_some_iff.1 h
    cases j with
    | object fields => exact Same.error _ _
    | array items =>
      have hplace := getElem_arrayPosition items i
      have hindex : documentArrayIndex S n items.length function span =
          .ok (signedArrayIndex i.toInt items.length) := by rw [documentArrayIndex, hi]
      rw [selectChild, selectJsonDocumentChild, hindex, hplace]
      cases signedArrayIndex i.toInt items.length with
      | none => exact Same.ok _
      | some place => exact Same.ok _
    | _ => exact Same.ok _
  | _ => cases h

theorem selectPath_document {documents : List (Json F.Number)}
    (h : List.Forall₂ (fun selector document => documentSelector S document = some selector) path
      documents) : ∀ j : Json F.Number,
    Same (selectPath j path) (selectJsonDocument S function span j documents) := by
  induction h with
  | nil => exact fun j => Same.ok _
  | cons hs hrest ih =>
    intro j
    rw [selectPath, selectJsonDocument]
    obtain ⟨child, hx, hy⟩ | ⟨e1, e2, hx, hy⟩ := (selectChild_document function span hs j).cases
    · rw [hx, hy]
      cases child with
      | none => exact Same.ok _
      | some child => exact ih child
    · rw [hx, hy]
      exact Same.error _ _

/-! ## Operations -/

/-- The arguments behind the target that stand for a path. -/
def Arguments (S : Shared F) (path : List ScalarIndexSelector) (values : List (Value F)) : Prop :=
  List.Forall₂ Argument path values ∨
    ∃ document documents, values = [.json document] ∧ document.value = .array documents ∧
      documents ≠ [] ∧ documents.length ≤ 64 ∧
      List.Forall₂ (fun selector j => documentSelector S j = some selector) path documents

theorem selectPath_same {values : List (Value F)}
    (h : Arguments S path values) (target : JsonValue F.Number) :
    Same (selectPath target.value path) (selectJsonPath S (.json target) values function span) := by
  rcases h with h | ⟨document, documents, rfl, hdocument, hnonempty, hlen, h⟩
  · have hplain : optionalPathDocument values = none := by
      cases h with
      | nil => rfl
      | cons hs hrest =>
        cases hrest with
        | nil => cases hs <;> rfl
        | cons _ _ => rfl
    have hselect : selectJsonPath S (.json target) values function span =
        selectJsonArgs function span target.value values := by
      simp [selectJsonPath, Value.isNull, documentOf, hplain]
    rw [hselect]
    exact selectPath_arguments function span h target.value
  · have hselect : selectJsonPath S (.json target) [.json document] function span =
        selectJsonDocument S function span target.value documents := by
      simp [selectJsonPath, Value.isNull, documentOf, optionalPathDocument,
        selectJsonDocumentPath, hdocument, hnonempty, hlen]
    rw [hselect]
    exact selectPath_document function span h target.value

theorem stringResult_same (text : String) :
    Same (stringResult text : Except _ (Value F)) (stringValue text span) := by
  unfold stringResult stringValue
  cases Selene.Core.dbString text with
  | some s => exact Same.ok _
  | none => exact Same.error _ _

theorem selected_text_same (j : Json F.Number) :
    Same (selected S true j) (selectedJsonText j span) := by
  have hprinted : Same (if j.validate then stringResult (F.json.print j)
      else .error .range : Except _ (Value F))
      (if j.validate then stringValue (F.json.print j) span
        else dataException "selected JSON value is invalid" span) := by
    split
    · exact stringResult_same span _
    · exact Same.error _ _
  cases j with
  | null => exact Same.ok _
  | string s => exact stringResult_same span s
  | _ => exact hprinted

theorem selected_scalar_same (j : Json F.Number) :
    Same (selected S false j) (selectedJsonScalar S j function span) := by
  cases j with
  | null => exact Same.ok _
  | bool b => exact Same.ok _
  | string s => exact stringResult_same span s
  | number n =>
    show Same (numberResult S n) (jsonScalarNumber S n function span)
    unfold numberResult jsonScalarNumber
    cases S.asI64 n with
    | some i => exact Same.ok _
    | none =>
      cases S.asU64 n with
      | some u => exact Same.ok _
      | none =>
        cases (S.asF64 n).filter isFinite64 with
        | some bits => exact Same.ok _
        | none => exact Same.error _ _
  | array items => exact Same.error _ _
  | object fields => exact Same.error _ _

/-- The case mapping of an operation. -/
def transformOf (S : Shared F) : ScalarIndexOperation → Option (String → String)
  | .lower => some S.toLowercase
  | .upper => some S.toUppercase
  | _ => none

/-- The function and its further arguments that an operation comes from. -/
inductive Spells (S : Shared F) : ScalarFunction → List (Value F) → ScalarIndexOperation → Prop
  | lower : Spells S .lower [] .lower
  | upper : Spells S .upper [] .upper
  | scalarPath {path : List ScalarIndexSelector} {values : List (Value F)}
    (h : Arguments S path values) : Spells S .jsonGetPathScalar values (.jsonScalarPath path)
  | textPath {path : List ScalarIndexSelector} {values : List (Value F)}
    (h : Arguments S path values) : Spells S .jsonGetPathText values (.jsonTextPath path)

variable {f : ScalarFunction} {values : List (Value F)} {op : ScalarIndexOperation} {cap : UInt32}

theorem run_null (h : Spells S f values op) : f.run S cap .null values span = .ok .null := by
  cases h <;> rfl

theorem json_of_documentOf {j : JsonValue F.Number}
    (h : documentOf value = some j) : value = .json j := by
  cases value <;> first | (cases h; rfl) | cases h

theorem string_of_textOf (h : textOf value = some s) : value = .string s := by
  cases value <;> first | (cases h; rfl) | cases h

theorem extract_same {text : Bool} {finish : Json F.Number → Evaluated (Value F)}
    (hfinish : ∀ j, Same (selected S text j) (finish j))
    (h : Arguments S path values) (hvalue : value.isNull = false) :
    Same (applyPath S path text value)
      (orNull finish (selectJsonPath S value values function span)) := by
  unfold applyPath
  cases hdocument : documentOf value with
  | none =>
    have hselect : selectJsonPath S value values function span =
        dataException s!"{function} target is not JSON" span := by
      simp [selectJsonPath, hvalue, hdocument]
    rw [hselect]
    exact Same.error _ _
  | some target =>
    obtain rfl := json_of_documentOf hdocument
    show Same (ScalarIndexExpression.extract S target.value path text) _
    unfold ScalarIndexExpression.extract
    obtain ⟨child, hx, hy⟩ | ⟨e1, e2, hx, hy⟩ := (selectPath_same function span h target).cases
    · rw [hx, hy]
      cases child with
      | none => exact Same.ok _
      | some j => exact hfinish j
    · rw [hx, hy]
      exact Same.error _ _

theorem apply_path_same (h : Spells S f values op) (hop : transformOf S op = none)
    (hvalue : value.isNull = false) : Same (apply S op value) (f.run S cap value values span) := by
  cases h with
  | lower => cases hop
  | upper => cases hop
  | scalarPath h => exact extract_same _ span (selected_scalar_same _ span) h hvalue
  | textPath h => exact extract_same _ span (selected_text_same span) h hvalue

/-- A text within both caps. -/
def Fits (cap : UInt32) (text : String) : Prop :=
  text.length ≤ cap.toNat ∧ text.utf8ByteSize ≤ maxStringBytes

theorem apply_case (cap : UInt32) (h : Spells S f values op)
    (hop : transformOf S op = some transform) (value : Value F) :
    apply S op value = applyCase transform value ∧
      f.run S cap value values span = evalStringTransform S cap transform value span := by
  cases h with
  | lower | upper =>
    cases hop
    exact ⟨rfl, rfl⟩
  | scalarPath h => cases hop
  | textPath h => cases hop

section

variable (h : Spells S f values op) (hop : transformOf S op = some transform)
include h hop

/-- A case mapping differs exactly where the runtime's normalisation changes the text. -/
theorem apply_string_same (hplain : Fits cap (transform s.val))
    (hnormal : Fits cap (transformed S transform s.val)) :
    Same (apply S op (.string s)) (f.run S cap (.string s) values span) ↔
      transform s.val = transformed S transform s.val := by
  obtain ⟨happly, hrun⟩ := apply_case span cap h hop (.string s)
  have hx : applyCase transform (.string s : Value F) =
      .ok (.string ⟨transform s.val, hplain.2⟩) := by
    simp [applyCase, textOf, stringResult, Selene.Core.dbString, hplain.2]
  have hy : evalStringTransform S cap transform (.string s : Value F) span =
      .ok (.string ⟨transformed S transform s.val, hnormal.2⟩) := by
    have hlen : ¬ cap.toNat < (transformed S transform s.val).length := by
      have := hnormal.1
      omega
    simp [evalStringTransform, Value.isNull, textOf, cappedStringFunctionValue,
      Selene.Core.dbString, hnormal.2, hlen]
  rw [happly, hrun, hx, hy, Same.ok_iff]
  simp

theorem apply_other_same (hvalue : value.isNull = false)
    (htext : textOf value = none) : Same (apply S op value) (f.run S cap value values span) := by
  obtain ⟨happly, hrun⟩ := apply_case span cap h hop value
  rw [happly, hrun, applyCase, evalStringTransform, htext, hvalue]
  exact Same.error _ _

end

/-! ## Calls -/

section Call

variable {ctx : EvalCtx F ε} {name : List DbString} {segment : String} {first : ValueExpr F ε}
  {args : List (ValueExpr F ε)} (hname : singleSegmentName name = some segment)
  (hf : ScalarFunction.ofName segment = some f)
  (harity : f.arity.1 ≤ args.length + 1 ∧ args.length + 1 ≤ f.arity.2.1)

include hname hf harity

theorem evaluate_call (hargs : evaluateAll S ctx args = .ok values)
    (hfirst : evaluate S ctx first = .ok value) :
    evaluate S ctx (.functionCall name (first :: args) false false span) =
      f.run S ctx.maxStringLength value values span := by
  have hcount : ¬ ((first :: args).length < f.arity.1 ∨ f.arity.2.1 < (first :: args).length) := by
    rw [length_cons]
    omega
  simp only [evaluate, hname, hf, if_neg hcount, evaluateAll, hargs, hfirst, Bool.false_eq_true,
    if_false]

theorem evaluate_call_error {e : ExecutorError} (hfirst : evaluate S ctx first = .error e) :
    evaluate S ctx (.functionCall name (first :: args) false false span) = .error e := by
  have hcount : ¬ ((first :: args).length < f.arity.1 ∨ f.arity.2.1 < (first :: args).length) := by
    rw [length_cons]
    omega
  simp only [evaluate, hname, hf, if_neg hcount, evaluateAll, hfirst, Bool.false_eq_true, if_false]

end Call

/-! ## What the compiler keeps -/

variable {resolve : DbString → ℕ} {b : ℕ}

/-- The expression is this property of the binding, under the calls that the operations list. -/
inductive Meaning (S : Shared F) (resolve : DbString → ℕ) (b : ℕ) :
    ValueExpr F ε → DbString → List ScalarIndexOperation → Prop
  | property {name key : DbString} {span₁ span₂ : SourceSpan} (h : resolve name = b) :
    Meaning S resolve b (.propertyAccess (.var name span₁) key span₂) key []
  | call {name : List DbString} {segment : String} {f : ScalarFunction} {first : ValueExpr F ε}
    {args : List (ValueExpr F ε)} {values : List (Value F)} {span : SourceSpan} {key : DbString}
    {operations : List ScalarIndexOperation} {op : ScalarIndexOperation}
    (hfirst : Meaning S resolve b first key operations)
    (hname : singleSegmentName name = some segment) (hf : ScalarFunction.ofName segment = some f)
    (harity : f.arity.1 ≤ args.length + 1 ∧ args.length + 1 ≤ f.arity.2.1)
    (hargs : ∀ ctx : EvalCtx F ε, evaluateAll S ctx args = .ok values) (hop : Spells S f values op) :
    Meaning S resolve b (.functionCall name (first :: args) false false span) key (operations ++ [op])

variable {tree : SemanticTree F}

section Holds

variable {id : ℕ} {ids : List ℕ} {expr : ValueExpr F ε}

theorem holds_literal {l : Literal F} (h : tree.expressions[id]? = some ⟨.literal l, ids⟩)
    (hexpr : Holds tree resolve expr id) : expr = .literal l := by
  cases expr with
  | literal l' =>
    rw [Holds, h] at hexpr
    cases hexpr
    rfl
  | _ => simp [Holds, h] at hexpr

theorem holds_binding (h : tree.expressions[id]? = some ⟨.binding b, ids⟩)
    (hexpr : Holds tree resolve expr id) : ∃ name span, expr = .var name span ∧ resolve name = b := by
  cases expr with
  | var name span =>
    rw [Holds, h] at hexpr
    cases hexpr
    exact ⟨name, span, rfl, rfl⟩
  | _ => simp [Holds, h] at hexpr

theorem holds_property (h : tree.expressions[id]? = some ⟨.property key, ids⟩)
    (hexpr : Holds tree resolve expr id) : ∃ target span child,
      expr = .propertyAccess target key span ∧ ids = [child] ∧ Holds tree resolve target child := by
  cases expr with
  | propertyAccess target key' span =>
    obtain ⟨child, hnode, htarget⟩ := hexpr
    rw [h] at hnode
    cases hnode
    exact ⟨target, span, child, rfl, rfl, htarget⟩
  | _ => simp [Holds, h] at hexpr

theorem holds_unary {op : UnaryOp} (h : tree.expressions[id]? = some ⟨.unary op, ids⟩)
    (hexpr : Holds tree resolve expr id) : ∃ operand span child,
      expr = .unaryOp op operand span ∧ ids = [child] ∧ Holds tree resolve operand child := by
  cases expr with
  | unaryOp op' operand span =>
    obtain ⟨child, hnode, hoperand⟩ := hexpr
    rw [h] at hnode
    cases hnode
    exact ⟨operand, span, child, rfl, rfl, hoperand⟩
  | _ => simp [Holds, h] at hexpr

theorem holds_cast {target : GqlType} (h : tree.expressions[id]? = some ⟨.cast target, ids⟩)
    (hexpr : Holds tree resolve expr id) : ∃ value span child,
      expr = .cast value target span ∧ ids = [child] ∧ Holds tree resolve value child := by
  cases expr with
  | cast value target' span =>
    obtain ⟨child, hnode, hvalue⟩ := hexpr
    rw [h] at hnode
    cases hnode
    exact ⟨value, span, child, rfl, rfl, hvalue⟩
  | _ => simp [Holds, h] at hexpr

theorem holds_function {name : List DbString} {star distinct : Bool}
    (h : tree.expressions[id]? = some ⟨.function name star distinct, ids⟩)
    (hexpr : Holds tree resolve expr id) : ∃ args span,
      expr = .functionCall name args star distinct span ∧ HoldsAll tree resolve args ids := by
  cases expr with
  | functionCall name' args star' distinct' span =>
    obtain ⟨ids', hnode, hargs⟩ := hexpr
    rw [h] at hnode
    cases hnode
    exact ⟨args, span, rfl, hargs⟩
  | _ => simp [Holds, h] at hexpr

end Holds

theorem length_holdsAll : ∀ {args : List (ValueExpr F ε)} {ids : List ℕ},
    HoldsAll tree resolve args ids → args.length = ids.length
  | [], ids, h => by
    obtain rfl : ids = [] := h
    rfl
  | arg :: args, ids, h => by
    obtain ⟨id, rest, rfl, -, hrest⟩ := h
    rw [length_cons, length_cons, length_holdsAll hrest]

theorem holdsAll_singleton {args : List (ValueExpr F ε)} {id : ℕ}
    (h : HoldsAll tree resolve args [id]) : ∃ arg, args = [arg] ∧ Holds tree resolve arg id := by
  cases args with
  | nil => cases h
  | cons arg args =>
    obtain ⟨id', rest, hids, harg, hrest⟩ := h
    cases hids
    have hlen := length_holdsAll hrest
    exact ⟨arg, by rw [length_eq_zero_iff.1 hlen], harg⟩

theorem literalSelector_argument {id : ℕ} {expr : ValueExpr F ε}
    (h : literalSelector tree id = some selector) (hexpr : Holds tree resolve expr id) :
    ∃ value : Value F, Argument selector value ∧ ∀ ctx, evaluate S ctx expr = .ok value := by
  unfold literalSelector at h
  split at h
  · rename_i key ids hnode
    cases h
    obtain rfl := holds_literal hnode hexpr
    exact ⟨_, Argument.key key, fun _ => rfl⟩
  · rename_i i ids hnode
    cases h
    obtain rfl := holds_literal hnode hexpr
    exact ⟨_, Argument.index i, fun _ => rfl⟩
  · rename_i child hnode
    obtain ⟨operand, span, child', rfl, hids, hoperand⟩ := holds_unary hnode hexpr
    cases hids
    split at h
    · rename_i i ids hchild
      obtain rfl := holds_literal hchild hoperand
      obtain ⟨n, hn, rfl⟩ := map_eq_some_iff.1 h
      refine ⟨_, Argument.index n, fun ctx => ?_⟩
      have hneg : evalUnary ctx .negate (.int i : Value F) span = .ok (.int n) := by
        rw [evalUnary, hn]
      exact hneg
    · cases h
  · cases h

theorem literalSelectors_arguments : ∀ {ids : List ℕ} {args : List (ValueExpr F ε)}
    {path : List ScalarIndexSelector}, ids.mapM (literalSelector tree) = some path →
    HoldsAll tree resolve args ids →
    ∃ values : List (Value F), List.Forall₂ Argument path values ∧
      ∀ ctx, evaluateAll S ctx args = .ok values
  | [], args, path, h, hargs => by
    cases args with
    | nil =>
      cases h
      exact ⟨[], .nil, fun _ => rfl⟩
    | cons arg args =>
      obtain ⟨id, rest, hids, -⟩ := hargs
      cases hids
  | id :: ids, args, path, h, hargs => by
    cases args with
    | nil => cases hargs
    | cons arg args =>
      obtain ⟨id', rest, hids, harg, hrest⟩ := hargs
      cases hids
      rw [mapM_cons] at h
      obtain ⟨selector, hs, h⟩ := bind_eq_some_iff.1 h
      obtain ⟨path', hpath, hp⟩ := bind_eq_some_iff.1 h
      cases hp
      obtain ⟨value, hvalue, heval⟩ := literalSelector_argument (S := S) hs harg
      obtain ⟨values, hvalues, hevals⟩ := literalSelectors_arguments hpath hrest
      refine ⟨value :: values, .cons hvalue hvalues, fun ctx => ?_⟩
      rw [evaluateAll, heval, hevals]

theorem documentSelectors_arguments {text : DbString} (h : documentSelectors S text = some path) :
    ∃ document : JsonValue F.Number, parseStr text.val = some document ∧ Arguments S path [.json document] := by
  unfold documentSelectors at h
  split at h
  · rename_i documents _ _ hparse
    split at h
    · rename_i hlen
      refine ⟨_, hparse, .inr ⟨_, documents, rfl, rfl, ?_, hlen.2, (mapM_eq_some_iff.1 h).flip⟩⟩
      intro hnil
      rw [hnil] at hlen
      exact absurd hlen.1 (not_succ_le_zero 0)
    · cases h
  · cases h

theorem ofName_jsonParse {segment : String} (h : segment = "json" ∨ segment = "json_parse") :
    ScalarFunction.ofName segment = some .jsonParse := by
  rcases h with rfl | rfl <;> decide

theorem documentText_evaluate {id : ℕ} {expr : ValueExpr F ε} {text : DbString}
    (h : documentText tree id = some text) (hexpr : Holds tree resolve expr id) (ctx : EvalCtx F ε)
    {document : JsonValue F.Number} (hparse : parseStr text.val = some document) :
    evaluate S ctx expr = .ok (.json document) := by
  have hjson : ∀ span, parseJsonValue (F := F) text.val span = .ok (.json document) := by
    intro span
    rw [parseJsonValue, hparse]
  unfold documentText at h
  split at h
  · rename_i kind child hnode
    split at h
    · rename_i hdocument
      split at h
      · rename_i text' ids hchild
        cases h
        unfold isDocument at hdocument
        split at hdocument
        · obtain ⟨value, span, child', rfl, hids, hvalue⟩ := holds_cast hnode hexpr
          cases hids
          obtain rfl := holds_literal hchild hvalue
          exact hjson span
        · rename_i name
          obtain ⟨args, span, rfl, hargs⟩ := holds_function hnode hexpr
          split at hdocument
          · rename_i segment hname
            obtain ⟨arg, rfl, harg⟩ := holdsAll_singleton hargs
            obtain rfl := holds_literal hchild harg
            have hf := ofName_jsonParse (of_decide_eq_true hdocument)
            rw [evaluate_call span hname hf ⟨le_rfl, le_rfl⟩ rfl rfl]
            exact hjson span
          · cases hdocument
        · cases hdocument
      · cases h
    · cases h
  · cases h

theorem selectors_arguments {ids : List ℕ} {args : List (ValueExpr F ε)}
    (h : selectors S tree ids = some path) (hargs : HoldsAll tree resolve args ids) :
    ∃ values : List (Value F), Arguments S path values ∧
      (2 ≤ args.length + 1 ∧ args.length + 1 ≤ 65) ∧ ∀ ctx, evaluateAll S ctx args = .ok values := by
  have hlen := length_holdsAll hargs
  unfold selectors at h
  split at h
  · cases h
  rename_i hbound
  rw [not_not, ← hlen] at hbound
  replace hbound : 2 ≤ args.length + 1 ∧ args.length + 1 ≤ 65 := by omega
  split at h
  · rename_i id
    obtain ⟨arg, rfl, harg⟩ := holdsAll_singleton hargs
    split at h
    · rename_i text htext
      obtain ⟨document, hparse, hpath⟩ := documentSelectors_arguments h
      refine ⟨_, hpath, hbound, fun ctx => ?_⟩
      rw [evaluateAll, documentText_evaluate htext harg ctx hparse]
      rfl
    · obtain ⟨values, hvalues, heval⟩ := literalSelectors_arguments h hargs
      exact ⟨values, .inl hvalues, hbound, heval⟩
  · obtain ⟨values, hvalues, heval⟩ := literalSelectors_arguments h hargs
    exact ⟨values, .inl hvalues, hbound, heval⟩

theorem operationOf_spells {segment : String} {rest : List ℕ} {op : ScalarIndexOperation}
    {args : List (ValueExpr F ε)} (h : operationOf S tree segment rest = some op)
    (hargs : HoldsAll tree resolve args rest) :
    ∃ f values, ScalarFunction.ofName segment = some f ∧ Spells S f values op ∧
      (f.arity.1 ≤ args.length + 1 ∧ args.length + 1 ≤ f.arity.2.1) ∧
        ∀ ctx, evaluateAll S ctx args = .ok values := by
  unfold operationOf at h
  split at h
  · rename_i hsegment
    split at h
    · rename_i hrest
      cases h
      subst hsegment hrest
      obtain rfl := length_eq_zero_iff.1 (length_holdsAll hargs)
      exact ⟨.lower, [], by decide, .lower, ⟨le_rfl, le_rfl⟩, fun _ => rfl⟩
    · cases h
  split at h
  · rename_i hsegment
    split at h
    · rename_i hrest
      cases h
      subst hsegment hrest
      obtain rfl := length_eq_zero_iff.1 (length_holdsAll hargs)
      exact ⟨.upper, [], by decide, .upper, ⟨le_rfl, le_rfl⟩, fun _ => rfl⟩
    · cases h
  split at h
  · rename_i hsegment
    subst hsegment
    obtain ⟨path, hpath, rfl⟩ := map_eq_some_iff.1 h
    obtain ⟨values, hvalues, hbound, heval⟩ := selectors_arguments hpath hargs
    exact ⟨.jsonGetPathScalar, values, by decide, .scalarPath hvalues, hbound, heval⟩
  split at h
  · rename_i hsegment
    subst hsegment
    obtain ⟨path, hpath, rfl⟩ := map_eq_some_iff.1 h
    obtain ⟨values, hvalues, hbound, heval⟩ := selectors_arguments hpath hargs
    exact ⟨.jsonGetPathText, values, by decide, .textPath hvalues, hbound, heval⟩
  · cases h

theorem compile_meaning : ∀ {level id : ℕ} {expr : ValueExpr F ε} {e : ScalarIndexExpression},
    compile S tree level id = some (b, e) → Holds tree resolve expr id →
      ∃ key : DbString, e.property = key.val ∧ Meaning S resolve b expr key e.operations
  | 0, id, expr, e, h, _ => by cases h
  | level + 1, id, expr, e, h, hexpr => by
    unfold compile at h
    split at h
    · cases h
    rename_i node hnode
    obtain ⟨kind, children⟩ := node
    split at h
    · cases h
    split at h
    · rename_i key hkind
      obtain rfl : kind = .property key := hkind
      split at h
      · rename_i child hchildren
        obtain rfl : children = [child] := hchildren
        split at h
        · rename_i b' ids hchild
          cases h
          obtain ⟨target, span, child', rfl, hids, htarget⟩ := holds_property hnode hexpr
          cases hids
          obtain ⟨name, span', rfl, hname⟩ := holds_binding hchild htarget
          exact ⟨key, rfl, .property hname⟩
        · cases h
      · cases h
    · rename_i name hkind
      obtain rfl : kind = .function name false false := hkind
      obtain ⟨args, span, rfl, hargs⟩ := holds_function hnode hexpr
      split at h
      · rename_i segment first rest hname hchildren
        obtain rfl : children = first :: rest := hchildren
        split at h
        · cases h
        rename_i b' e' hcompile
        split at h
        · cases h
        rename_i op hop
        cases h
        cases args with
        | nil => cases hargs
        | cons arg args =>
          obtain ⟨id', rest', hids, harg, hrest⟩ := hargs
          cases hids
          obtain ⟨key, hkey, hmeaning⟩ := compile_meaning hcompile harg
          obtain ⟨f, values, hf, hspells, harity, heval⟩ := operationOf_spells hop hrest
          exact ⟨key, hkey, .call hmeaning hname hf harity heval hspells⟩
      · cases h
    · cases h

/-! ## Agreement -/

/-- The first argument of a call, that of its first argument, and so on. -/
def ValueExpr.operand : ℕ → ValueExpr F ε → ValueExpr F ε
  | k + 1, .functionCall _ (first :: _) _ _ _ => operand k first
  | _, expr => expr

/-- The index expression without its last `k` operations. -/
def Operand (e : ScalarIndexExpression) (k : ℕ) : ScalarIndexExpression :=
  { e with operations := e.operations.take (e.operations.length - k) }

/-- The property that an index expression starts from, null when it is missing. -/
def sourceValue (e : ScalarIndexExpression) (properties : PropertyMap F) : Value F :=
  ((Selene.Core.dbString e.property).bind properties).getD .null

section

variable (S : Shared F) (operations : List ScalarIndexOperation) (start : Value F)

/-- The operation `k` maps the case of a text, and the text is `s`. -/
def MapsCase (k : ℕ)
    (transform : String → String) (s : DbString) : Prop :=
  ∃ op, operations[k]? = some op ∧ transformOf S op = some transform ∧
    applyAll S (operations.take k) start = .ok (.string s)

/-- No text that is in NFC leaves it when its case is mapped. -/
def CaseStable : Prop :=
  ∀ k transform s, MapsCase S operations start k transform s → S.isNfc s.val = true →
    S.nfc (transform s.val) = transform s.val

end

/-- The texts that a case mapping makes, normalised or not, stay within the caps. -/
def WithinCaps (S : Shared F) (cap : UInt32) (operations : List ScalarIndexOperation)
    (start : Value F) : Prop :=
  ∀ k transform s, MapsCase S operations start k transform s →
    Fits cap (transform s.val) ∧ Fits cap (transformed S transform s.val)

variable {start : Value F} {operations : List ScalarIndexOperation}

theorem applyAll_append (more : List ScalarIndexOperation) :
    applyAll S (operations ++ more) start = applyAll S operations start >>= applyAll S more := by
  induction operations generalizing start with
  | nil => rfl
  | cons op operations ih =>
    rw [cons_append, applyAll, applyAll]
    split
    · exact ih
    · cases apply S op start with
      | error e => rfl
      | ok value => exact ih

theorem applyAll_singleton (value : Value F) :
    applyAll S [op] value = if value.isNull then .ok value else apply S op value := by
  rw [applyAll]
  split
  · rfl
  · cases apply S op value with
    | error e => rfl
    | ok value => rfl

theorem transformed_eq_iff {text : String} : transform text = transformed S transform text ↔
      (S.isNfc text = true → S.nfc (transform text) = transform text) := by
  unfold transformed
  split
  · rename_i h
    exact ⟨fun heq _ => heq.symm, fun heq => (heq h).symm⟩
  · rename_i h
    exact iff_of_true rfl fun h' => absurd h' h

/-- One call more: when the operand agrees, so does the call, unless it maps the case of a text that
the runtime then normalises. -/
theorem call_same {ctx : EvalCtx F ε} {name : List DbString} {segment : String}
    {first : ValueExpr F ε} {args : List (ValueExpr F ε)}
    (hname : singleSegmentName name = some segment) (hf : ScalarFunction.ofName segment = some f)
    (harity : f.arity.1 ≤ args.length + 1 ∧ args.length + 1 ≤ f.arity.2.1)
    (hargs : evaluateAll S ctx args = .ok values) (hop : Spells S f values op)
    (hfirst : Same (applyAll S operations start) (evaluate S ctx first))
    (hcaps : ∀ transform s, transformOf S op = some transform →
      applyAll S operations start = .ok (.string s) →
      Fits ctx.maxStringLength (transform s.val) ∧
        Fits ctx.maxStringLength (transformed S transform s.val)) :
    Same (applyAll S (operations ++ [op]) start)
        (evaluate S ctx (.functionCall name (first :: args) false false span)) ↔
      ∀ transform s, transformOf S op = some transform →
        applyAll S operations start = .ok (.string s) →
        S.isNfc s.val = true → S.nfc (transform s.val) = transform s.val := by
  rw [applyAll_append]
  obtain ⟨value, hx, hy⟩ | ⟨e1, e2, hx, hy⟩ := hfirst.cases
  · rw [hx, evaluate_call span hname hf harity hargs hy]
    show Same (applyAll S [op] value) _ ↔ _
    rw [applyAll_singleton]
    cases hnull : value.isNull with
    | true =>
      obtain rfl : value = .null := by cases value <;> first | rfl | cases hnull
      rw [run_null span hop]
      refine iff_of_true (Same.ok _) ?_
      intro transform s _ hs
      cases hs
    | false =>
      rw [if_neg (by decide)]
      cases htransform : transformOf S op with
      | none =>
        refine iff_of_true (apply_path_same span hop htransform hnull) ?_
        intro transform s h
        cases h
      | some transform =>
        cases htext : textOf value with
        | none =>
          refine iff_of_true (apply_other_same span hop htransform hnull htext) ?_
          intro transform' s _ hs
          cases hs
          cases htext
        | some s =>
          obtain rfl := string_of_textOf htext
          obtain ⟨hplain, hnormal⟩ := hcaps transform s htransform hx
          rw [apply_string_same span hop htransform hplain hnormal, transformed_eq_iff]
          constructor
          · intro h transform' s' h' hs
            cases h'
            cases hs
            exact h
          · intro h
            exact h transform s rfl rfl
  · rw [hx, evaluate_call_error span hname hf harity hy]
    refine iff_of_true (Same.error _ _) ?_
    intro transform s _ hs
    cases hs

theorem mapsCase_snoc {k : ℕ} : MapsCase S (operations ++ [op]) start k transform s ↔
      MapsCase S operations start k transform s ∨
        k = operations.length ∧ transformOf S op = some transform ∧
          applyAll S operations start = .ok (.string s) := by
  constructor
  · intro h
    obtain ⟨op', hop, htransform, hs⟩ := h
    rcases lt_or_ge k operations.length with hk | hk
    · rw [getElem?_append_left hk] at hop
      rw [take_append_of_le_length hk.le] at hs
      exact .inl ⟨op', hop, htransform, hs⟩
    · -- only the last operation is left
      rw [getElem?_append_right hk] at hop
      obtain rfl : k = operations.length := by
        have hsome := (List.getElem?_eq_some_iff.1 hop).1
        rw [List.length_singleton] at hsome
        omega
      rw [Nat.sub_self] at hop
      cases hop
      rw [take_left] at hs
      exact .inr ⟨rfl, htransform, hs⟩
  · intro h
    rcases h with ⟨op', hop, htransform, hs⟩ | ⟨rfl, htransform, hs⟩
    · have hk := (List.getElem?_eq_some_iff.1 hop).1
      refine ⟨op', ?_, htransform, ?_⟩
      · rw [getElem?_append_left hk]
        exact hop
      · rw [take_append_of_le_length hk.le]
        exact hs
    · refine ⟨op, getElem?_concat_length, htransform, ?_⟩
      rw [take_left]
      exact hs

theorem caseStable_snoc : CaseStable S (operations ++ [op]) start ↔
    CaseStable S operations start ∧ ∀ transform s, transformOf S op = some transform →
      applyAll S operations start = .ok (.string s) →
      S.isNfc s.val = true → S.nfc (transform s.val) = transform s.val := by
  constructor
  · intro h
    exact ⟨fun k transform s hk => h k transform s (mapsCase_snoc.2 (.inl hk)),
      fun transform s hop hs => h _ transform s (mapsCase_snoc.2 (.inr ⟨rfl, hop, hs⟩))⟩
  · intro h k transform s hk
    rcases mapsCase_snoc.1 hk with hk | ⟨-, hop, hs⟩
    · exact h.1 k transform s hk
    · exact h.2 transform s hop hs

/-- The same for the expression and all its operands, from the property outwards. -/
theorem operands_same_iff {ctx : EvalCtx F ε} {node : UInt64} {properties : PropertyMap F}
    (hrow : ∀ name span, resolve name = b → ctx.lookup name span = .ok (.nodeRef node))
    (hnode : ctx.nodeProperties node = some properties) {expr : ValueExpr F ε}
    (hexpr : Meaning S resolve b expr key operations) :
    WithinCaps S ctx.maxStringLength operations ((properties key).getD .null) → ((∀ k ≤ operations.length,
        Same (applyAll S (operations.take (operations.length - k))
          ((properties key).getD .null)) (evaluate S ctx (expr.operand k))) ↔
      CaseStable S operations ((properties key).getD .null)) := by
  induction hexpr with
  | @property name key span₁ span₂ hname =>
    intro _
    refine iff_of_true ?_ ?_
    · intro k hk
      obtain rfl := le_zero.1 hk
      have heval : evaluate S ctx (.propertyAccess (.var name span₁) key span₂) =
          .ok ((properties key).getD .null) := by
        simp [evaluate, hrow name span₁ hname, propertyAccess, hnode]
      show Same _ (evaluate S ctx (.propertyAccess (.var name span₁) key span₂))
      rw [heval]
      exact Same.ok _
    · intro k transform s h
      obtain ⟨op, hop, -⟩ := h
      cases hop
  | @call name segment f first args values span key operations op hfirst hname hf harity hargs hop ih =>
    intro hcaps
    have hinner := ih fun k transform s h => hcaps k transform s (mapsCase_snoc.2 (.inl h))
    have hlast := fun transform s hop hs =>
      hcaps operations.length transform s (mapsCase_snoc.2 (.inr ⟨rfl, hop, hs⟩))
    have hlen : (operations ++ [op]).length = operations.length + 1 := by simp
    rw [caseStable_snoc, ← hinner]
    constructor
    · intro h
      have hoperands : ∀ k ≤ operations.length,
          Same (applyAll S (operations.take (operations.length - k))
            ((properties key).getD .null)) (evaluate S ctx (first.operand k)) := by
        intro k hk
        have hk' := h (k + 1) (by omega)
        rw [hlen, Nat.add_sub_add_right, take_append_of_le_length (Nat.sub_le _ _)] at hk'
        exact hk'
      have hoperand := hoperands 0 (zero_le _)
      have hwhole := h 0 (Nat.zero_le _)
      rw [Nat.sub_zero, take_length] at hoperand hwhole
      exact ⟨hoperands, (call_same span hname hf harity (hargs ctx) hop hoperand hlast).1 hwhole⟩
    · intro h k hk
      obtain ⟨hoperands, hstable⟩ := h
      cases k with
      | zero =>
        have hoperand := hoperands 0 (Nat.zero_le _)
        rw [Nat.sub_zero, take_length] at hoperand ⊢
        exact (call_same span hname hf harity (hargs ctx) hop hoperand hlast).2 hstable
      | succ k =>
        rw [hlen, Nat.add_sub_add_right, take_append_of_le_length (Nat.sub_le _ _)]
        exact hoperands k (by omega)

theorem operand_isValid {e : ScalarIndexExpression} (h : e.isValid = true) (k : ℕ) :
    (Operand e k).isValid = true := by
  simp only [isValid, Bool.and_eq_true, decide_eq_true_eq, List.all_eq_true] at h ⊢
  obtain ⟨⟨⟨⟨h1, h2⟩, h3⟩, h4⟩, h5⟩ := h
  refine ⟨⟨⟨⟨h1, h2⟩, h3⟩, ?_⟩, ?_⟩
  · exact (length_take_le _ _).trans (by omega)
  · intro op hop
    exact h5 op (List.mem_of_mem_take hop)

theorem operand_evaluate {e : ScalarIndexExpression} (h : e.isValid = true)
    (hkey : e.property = key.val) (properties : PropertyMap F) (k : ℕ) :
    (Operand e k).evaluate S properties =
      applyAll S (e.operations.take (e.operations.length - k)) ((properties key).getD .null) := by
  have hname : Selene.Core.dbString (Operand e k).property = some key := by
    show Selene.Core.dbString e.property = some key
    rw [hkey, Selene.Core.dbString, dif_pos key.property]
  rw [ScalarIndexExpression.evaluate, operand_isValid h k, hname]
  rfl

/-- **An index expression and the query expression it was compiled from, with all the operands of
both, return the same on a node exactly when no case mapping takes a text out of NFC; then every
test of the value selects the node through the index if and only if it does in the query.** -/
theorem index_expression_iff {id : ℕ} {expr : ValueExpr F ε} {e : ScalarIndexExpression}
    (hcompile : fromSource S tree id = some (b, e)) (hexpr : Holds tree resolve expr id)
    {ctx : EvalCtx F ε} {node : UInt64} {properties : PropertyMap F}
    (hrow : ∀ name span, resolve name = b → ctx.lookup name span = .ok (.nodeRef node))
    (hnode : ctx.nodeProperties node = some properties)
    (hcaps : WithinCaps S ctx.maxStringLength e.operations (sourceValue e properties)) :
    ((∀ k ≤ e.operations.length,
        Same ((Operand e k).evaluate S properties) (evaluate S ctx (expr.operand k))) ↔
      CaseStable S e.operations (sourceValue e properties)) ∧
    (CaseStable S e.operations (sourceValue e properties) → ∀ hit : Value F → Prop,
      (∃ v, e.evaluate S properties = .ok v ∧ hit v) ↔ ∃ v, evaluate S ctx expr = .ok v ∧ hit v) := by
  unfold fromSource at hcompile
  split at hcompile
  · rename_i b' e' hcompiled
    split at hcompile
    · rename_i hvalid
      cases hcompile
      obtain ⟨key, hkey, hmeaning⟩ := compile_meaning hcompiled hexpr
      have hsource : sourceValue e properties = (properties key).getD .null := by
        rw [sourceValue, hkey, Selene.Core.dbString, dif_pos key.property]
        rfl
      rw [hsource] at hcaps ⊢
      have hiff := operands_same_iff hrow hnode hmeaning hcaps
      simp only [operand_evaluate hvalid hkey]
      refine ⟨hiff, fun hstable hit => ?_⟩
      have hwhole := hiff.2 hstable 0 (zero_le _)
      rw [← operand_evaluate hvalid hkey] at hwhole
      have htake : Operand e 0 = e := by
        rw [Operand, Nat.sub_zero, take_length]
      rw [htake] at hwhole
      exact exists_congr fun v => and_congr_left fun _ => hwhole v
    · cases hcompile
  · cases hcompile

/-- Upper case and normal form of the Greek letter `U+0390`: the mapping gives it three code points,
of which NFC composes the first two. -/
noncomputable def greek : Shared Logical.plainForeign where
  toLowercase s := s
  toUppercase s := if s = "\u0390" then "\u0399\u0308\u0301" else s
  isNfc s := s != "\u0399\u0308\u0301"
  nfc s := if s = "\u0399\u0308\u0301" then "\u03aa\u0301" else s
  asI64 _ := none
  asU64 _ := none
  asF64 _ := none

/-- `upper(n.name)`. -/
def upperName : ValueExpr Logical.plainForeign Empty :=
  .functionCall [⟨"upper", by decide⟩]
    [.propertyAccess (.var ⟨"n", by decide⟩ ⟨6, 1⟩) ⟨"name", by decide⟩ ⟨6, 6⟩] false false ⟨0, 13⟩

def upperNameTree : SemanticTree Logical.plainForeign where
  expressions := [⟨.binding 0, []⟩, ⟨.property ⟨"name", by decide⟩, [0]⟩,
    ⟨.function [⟨"upper", by decide⟩] false false, [1]⟩]
  typeKind _ := .dynamic

/-- One node, with this name. -/
def oneNode (name : DbString) : EvalCtx Logical.plainForeign Empty where
  lookup _ _ := .ok (.nodeRef 1)
  nodeProperties _ := some fun _ => some (.string name)
  maxStringLength := 1000
  access _ _ span := dataException "property access target is not a node, edge, record, or list" span
  unary _ _ span := dataException "unary minus operand is not numeric" span
  castTo _ _ span := dataException "CAST" span
  call name _ span := .error (.unknownFunction name span)
  form := Empty.elim

def upperNameIndex : ScalarIndexExpression := ⟨1, "name", [.upper]⟩

theorem upperName_compiles : fromSource greek upperNameTree 2 = some (0, upperNameIndex) ∧
      Holds upperNameTree (fun _ => 0) upperName 2 := by
  refine ⟨?_, ?_⟩
  · decide +kernel
  · exact ⟨[1], rfl, 1, [], rfl, ⟨0, rfl, rfl⟩, rfl⟩

theorem evaluate_upperName (name : DbString) : evaluate greek (oneNode name) upperName =
    evalStringTransform greek 1000 greek.toUppercase (.string name) ⟨0, 13⟩ := by
  have hname : singleSegmentName [⟨"upper", by decide⟩] = some "upper" := by decide +kernel
  have hf : ScalarFunction.ofName "upper" = some .upper := by decide
  exact evaluate_call _ hname hf ⟨le_rfl, le_rfl⟩ rfl rfl

/-- `A` is its own upper case here, and in NFC. -/
theorem index_expression_latin :
    upperNameIndex.evaluate greek (fun _ => some (.string ⟨"A", by decide⟩)) = .ok (.string ⟨"A", by decide⟩) ∧
      evaluate greek (oneNode ⟨"A", by decide⟩) upperName = .ok (.string ⟨"A", by decide⟩) := by
  have hcase : ∀ k transform s, MapsCase greek upperNameIndex.operations
      (sourceValue upperNameIndex fun _ => some (.string ⟨"A", by decide⟩)) k transform s →
      transform = greek.toUppercase ∧ s = ⟨"A", by decide⟩ := by
    intro k transform s h
    obtain ⟨op, hop, htransform, hs⟩ := h
    cases k with
    | zero =>
      cases hop
      cases htransform
      cases hs
      exact ⟨rfl, rfl⟩
    | succ k => cases hop
  have hcaps : WithinCaps greek 1000 upperNameIndex.operations
      (sourceValue upperNameIndex fun _ => some (.string ⟨"A", by decide⟩)) := by
    intro k transform s h
    obtain ⟨rfl, rfl⟩ := hcase k transform s h
    exact ⟨⟨by decide, by decide⟩, ⟨by decide, by decide⟩⟩
  have hstable : CaseStable greek upperNameIndex.operations
      (sourceValue upperNameIndex fun _ => some (.string ⟨"A", by decide⟩)) := by
    intro k transform s h _
    obtain ⟨rfl, rfl⟩ := hcase k transform s h
    decide
  have hnode : (oneNode ⟨"A", by decide⟩).nodeProperties 1 =
      some fun _ => some (.string ⟨"A", by decide⟩) := rfl
  have hagree := (index_expression_iff upperName_compiles.1 upperName_compiles.2
    (fun _ _ _ => rfl) hnode hcaps).1.2 hstable 0 (zero_le _)
  exact ⟨rfl, (hagree _).1 rfl⟩

/-- The index keeps the three code points, the query compares with two. -/
theorem index_expression_greek :
    fromSource greek upperNameTree 2 = some (0, upperNameIndex) ∧
      Holds upperNameTree (fun _ => 0) upperName 2 ∧
      upperNameIndex.evaluate greek (fun _ => some (.string ⟨"\u0390", by decide⟩)) =
        .ok (.string ⟨"\u0399\u0308\u0301", by decide⟩) ∧
      evaluate greek (oneNode ⟨"\u0390", by decide⟩) upperName =
        .ok (.string ⟨"\u03aa\u0301", by decide⟩) := by
  refine ⟨upperName_compiles.1, upperName_compiles.2, rfl, ?_⟩
  rw [evaluate_upperName]
  rfl

end Selene.Query.Indexing
