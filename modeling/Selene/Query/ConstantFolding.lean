import Selene.Query.Evaluator

/-!
# Constant folding

The optimizer's rule `constant_folding`: an operator on literals becomes the literal of its result.
The folder computes the result itself, it does not ask the evaluator.
-/

namespace Selene.Query

open Selene.Graph

/-! ## Expressions -/

inductive CharacterStringLiteralKind where
  | escaped
  | noEscape

inductive IntegerLiteralKind where
  | hexadecimal
  | octal
  | binary

inductive DecimalLiteralKind where
  | commonWithoutSuffix
  | commonOrIntegerWithSuffix
  | scientificWithSuffix

inductive FloatLiteralKind where
  | scientificWithoutSuffix
  | commonOrIntegerWithFloatSuffix
  | commonOrIntegerWithDoubleSuffix
  | scientificWithFloatSuffix
  | scientificWithDoubleSuffix

inductive Literal where
  | bool (value : Bool) (span : SourceSpan)
  | integer (value : Int64) (span : SourceSpan)
  | radixInteger (value : Int64) (span : SourceSpan) (kind : IntegerLiteralKind)
  | decimal (value : Decimal) (span : SourceSpan) (kind : DecimalLiteralKind)
  | float (bits : UInt64) (span : SourceSpan) (kind : FloatLiteralKind)
  | string (value : DbString) (span : SourceSpan) (kind : CharacterStringLiteralKind)
  | bytes (value : List UInt8) (span : SourceSpan)
  | uuid (value : ℕ) (span : SourceSpan) (kind : CharacterStringLiteralKind)
  | zonedDateTime (value : Zoned) (span : SourceSpan) (kind : CharacterStringLiteralKind)
  | localDateTime (value : ℤ) (span : SourceSpan) (kind : CharacterStringLiteralKind)
  | date (value : ℤ) (span : SourceSpan) (kind : CharacterStringLiteralKind)
  | zonedTime (value : Zoned) (span : SourceSpan) (kind : CharacterStringLiteralKind)
  | localTime (value : ℕ) (span : SourceSpan) (kind : CharacterStringLiteralKind)
  | duration (value : Span) (span : SourceSpan) (kind : CharacterStringLiteralKind)
  | null (span : SourceSpan)

def literalValue : Literal → Value
  | .bool b _ => .bool b
  | .integer i _ | .radixInteger i _ _ => .int i.toInt
  | .decimal d _ _ => .decimal d
  | .float bits _ _ => .float bits
  | .string s _ _ => .string s
  | .bytes b _ => .bytes b
  | .uuid n _ _ => .uuid n
  | .zonedDateTime z _ _ => .zonedDateTime z
  | .localDateTime t _ _ => .localDateTime t
  | .date day _ _ => .date day
  | .zonedTime z _ _ => .zonedTime z
  | .localTime t _ _ => .localTime t
  | .duration s _ _ => .duration s
  | .null _ => .null

/-- `ValueExpr`: literals, the two forms the rule looks at, and the other forms, which an
environment gives their values. -/
inductive ValueExpr (ε : Type) where
  | literal (literal : Literal)
  | unaryOp (op : UnaryOp) (operand : ValueExpr ε) (span : SourceSpan)
  | binaryOp (op : BinaryOp) (lhs rhs : ValueExpr ε) (span : SourceSpan)
  | other (form : ε)

variable {ε : Type} (native : Native)

def evaluate (caps : ImplDefinedCaps) (env : ε → Evaluated) : ValueExpr ε → Evaluated
  | .literal l => .ok (literalValue l)
  | .unaryOp op operand span => do evalUnary op (← evaluate caps env operand) span
  | .binaryOp op lhs rhs span => do
    let lhs ← evaluate caps env lhs
    let rhs ← evaluate caps env rhs
    evalBinary native op lhs rhs span caps
  | .other form => env form

/-! ## The rule -/

def integerValue : Literal → Option Int64
  | .integer i _ | .radixInteger i _ _ => some i
  | _ => none

def finiteFloat (bits : UInt64) (span : SourceSpan) (kind : FloatLiteralKind) : Option Literal :=
  if Float64.isFinite bits then some (.float bits span kind) else none

/-- The literals of `fold_unary`. -/
def foldUnaryLiteral (op : UnaryOp) (literal : Literal) (span : SourceSpan) : Option Literal :=
  match op, literal with
  | .not, .bool b _ => some (.bool (!b) span)
  | .negate, .integer i _ | .negate, .radixInteger i _ _ =>
    (IntRange.i64.checked (-i.toInt)).map fun folded => .integer (Int64.ofInt folded) span
  | .negate, .decimal d _ kind => some (.decimal d.neg span kind)
  | .negate, .float bits _ kind => finiteFloat (Float64.negate bits) span kind
  | _, _ => none

def foldUnary (op : UnaryOp) (operand : ValueExpr ε) (span : SourceSpan) : Option Literal :=
  match operand with
  | .literal literal => foldUnaryLiteral op literal span
  | _ => none

/-- The operators that `compare_ordering` and `compare_partial` know, as tests of an order. -/
def comparison : BinaryOp → Option (Ordering → Bool)
  | .eq => some (· == .eq)
  | .ne => some (· != .eq)
  | .lt => some (· == .lt)
  | .le => some (· != .gt)
  | .gt => some (· == .gt)
  | .ge => some (· != .lt)
  | _ => none

variable (op : BinaryOp)

def compareOrdering {α : Type} [Ord α] (op : BinaryOp) (lhs rhs : α) : Bool :=
  match comparison op with
  | some test => test (compare lhs rhs)
  | none => false

/-- `compare_partial`, of finite floats. -/
def comparePartial (lhs rhs : UInt64) : Option Bool :=
  (comparison op).map fun test => test (compare (Float64.toRat lhs) (Float64.toRat rhs))

/-- The float that two floats fold to. -/
def foldedFloat (left right : UInt64) : Option UInt64 :=
  match op with
  | .add => some (native.floatAdd left right)
  | .sub => some (native.floatSub left right)
  | .mul => some (native.floatMul left right)
  | .div => if Float64.isZero right then none else some (native.floatDiv left right)
  | .mod => if Float64.isZero right then none else some (native.floatRem left right)
  | _ => none

/-- The decimal that two decimals fold to. -/
def foldedDecimal (left right : Decimal) : Option Decimal :=
  match op with
  | .add => native.decimalAdd left right
  | .sub => native.decimalSub left right
  | .mul => native.decimalMul left right
  | .div => native.decimalDiv left right
  | .mod => native.decimalRem left right
  | _ => none

def foldArithmetic (lhs rhs : Literal) (span : SourceSpan) : Option Literal :=
  match integerValue lhs, integerValue rhs with
  | some left, some right =>
    (IntRange.i64.arithmetic op left.toInt right.toInt).map fun folded =>
      .integer (Int64.ofInt folded) span
  | _, _ =>
    match lhs, rhs with
    | .float left _ _, .float right _ _ =>
      (foldedFloat native op left right).bind fun folded =>
        finiteFloat folded span .commonOrIntegerWithDoubleSuffix
    | .decimal left _ _, .decimal right _ _ =>
      (foldedDecimal native op left right).map fun folded =>
        .decimal folded span .commonWithoutSuffix
    | _, _ => none

/-- An integer and a float that is finite; an integer goes to the nearest float first. -/
def foldNumericComparison (lhs rhs : Literal) : Option Bool :=
  match integerValue lhs, integerValue rhs with
  | some left, some right => some (compareOrdering op left.toInt right.toInt)
  | some left, none =>
    match rhs with
    | .float right _ _ =>
      if Float64.isFinite right then comparePartial op (Float64.ofInt left.toInt) right else none
    | _ => none
  | none, some right =>
    match lhs with
    | .float left _ _ =>
      if Float64.isFinite left then comparePartial op left (Float64.ofInt right.toInt) else none
    | _ => none
  | none, none => none

/-- The answer of `fold_comparison`. -/
def comparedLiterals (lhs rhs : Literal) : Option Bool :=
  match lhs, rhs with
  | .bool left _, .bool right _ =>
    match op with
    | .eq => some (left == right)
    | .ne => some (left != right)
    | _ => none
  | .float left _ _, .float right _ _ =>
    if Float64.isFinite left && Float64.isFinite right then comparePartial op left right else none
  | .decimal left _ _, .decimal right _ _ => some (compareOrdering op left.toRat right.toRat)
  | .string left _ _, .string right _ _ => some (compareOrdering op left right)
  | .bytes left _, .bytes right _ => some (compareOrdering op left right)
  | .date left _ _, .date right _ _ => some (compareOrdering op left right)
  | .localDateTime left _ _, .localDateTime right _ _ => some (compareOrdering op left right)
  | .localTime left _ _, .localTime right _ _ => some (compareOrdering op left right)
  | lhs, rhs => foldNumericComparison op lhs rhs

def foldComparison (lhs rhs : Literal) (span : SourceSpan) : Option Literal :=
  (comparedLiterals op lhs rhs).map fun folded => .bool folded span

def foldBoolean (lhs rhs : Literal) (span : SourceSpan) : Option Literal :=
  match lhs, rhs with
  | .bool left _, .bool right _ =>
    match op with
    | .and => some (.bool (left && right) span)
    | .or => some (.bool (left || right) span)
    | .xor => some (.bool (left ^^ right) span)
    | _ => none
  | _, _ => none

def foldedStringConcat (lhs rhs : String) (caps : ImplDefinedCaps) : Option String := do
  let _ ← checkedLen (lhs.utf8ByteSize + rhs.utf8ByteSize)
  let value := joinStrings native lhs rhs
  let maxChars := caps.maxStringLength.toNat
  if value.length ≤ maxChars then some value
  else if (value.toList.reverse.take (value.length - maxChars)).all isTruncatingWhitespace then
    some (String.ofList (value.toList.take maxChars))
  else none

def foldedByteConcat (lhs rhs : List UInt8) (caps : ImplDefinedCaps) : Option (List UInt8) := do
  let totalLen ← checkedLen (lhs.length + rhs.length)
  let maxLen := caps.maxByteStringLength.toNat
  if totalLen ≤ maxLen then some (takeBytes lhs rhs totalLen)
  else if byteSuffixIsZero lhs rhs (totalLen - maxLen) then some (takeBytes lhs rhs maxLen)
  else none

def foldConcat (lhs rhs : Literal) (span : SourceSpan) (caps : ImplDefinedCaps) : Option Literal :=
  match lhs, rhs with
  | .string left _ _, .string right _ _ => do
    let value ← foldedStringConcat native left right caps
    let text ← dbString value
    some (.string text span .escaped)
  | .bytes left _, .bytes right _ => do
    let value ← foldedByteConcat left right caps
    some (.bytes value span)
  | _, _ => none

/-- The literals of `fold_binary`. -/
def foldLiterals (lhs rhs : Literal) (span : SourceSpan) (caps : ImplDefinedCaps) :
    Option Literal :=
  if (literalValue lhs).isNull || (literalValue rhs).isNull then none
  else match op with
    | .add | .sub | .mul | .div | .mod => foldArithmetic native op lhs rhs span
    | .power => none
    | .eq | .ne | .lt | .le | .gt | .ge => foldComparison op lhs rhs span
    | .and | .or | .xor => foldBoolean op lhs rhs span
    | .concat => foldConcat native lhs rhs span caps
    | .contains | .startsWith | .endsWith => none

def foldBinary (lhs rhs : ValueExpr ε) (span : SourceSpan) (caps : ImplDefinedCaps) :
    Option Literal :=
  match lhs, rhs with
  | .literal lhs, .literal rhs => foldLiterals native op lhs rhs span caps
  | _, _ => none

def foldExpr (caps : ImplDefinedCaps) : ValueExpr ε → Option (ValueExpr ε)
  | .unaryOp op operand span => (foldUnary op operand span).map .literal
  | .binaryOp op lhs rhs span => (foldBinary native op lhs rhs span caps).map .literal
  | _ => none

end Selene.Query
