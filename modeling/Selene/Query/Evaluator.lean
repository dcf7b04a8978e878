import Selene.Query.ValueCompare

/-!
# Operators on values

`eval_unary` and `eval_binary` of the runtime evaluator. What the engine takes from foreign
libraries and does not define itself is a parameter (`Native`): the operations of floats, decimals
and durations, and the normal form NFC of a string. The conversion of an integer to a float, which
rounds, is written out (`Float64.ofInt`).
-/

namespace Selene.Graph

open Binary

/-! ## Floats -/

namespace Float64

/-- The exponent of infinities and NaNs. -/
def isFinite (bits : UInt64) : Bool := bits.toNat / 2 ^ 52 % 2 ^ 11 ≠ 0x7FF

def isNegative (bits : UInt64) : Bool := 2 ^ 63 ≤ bits.toNat

/-- `-value`. -/
def negate (bits : UInt64) : UInt64 := bits ^^^ 0x8000000000000000

/-- The whole number that the fraction of a finite float counts, its hidden bit included. -/
def significand (bits : UInt64) : ℕ :=
  if bits.toNat / 2 ^ 52 % 2 ^ 11 = 0 then bits.toNat % 2 ^ 52 else bits.toNat % 2 ^ 52 + 2 ^ 52

/-- The power of two that the significand of a finite float is scaled by. -/
def exponent (bits : UInt64) : ℤ :=
  if bits.toNat / 2 ^ 52 % 2 ^ 11 = 0 then -1074 else (bits.toNat / 2 ^ 52 % 2 ^ 11 : ℕ) - 1075

/-- The number a finite float stands for. -/
def toRat (bits : UInt64) : ℚ :=
  (if isNegative bits then -1 else 1) * (significand bits * 2 ^ exponent bits)

/-- The significand of `i as f64`: 53 bits, the last one rounded to nearest, ties to even. -/
def roundedSignificand (m : ℕ) : ℕ :=
  if bitLength m ≤ 53 then leading 53 m else nearestEven m (bitLength m - 53)

/-- `i as f64`. A significand rounded up to 54 bits carries into the exponent. -/
def ofInt (i : ℤ) : UInt64 :=
  UInt64.ofNat <| (if i < 0 then 2 ^ 63 else 0) +
    if i = 0 then 0
    else (bitLength i.natAbs + 1021) * 2 ^ 52 + roundedSignificand i.natAbs

end Float64

def Float32.negate (bits : UInt32) : UInt32 := bits ^^^ 0x80000000

namespace Decimal

def isZero (d : Decimal) : Bool := d.mantissa == 0

/-- `-value`. -/
def neg (d : Decimal) : Decimal where
  mantissa := -d.mantissa
  scale := d.scale
  mantissa_lt := by rw [Int.natAbs_neg]; exact d.mantissa_lt
  scale_le := d.scale_le

/-- `try_from_i128_with_scale`, at the scale 0. -/
def ofInt? (i : ℤ) : Option Decimal :=
  if h : i.natAbs < 2 ^ 96 then some ⟨i, 0, h, Nat.zero_le _⟩ else none

end Decimal

def Span.negate (s : Span) : Span where
  years := -s.years
  months := -s.months
  weeks := -s.weeks
  days := -s.days
  hours := -s.hours
  minutes := -s.minutes
  seconds := -s.seconds
  milliseconds := -s.milliseconds
  microseconds := -s.microseconds
  nanoseconds := -s.nanoseconds

end Selene.Graph

namespace Selene.Query

open Selene.Graph

/-! ## Errors -/

structure SourceSpan where
  byteOffset : UInt32
  byteLen : UInt32

/-- The subclasses the operators raise. -/
inductive DataExceptionSubclass where
  | stringDataRightTruncation
  | numericValueOutOfRange
  | divisionByZero
  | invalidArgumentForPowerFunction
  | invalidValueType
  | valuesNotComparable
  | listDataRightTruncation
  | pathDataRightTruncation
  | incompatibleTemporalInstantUnitGroups
  | malformedPath

/-- `ExecutorError`, as far as the operators raise it. -/
inductive EvalError where
  | dataException (subclass : DataExceptionSubclass) (message : String) (span : SourceSpan)
  | programLimitExceeded (detail : String) (span : SourceSpan)

abbrev Evaluated := Except EvalError Value

def dataExceptionWith {α : Type} (subclass : DataExceptionSubclass) (message : String)
    (span : SourceSpan) : Except EvalError α :=
  .error (.dataException subclass message span)

def dataException {α : Type} (message : String) (span : SourceSpan) : Except EvalError α :=
  dataExceptionWith .invalidValueType message span

def diagnostic (span : SourceSpan) : ValueComparisonError → EvalError
  | .notComparable =>
    .dataException .valuesNotComparable "values are not comparable for this operation" span
  | .tooDeep => .programLimitExceeded "comparison nesting limit exceeded" span

/-! ## Foreign operations -/

inductive UnaryOp where
  | not
  | negate

inductive BinaryOp where
  | add | sub | mul | div | mod | power
  | eq | ne | lt | le | gt | ge
  | and | or | xor
  | concat | contains | startsWith | endsWith
deriving DecidableEq

/-- The operations of the libraries for floats, decimals, durations and Unicode. -/
structure Native where
  floatAdd : UInt64 → UInt64 → UInt64
  floatSub : UInt64 → UInt64 → UInt64
  floatMul : UInt64 → UInt64 → UInt64
  floatDiv : UInt64 → UInt64 → UInt64
  floatRem : UInt64 → UInt64 → UInt64
  powf : UInt64 → UInt64 → UInt64
  fract : UInt64 → UInt64
  remEuclid : UInt64 → UInt64 → UInt64
  /-- `f64::from`, of a 32-bit float. -/
  widen : UInt32 → UInt64
  decimalAdd : Decimal → Decimal → Option Decimal
  decimalSub : Decimal → Decimal → Option Decimal
  decimalMul : Decimal → Decimal → Option Decimal
  decimalDiv : Decimal → Decimal → Option Decimal
  decimalRem : Decimal → Decimal → Option Decimal
  /-- A checked division by zero has no result. -/
  decimalDiv_zero : ∀ a b, b.isZero = true → decimalDiv a b = none
  decimalRem_zero : ∀ a b, b.isZero = true → decimalRem a b = none
  decimalToFloat : Decimal → Option UInt64
  durationArithmetic : BinaryOp → Span → Span → SourceSpan → Evaluated
  durationScaling : BinaryOp → Span → UInt64 → SourceSpan → Evaluated
  durationPlusTemporal : Span → Value → SourceSpan → Evaluated
  temporalDuration : BinaryOp → Value → Span → SourceSpan → Evaluated
  isNfc : String → Bool
  nfc : String → String

/-! ## Unary operators -/

/-- A range of integers, as the ends of a machine type. -/
structure IntRange where
  min : ℤ
  max : ℤ

namespace IntRange

def i64 : IntRange := ⟨-2 ^ 63, 2 ^ 63 - 1⟩

def i128 : IntRange := ⟨-2 ^ 127, 2 ^ 127 - 1⟩

def u64 : IntRange := ⟨0, 2 ^ 64 - 1⟩

def u128 : IntRange := ⟨0, 2 ^ 128 - 1⟩

/-- A result, unless it overflows the type. -/
def checked (r : IntRange) (i : ℤ) : Option ℤ := if r.min ≤ i ∧ i ≤ r.max then some i else none

/-- `checked_add` to `checked_rem`, the last two guarded against a zero. The remainder of a
division that overflows has no result either. -/
def arithmetic (r : IntRange) (op : BinaryOp) (lhs rhs : ℤ) : Option ℤ :=
  match op with
  | .add => r.checked (lhs + rhs)
  | .sub => r.checked (lhs - rhs)
  | .mul => r.checked (lhs * rhs)
  | .div => if rhs ≠ 0 then r.checked (lhs.tdiv rhs) else none
  | .mod => if rhs ≠ 0 then (r.checked (lhs.tdiv rhs)).map fun _ => lhs.tmod rhs else none
  | _ => none

end IntRange

/-- `negate_overflow`, for a negation without result. -/
def orNegateOverflow (span : SourceSpan) : Option Value → Evaluated
  | some v => .ok v
  | none => dataExceptionWith .numericValueOutOfRange
      "negation overflow: result is out of the signed integer range" span

def evalUnary (op : UnaryOp) (value : Value) (span : SourceSpan) : Evaluated :=
  match op with
  | .not =>
    match value with
    | .bool b => .ok (.bool !b)
    | .null => .ok .null
    | _ => dataException "NOT operand is not boolean" span
  | .negate =>
    match value with
    | .int i => orNegateOverflow span ((IntRange.i64.checked (-i)).map .int)
    | .int128 i => orNegateOverflow span ((IntRange.i128.checked (-i)).map .int128)
    | .uint n => orNegateOverflow span
        (((IntRange.i64.checked n).bind fun i => IntRange.i64.checked (-i)).map .int)
    | .uint128 n => orNegateOverflow span
        (((IntRange.i128.checked n).bind fun i => IntRange.i128.checked (-i)).map .int128)
    | .float bits => .ok (.float (Float64.negate bits))
    | .float32 bits => .ok (.float32 (Float32.negate bits))
    | .decimal d => .ok (.decimal d.neg)
    | .duration s => .ok (.duration s.negate)
    | .null => .ok .null
    | _ => dataException "unary minus operand is not numeric" span

/-! ## Booleans -/

def truth (value : Value) (span : SourceSpan) : Except EvalError (Option Bool) :=
  match value with
  | .bool b => .ok (some b)
  | .null => .ok none
  | _ => dataException "boolean operator operand is not boolean" span

def evalAnd (lhs rhs : Value) (span : SourceSpan) : Evaluated := do
  match ← truth lhs span, ← truth rhs span with
  | some false, _ | _, some false => .ok (.bool false)
  | some true, some true => .ok (.bool true)
  | _, _ => .ok .null

def evalOr (lhs rhs : Value) (span : SourceSpan) : Evaluated := do
  match ← truth lhs span, ← truth rhs span with
  | some true, _ | _, some true => .ok (.bool true)
  | some false, some false => .ok (.bool false)
  | _, _ => .ok .null

def evalXor (lhs rhs : Value) (span : SourceSpan) : Evaluated := do
  match ← truth lhs span, ← truth rhs span with
  | some a, some b => .ok (.bool (a ^^ b))
  | _, _ => .ok .null

/-! ## Comparisons -/

def ensurePair (lhs rhs : Value) (mode : ComparisonMode) (span : SourceSpan) :
    Except EvalError Unit :=
  (Domain.ensurePair mode lhs rhs).mapError (diagnostic span)

/-- `eval_equality`, of `Ne` when `negated`. -/
def evalEquality (negated : Bool) (lhs rhs : Value) (span : SourceSpan) : Evaluated := do
  ensurePair lhs rhs .predicateEquality span
  if lhs.isNull || rhs.isNull then .ok .null
  else match lhs.gqlEqualNonNull rhs with
    | none => .ok .null
    | some equal => .ok (.bool (equal ^^ negated))

/-- `eval_ordering`, with what the operator makes of an order. -/
def evalOrdering (test : Ordering → Bool) (lhs rhs : Value) (span : SourceSpan) : Evaluated := do
  ensurePair lhs rhs .ordering span
  if lhs.isNull || rhs.isNull then .ok .null
  else match lhs.compareValuePair rhs with
    | none => .ok .null
    | some order => .ok (.bool (test order))

/-! ## Arithmetic -/

section Arithmetic

variable (native : Native)

def numericToF64 : Value → Option UInt64
  | .int i | .int128 i => some (Float64.ofInt i)
  | .uint n | .uint128 n => some (Float64.ofInt n)
  | .float bits => some bits
  | .float32 bits => some (native.widen bits)
  | .decimal d => native.decimalToFloat d
  | _ => none

variable (op : BinaryOp)

/-- The error of a division by zero, or else of an overflow. -/
def orOverflow (zero : Bool) (message : String) (span : SourceSpan) : Option Value → Evaluated
  | some v => .ok v
  | none => dataExceptionWith
      (if (op = .div ∨ op = .mod) ∧ zero then .divisionByZero else .numericValueOutOfRange)
      message span

def evalIntArithmetic (lhs rhs : ℤ) (span : SourceSpan) : Evaluated :=
  orOverflow op (rhs == 0) "integer arithmetic overflow or division by zero" span
    ((IntRange.i64.arithmetic op lhs rhs).map .int)

def evalI128Arithmetic (lhs rhs : ℤ) (span : SourceSpan) : Evaluated :=
  orOverflow op (rhs == 0) "integer arithmetic overflow or division by zero" span
    ((IntRange.i128.arithmetic op lhs rhs).map .int128)

def evalUintArithmetic (lhs rhs : ℕ) (span : SourceSpan) : Evaluated :=
  match IntRange.u64.arithmetic op lhs rhs with
  | some n => .ok (.uint n.toNat)
  | none => evalI128Arithmetic op lhs rhs span

def evalU128Arithmetic (lhs rhs : ℕ) (span : SourceSpan) : Evaluated :=
  orOverflow op (rhs == 0) "unsigned 128-bit arithmetic overflow or division by zero" span
    ((IntRange.u128.arithmetic op lhs rhs).map fun n => .uint128 n.toNat)

/-- The decimal of an operator, nothing when it overflows or divides by zero. -/
def decimalResult (lhs rhs : Decimal) : Option Decimal :=
  match op with
  | .add => native.decimalAdd lhs rhs
  | .sub => native.decimalSub lhs rhs
  | .mul => native.decimalMul lhs rhs
  | .div => if rhs.isZero then none else native.decimalDiv lhs rhs
  | .mod => if rhs.isZero then none else native.decimalRem lhs rhs
  | _ => none

def evalDecimalArithmetic (lhs rhs : Decimal) (span : SourceSpan) : Evaluated :=
  orOverflow op rhs.isZero "decimal arithmetic overflow or division by zero" span
    ((decimalResult native op lhs rhs).map .decimal)

def i128FromU128 (n : ℕ) (span : SourceSpan) : Except EvalError ℤ :=
  match IntRange.i128.checked n with
  | some i => .ok i
  | none => dataExceptionWith .numericValueOutOfRange
      "unsigned 128-bit value exceeds the signed integer range" span

/-- `decimal_from_i128`; the integers of 64 bits always have a decimal. -/
def decimalFromI128 (i : ℤ) (span : SourceSpan) : Except EvalError Decimal :=
  match Decimal.ofInt? i with
  | some d => .ok d
  | none => dataExceptionWith .numericValueOutOfRange "128-bit value exceeds the DECIMAL range" span

/-- The float of an operator, nothing when it divides by zero. -/
def floatResult (lhs rhs : UInt64) : Option UInt64 :=
  match op with
  | .add => some (native.floatAdd lhs rhs)
  | .sub => some (native.floatSub lhs rhs)
  | .mul => some (native.floatMul lhs rhs)
  | .div => if Float64.isZero rhs then none else some (native.floatDiv lhs rhs)
  | .mod => if Float64.isZero rhs then none else some (native.floatRem lhs rhs)
  | _ => none

def evalFloatArithmetic (lhs rhs : UInt64) (span : SourceSpan) : Evaluated :=
  match floatResult native op lhs rhs with
  | none => dataExceptionWith .divisionByZero "floating-point division by zero" span
  | some value =>
    if Float64.isFinite value then .ok (.float value)
    else dataExceptionWith .numericValueOutOfRange
      "floating-point arithmetic produced non-finite value" span

/-- The arms of `eval_arithmetic` without a duration. -/
def evalNumericArithmetic (lhs rhs : Value) (span : SourceSpan) : Evaluated :=
  match lhs, rhs with
  | .int a, .int b => evalIntArithmetic op a b span
  | .uint a, .uint b => evalUintArithmetic op a b span
  | .int128 a, .int128 b | .int128 a, .int b | .int a, .int128 b => evalI128Arithmetic op a b span
  | .int128 a, .uint b | .int a, .uint b => evalI128Arithmetic op a b span
  | .uint a, .int128 b | .uint a, .int b => evalI128Arithmetic op a b span
  | .uint128 a, .uint128 b | .uint128 a, .uint b | .uint a, .uint128 b =>
    evalU128Arithmetic op a b span
  | .int128 a, .uint128 b => do evalI128Arithmetic op a (← i128FromU128 b span) span
  | .uint128 a, .int128 b => do evalI128Arithmetic op (← i128FromU128 a span) b span
  | .decimal a, .decimal b => evalDecimalArithmetic native op a b span
  | .decimal a, .int b | .decimal a, .int128 b => do
    evalDecimalArithmetic native op a (← decimalFromI128 b span) span
  | .int a, .decimal b | .int128 a, .decimal b => do
    evalDecimalArithmetic native op (← decimalFromI128 a span) b span
  | .decimal a, .uint b => do evalDecimalArithmetic native op a (← decimalFromI128 b span) span
  | .uint a, .decimal b => do evalDecimalArithmetic native op (← decimalFromI128 a span) b span
  | .decimal a, .uint128 b => do
    evalDecimalArithmetic native op a (← decimalFromI128 (← i128FromU128 b span) span) span
  | .uint128 a, .decimal b => do
    evalDecimalArithmetic native op (← decimalFromI128 (← i128FromU128 a span) span) b span
  | lhs, rhs =>
    match numericToF64 native lhs, numericToF64 native rhs with
    | some a, some b => evalFloatArithmetic native op a b span
    | _, _ => dataException "arithmetic operands are not numeric" span

/-- A duration times or over a number. -/
def evalScaled (duration : Span) (number : Value) (span : SourceSpan) : Evaluated :=
  match numericToF64 native number with
  | some coefficient => native.durationScaling op duration coefficient span
  | none => dataException "duration scaling coefficient is not numeric" span

def evalArithmetic (lhs rhs : Value) (span : SourceSpan) : Evaluated :=
  if lhs.isNull || rhs.isNull then .ok .null
  else match lhs, rhs with
    | .duration a, .duration b => native.durationArithmetic op a b span
    | .duration a, rhs =>
      if op = .add then native.durationPlusTemporal a rhs span
      else if op = .mul ∨ op = .div then evalScaled native op a rhs span
      else evalNumericArithmetic native op (.duration a) rhs span
    | lhs, .duration b =>
      if op = .add ∨ op = .sub then native.temporalDuration op lhs b span
      else if op = .mul then evalScaled native op b lhs span
      else evalNumericArithmetic native op lhs (.duration b) span
    | lhs, rhs => evalNumericArithmetic native op lhs rhs span

def finitePowerResult (value : UInt64) (span : SourceSpan) : Evaluated :=
  if Float64.isFinite value then .ok (.float value)
  else dataExceptionWith .numericValueOutOfRange
    "floating-point exponentiation produced non-finite value" span

def evalFloatPower (lhs rhs : UInt64) (span : SourceSpan) : Evaluated :=
  if Float64.isNaN lhs || Float64.isNaN rhs then finitePowerResult 0x7FF8000000000000 span
  else if Float64.isZero lhs then
    if Float64.isZero rhs then .ok (.float (Float64.ofInt 1))
    else if Float64.isNegative rhs then dataExceptionWith .invalidArgumentForPowerFunction
      "power base is zero and exponent is negative" span
    else .ok (.float 0)
  else if Float64.isNegative lhs then
    if !(Float64.isFinite rhs && Float64.isZero (native.fract rhs)) then
      dataExceptionWith .invalidArgumentForPowerFunction
        "power base is negative and exponent is not an integer" span
    else
      let magnitude := native.powf (Float64.negate lhs) rhs
      if Float64.isZero (native.remEuclid rhs (Float64.ofInt 2)) then
        finitePowerResult magnitude span
      else finitePowerResult (Float64.negate magnitude) span
  else finitePowerResult (native.powf lhs rhs) span

def evalPower (lhs rhs : Value) (span : SourceSpan) : Evaluated :=
  if lhs.isNull || rhs.isNull then .ok .null
  else match numericToF64 native lhs, numericToF64 native rhs with
    | some a, some b => evalFloatPower native a b span
    | _, _ => dataException "power operands are not numeric" span

end Arithmetic

/-! ## Concatenation -/

/-- The caps that concatenation reads. -/
structure ImplDefinedCaps where
  maxStringLength : UInt32
  maxByteStringLength : UInt32
  maxListLength : UInt32
  maxPathLength : UInt32

/-- A length, unless it overflows. -/
def checkedLen (n : ℕ) : Option ℕ := if n < 2 ^ 64 then some n else none

/-- `db_string`: at most `MAX_DB_STRING_BYTES`. -/
def dbString (text : String) : Option DbString :=
  if text.utf8ByteSize ≤ 2 ^ 32 - 1 then some text else none

def isTruncatingWhitespace (c : Char) : Bool := c == ' '

/-- The two strings one after the other, in normal form if both are. -/
def joinStrings (native : Native) (lhs rhs : String) : String :=
  if native.isNfc lhs && native.isNfc rhs then native.nfc (lhs ++ rhs) else lhs ++ rhs

def stringTruncation {α : Type} (message : String) (span : SourceSpan) : Except EvalError α :=
  dataExceptionWith .stringDataRightTruncation message span

def stringConcatValue (text : String) (span : SourceSpan) : Evaluated :=
  match dbString text with
  | some s => .ok (.string s)
  | none => stringTruncation "character-string concatenation is too long" span

def concatStrings (native : Native) (lhs rhs : String) (span : SourceSpan)
    (caps : ImplDefinedCaps) : Evaluated :=
  match checkedLen (lhs.utf8ByteSize + rhs.utf8ByteSize) with
  | none => stringTruncation "character-string concatenation length overflows" span
  | some _ =>
    let value := joinStrings native lhs rhs
    let maxChars := caps.maxStringLength.toNat
    if value.length ≤ maxChars then stringConcatValue value span
    else if (value.toList.reverse.take (value.length - maxChars)).all isTruncatingWhitespace then
      stringConcatValue (String.ofList (value.toList.take maxChars)) span
    else stringTruncation "character-string concatenation exceeds the configured maximum length" span

def byteSuffixIsZero (lhs rhs : List UInt8) (suffixLen : ℕ) : Bool :=
  if suffixLen ≤ rhs.length then (rhs.drop (rhs.length - suffixLen)).all (· == 0)
  else rhs.all (· == 0) && (lhs.drop (lhs.length - (suffixLen - rhs.length))).all (· == 0)

/-- The first `len` bytes of two strings one after the other. -/
def takeBytes (lhs rhs : List UInt8) (len : ℕ) : List UInt8 :=
  if len ≤ lhs.length then lhs.take len else lhs ++ rhs.take (len - lhs.length)

def cappedByteConcatLen (lhs rhs : List UInt8) (totalLen maxLen : ℕ) (span : SourceSpan) :
    Except EvalError ℕ :=
  if totalLen ≤ maxLen then .ok totalLen
  else if byteSuffixIsZero lhs rhs (totalLen - maxLen) then .ok maxLen
  else stringTruncation "byte-string concatenation exceeds the configured maximum length" span

def concatBytes (lhs rhs : List UInt8) (span : SourceSpan) (caps : ImplDefinedCaps) : Evaluated :=
  match checkedLen (lhs.length + rhs.length) with
  | none => stringTruncation "byte-string concatenation length overflows" span
  | some totalLen => do
    let outputLen ← cappedByteConcatLen lhs rhs totalLen caps.maxByteStringLength.toNat span
    .ok (.bytes (takeBytes lhs rhs outputLen))

def concatLists (lhs rhs : List Value) (span : SourceSpan) (caps : ImplDefinedCaps) : Evaluated :=
  match checkedLen (lhs.length + rhs.length) with
  | none =>
    dataExceptionWith .listDataRightTruncation "list concatenation length overflows" span
  | some totalLen =>
    if caps.maxListLength.toNat < totalLen then
      dataExceptionWith .listDataRightTruncation
        "list concatenation exceeds the configured maximum list cardinality" span
    else .ok (.list (lhs ++ rhs))

def pathEndNode (start : NodeId) (segments : List (EdgeId × EdgeDirection × NodeId)) : NodeId :=
  (segments.getLast?.map fun segment => segment.2.2).getD start

def concatPaths (g : ℕ) (s : NodeId) (a : List (EdgeId × EdgeDirection × NodeId))
    (h : ℕ) (t : NodeId) (b : List (EdgeId × EdgeDirection × NodeId)) (span : SourceSpan)
    (caps : ImplDefinedCaps) : Evaluated :=
  if g ≠ h ∨ pathEndNode s a ≠ t then
    dataExceptionWith .malformedPath
      "path concatenation endpoints do not identify the same node" span
  else match checkedLen (a.length + b.length) with
    | none =>
      dataExceptionWith .pathDataRightTruncation "path concatenation length overflows" span
    | some segmentCount =>
      if caps.maxPathLength.toNat < segmentCount then
        dataExceptionWith .pathDataRightTruncation
          "path concatenation exceeds the configured maximum path length" span
      else .ok (.path g s (a ++ b))

def evalConcat (native : Native) (lhs rhs : Value) (span : SourceSpan) (caps : ImplDefinedCaps) :
    Evaluated :=
  if lhs.isNull || rhs.isNull then .ok .null
  else match lhs, rhs with
    | .string a, .string b => concatStrings native a b span caps
    | .bytes a, .bytes b => concatBytes a b span caps
    | .list a, .list b => concatLists a b span caps
    | .path g s a, .path h t b => concatPaths g s a h t b span caps
    | _, _ => dataException
        "concatenation operands must both be strings, byte strings, lists, or paths" span

/-! ## Binary operators -/

/-- Whether `needle` is somewhere in `text`. -/
def containsChars (needle : List Char) : List Char → Bool
  | [] => needle.isEmpty
  | c :: text => needle.isPrefixOf (c :: text) || containsChars needle text

/-- `eval_string_predicate`, on the characters of the strings. -/
def evalStringPredicate (test : List Char → List Char → Bool) (lhs rhs : Value)
    (span : SourceSpan) : Evaluated :=
  if lhs.isNull || rhs.isNull then .ok .null
  else match lhs, rhs with
    | .string a, .string b => .ok (.bool (test a.toList b.toList))
    | _, _ => dataException "string predicate operands are not both strings" span

def evalBinary (native : Native) (op : BinaryOp) (lhs rhs : Value) (span : SourceSpan)
    (caps : ImplDefinedCaps) : Evaluated :=
  match op with
  | .and => evalAnd lhs rhs span
  | .or => evalOr lhs rhs span
  | .eq => evalEquality false lhs rhs span
  | .ne => evalEquality true lhs rhs span
  | .lt => evalOrdering (· == .lt) lhs rhs span
  | .le => evalOrdering (· != .gt) lhs rhs span
  | .gt => evalOrdering (· == .gt) lhs rhs span
  | .ge => evalOrdering (· != .lt) lhs rhs span
  | .add | .sub | .mul | .div | .mod => evalArithmetic native op lhs rhs span
  | .power => evalPower native lhs rhs span
  | .xor => evalXor lhs rhs span
  | .concat => evalConcat native lhs rhs span caps
  | .contains => evalStringPredicate (fun text needle => containsChars needle text) lhs rhs span
  | .startsWith => evalStringPredicate (fun text needle => needle.isPrefixOf text) lhs rhs span
  | .endsWith => evalStringPredicate (fun text needle => needle.isSuffixOf text) lhs rhs span

end Selene.Query
