import Selene.Query.Evaluator

/-!
# The aggregate SUM

`pipeline/aggregate/numeric.rs` and the slot of `pipeline/aggregate.rs` for a `SUM` that is not
`DISTINCT`: the accumulator widens from 64 to 128 bits, to decimals and to floats.
-/

namespace Selene.Query

open Selene.Graph Binary

inductive NumericSum where
  | int (i : ℤ)
  | int128 (i : ℤ)
  | decimal (d : Decimal)
  | float (bits : UInt64)

def NumericSum.intoValue : NumericSum → Value
  | int i => .int i
  | int128 i => .int128 i
  | decimal d => .decimal d
  | float bits => .float bits

variable (native : Native) (span : SourceSpan)

def orOutOfRange {α : Type} (message : String) : Option α → Except EvalError α
  | some a => .ok a
  | none => dataExceptionWith .numericValueOutOfRange message span

/-- `finite_float`, of aggregates. -/
def finiteSum (bits : UInt64) : Except EvalError NumericSum :=
  orOutOfRange span "floating-point aggregate produced non-finite value"
    (if Float64.isFinite bits then some (.float bits) else none)

def numericValue : Value → Except EvalError NumericSum
  | .int i => .ok (.int i)
  | .uint n => .ok (((IntRange.i64.checked n).map .int).getD (.int128 n))
  | .int128 i => .ok (.int128 i)
  | .uint128 n => orOutOfRange span "unsigned 128-bit aggregate value is out of range"
      ((IntRange.i128.checked n).map .int128)
  | .decimal d => .ok (.decimal d)
  | .float bits => finiteSum span bits
  | .float32 bits => finiteSum span (native.widen bits)
  | _ => dataException "aggregate value is not numeric" span

/-- `i64_to_f64_exact` and `i128_to_f64_exact`: the bits below the first 53 are zero. -/
def exactFloat (i : ℤ) : Option UInt64 :=
  if i.natAbs % 2 ^ (bitLength i.natAbs - 53) = 0 then some (Float64.ofInt i) else none

def numericSumToF64 : NumericSum → Except EvalError UInt64
  | .int i => orOutOfRange span "integer aggregate value is not exactly float-representable" (exactFloat i)
  | .int128 i => orOutOfRange span "128-bit aggregate value is not exactly float-representable" (exactFloat i)
  | .decimal d => orOutOfRange span "decimal aggregate value is out of float range" (native.decimalToFloat d)
  | .float bits => .ok bits

def addI128 (lhs rhs : ℤ) : Except EvalError NumericSum :=
  orOutOfRange span "integer aggregate overflow" ((IntRange.i128.checked (lhs + rhs)).map .int128)

/-- `add_decimal`, of a decimal and an integer of 64 or 128 bits; those of 64 bits have a decimal. -/
def addDecimalInt (lhs : Decimal) (rhs : ℤ) : Except EvalError NumericSum := do
  let rhs ← orOutOfRange span "128-bit aggregate value exceeds DECIMAL range" (Decimal.ofInt? rhs)
  orOutOfRange span "decimal aggregate overflow" ((native.decimalAdd lhs rhs).map .decimal)

def addNumeric (current : Option NumericSum) (value : Value) : Except EvalError NumericSum := do
  let next ← numericValue native span value
  match current, next with
  | none, next => .ok next
  | some (.int a), .int b =>
    match IntRange.i64.checked (a + b) with
    | some i => .ok (.int i)
    | none => addI128 span a b
  | some (.int a), .int128 b | some (.int128 b), .int a => addI128 span a b
  | some (.int128 a), .int128 b => addI128 span a b
  | some (.decimal a), .decimal b =>
    orOutOfRange span "decimal aggregate overflow" ((native.decimalAdd a b).map .decimal)
  | some (.decimal a), .int b | some (.int b), .decimal a => addDecimalInt native span a b
  | some (.decimal a), .int128 b | some (.int128 b), .decimal a => addDecimalInt native span a b
  | some lhs, rhs => do
    finiteSum span (native.floatAdd (← numericSumToF64 native span lhs) (← numericSumToF64 native span rhs))

/-- `AggregateSlot::observe`, of a value that is evaluated. -/
def observeSum (current : Option NumericSum) (value : Value) : Except EvalError (Option NumericSum) :=
  if value.isNull then .ok current else (addNumeric native span current value).map some

/-- `finalize`. -/
def finalizeSum (current : Option NumericSum) : Value := (current.map NumericSum.intoValue).getD (.int 0)

def sumOf (values : List Value) : Evaluated :=
  (values.foldlM (observeSum native span) none).map finalizeSum

end Selene.Query
