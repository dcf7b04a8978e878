import Selene.Base.Bytes
import Selene.Graph.Value

/-!
# Keys and families of values

`numeric_value.rs`, `duration_type.rs` and `comparison_leaf_type` of `value_comparison.rs`: a number of
any representation has one exact key, a duration belongs to a family of units, and a leaf has a type
that decides what it can be compared with.
-/

namespace Selene.Graph

open Octets

/-! ## Keys of numbers -/

/-- `NumericKey`: a finite number is `significand * 2 ^ exponent / 5 ^ fives`, reduced. -/
inductive NumericKey where
  | finite (negative : Bool) (significand : ℕ) (exponent : ℤ) (fives : ℕ)
  | infinity (negative : Bool)
  | nan
deriving DecidableEq

namespace NumericKey

/-- The loop over the factors five. -/
def stripFives (significand : ℕ) : ℕ → ℕ × ℕ
  | 0 => (significand, 0)
  | fives + 1 => if significand % 5 = 0 then stripFives (significand / 5) fives else (significand, fives + 1)

/-- The trailing zeros of a significand of at most `width` bits are shifted out. -/
def stripTwos (significand : ℕ) (exponent : ℤ) : ℕ → ℕ × ℤ
  | 0 => (significand, exponent)
  | width + 1 =>
    if significand % 2 = 0 then stripTwos (significand / 2) (exponent + 1) width
    else (significand, exponent)

/-- `finite`. -/
def reduce (negative : Bool) (significand : ℕ) (exponent : ℤ) (fives : ℕ) : NumericKey :=
  if significand = 0 then .finite false 0 0 0
  else
    let (significand, fives) := stripFives significand fives
    let (significand, exponent) := stripTwos significand exponent 128
    .finite negative significand exponent fives

/-- `binary`, of a format with `fraction` bits of fraction and the biased exponent `top` for
infinities and NaNs. -/
def binary (fraction top : ℕ) (bias : ℤ) (bits : ℕ) : NumericKey :=
  let mantissa := bits % 2 ^ fraction
  let exponent := bits / 2 ^ fraction % (top + 1)
  let negative := bits / 2 ^ fraction / (top + 1) ≠ 0
  if exponent = top then if mantissa = 0 then .infinity negative else .nan
  else if exponent = 0 then reduce negative mantissa (1 - bias) 0
  else reduce negative (mantissa + 2 ^ fraction) (exponent - bias) 0

def ofFloat (bits : UInt64) : NumericKey := binary 52 0x7FF 1075 bits.toNat

/-- `f64::from` keeps the number. -/
def ofFloat32 (bits : UInt32) : NumericKey := binary 23 0xFF 150 bits.toNat

def of : Value → Option NumericKey
  | .int i | .int128 i => some (reduce (i < 0) i.natAbs 0 0)
  | .uint n | .uint128 n => some (reduce false n 0 0)
  | .decimal d => some (reduce (d.mantissa < 0) d.mantissa.natAbs (-d.scale) d.scale)
  | .float bits => some (ofFloat bits)
  | .float32 bits => some (ofFloat32 bits)
  | _ => none

/-- A two's complement number of `w` bytes. -/
def leInt (w : ℕ) (i : ℤ) : Bytes := leBytes w (i % 2 ^ (8 * w)).toNat

/-- `append_grouping_key`. -/
def groupingKey : NumericKey → Bytes
  | .finite negative significand exponent fives =>
    [0, if negative then 1 else 0] ++ leBytes 16 significand ++ leInt 4 exponent ++ leBytes 4 fives
  | .infinity negative => [1, if negative then 1 else 0]
  | .nan => [2]

end NumericKey

/-! ## Keys of values -/

def maxStructuralTypeDepth : ℕ := 256

inductive DurationValueFamily where
  | zero
  | yearMonth
  | dayTime
deriving DecidableEq

/-- `duration_value_family`. -/
def Span.family (s : Span) : Option DurationValueFamily :=
  match decide (s.orderKey.1 ≠ 0), decide (s.orderKey.2 ≠ 0) with
  | false, false => some .zero
  | true, false => some .yearMonth
  | false, true => some .dayTime
  | true, true => none

/-! ## Comparison domains -/

/-- The types `comparison_leaf_type` gives, by what `comparable_with` tells apart. -/
inductive LeafType where
  | boolean | numeric | string | bytes | uuid | json | vector
  | date | localDateTime | zonedDateTime | localTime | zonedTime
  | duration (family : DurationValueFamily)
  | node | edge | graph | path | table
deriving DecidableEq

/-- `comparison_leaf_type`. -/
def LeafType.of : Value → Option LeafType
  | .bool _ => some .boolean
  | .int _ | .int128 _ | .uint _ | .uint128 _ | .float _ | .float32 _ | .decimal _ => some .numeric
  | .string _ => some .string
  | .bytes _ => some .bytes
  | .uuid _ => some .uuid
  | .json _ => some .json
  | .vector _ => some .vector
  | .date _ => some .date
  | .localDateTime _ => some .localDateTime
  | .zonedDateTime _ => some .zonedDateTime
  | .localTime _ => some .localTime
  | .zonedTime _ => some .zonedTime
  | .duration s => s.family.map .duration
  | .nodeRef _ => some .node
  | .edgeRef _ => some .edge
  | .graphRef _ => some .graph
  | .path _ _ _ => some .path
  | .tableRef _ => some .table
  | _ => none

/-- `comparable_with` for distinctness: a zero duration goes with either unit group. -/
def LeafType.comparableWith : LeafType → LeafType → Bool
  | .duration .zero, .duration _ | .duration _, .duration .zero => true
  | a, b => a == b

end Selene.Graph
