import Selene.Query.ConstantFolding
import Selene.Proof.NumericExact

/-!
# Constant folding against evaluation

Folding and evaluation compute the same, except where the folder takes an integer to the nearest
float before it compares: an integer beyond 53 bits can land on a float it is not equal to, and the
comparison is then folded as if it were (`foldExpr_preserves_iff`). The comparisons go through
`ComparesTo`, the order the evaluator finds between two values.
-/

namespace Selene.Query

open Selene.Graph Binary List Option Float64 Value

variable {op : BinaryOp} {i : Int64} {t : LeafType} {l out r : Literal} {test : Ordering → Bool}
  {bits : UInt64} {v w : Value}

/-! ## The comparison of two leaves -/

theorem observe_leaf (h : LeafType.of v = some t) (mode : ComparisonMode)
    (d : Domain) : Domain.observe mode 1 v d = Domain.observeLeaf mode v d := by
  cases v <;> first | rfl | exact absurd h (by simp [LeafType.of])

/-- The leaf types whose values can be told apart and ordered. -/
abbrev Plain (t : LeafType) : Prop :=
  t.comparableIn .predicateEquality t = true ∧ t.comparableIn .ordering t = true

theorem ensurePair_plain (hv : LeafType.of v = some t)
    (hw : LeafType.of w = some t) {mode : ComparisonMode} (ht : t.comparableIn mode t = true)
    (span : SourceSpan) : ensurePair v w mode span = .ok () := by
  have hfirst : Domain.observe mode 1 v .unknown = .ok (.leaf t) := by
    rw [observe_leaf hv, Domain.observeLeaf, hv]
    simp [ht]
  have hsecond : Domain.observe mode 1 w (.leaf t) = .ok (.leaf t) := by
    rw [observe_leaf hw, Domain.observeLeaf, hw]
    simp [ht]
  rw [ensurePair, Domain.ensurePair, hfirst]
  simp [bind, Except.bind, hsecond, discard, Functor.discard, Except.mapError, Functor.mapConst,
    Except.map]

/-- The leaf types whose values are equal only within their variant, as what they carry. -/
def byVariant : LeafType → Bool
  | .numeric | .duration _ | .path => false
  | _ => true

theorem gqlEqual_of_leaf (hv : LeafType.of v = some t)
    (ht : byVariant t = true) (w : Value) : v.gqlEqualNonNull w = some (v.eq w) := by
  cases v <;> simp only [LeafType.of, Option.some.injEq, reduceCtorEq, map_eq_some_iff] at hv
  case duration s =>
    obtain ⟨f, -, rfl⟩ := hv
    exact absurd ht Bool.false_ne_true
  all_goals
    subst hv
    first
    | exact absurd ht Bool.false_ne_true
    | simp [gqlEqualNonNull.eq_def, NumericKey.of, equalNonNull.eq_def]

/-- The evaluator can compare the two values, and finds this order. -/
structure ComparesTo (v w : Value) (order : Ordering) : Prop where
  type : ∃ t, LeafType.of v = some t ∧ LeafType.of w = some t ∧ Plain t
  equal : v.gqlEqualNonNull w = some (order == .eq)
  compare : v.compareValuePair w = some order

theorem isNull_of_leaf (h : LeafType.of v = some t) : v.isNull = false := by
  cases v <;> first | rfl | exact absurd h (by simp [LeafType.of])

section Native

variable (native : Native) (caps : ImplDefinedCaps)

variable (htest : comparison op = some test)

include htest in
theorem evalBinary_comparison {order : Ordering} (h : ComparesTo v w order) (span : SourceSpan) :
    evalBinary native op v w span caps = .ok (.bool (test order)) := by
  obtain ⟨⟨t, hv, hw, hplain⟩, hequal, hcompare⟩ := h
  have heq : ∀ negated, evalEquality negated v w span =
      .ok (.bool ((order == .eq) ^^ negated)) := fun negated => by
    rw [evalEquality, ensurePair_plain hv hw hplain.1, isNull_of_leaf hv, isNull_of_leaf hw, hequal]
    rfl
  have hord : ∀ test, evalOrdering test v w span = .ok (.bool (test order)) := fun test => by
    rw [evalOrdering, ensurePair_plain hv hw hplain.2, isNull_of_leaf hv, isNull_of_leaf hw,
      hcompare]
    rfl
  cases op <;> simp only [comparison, Option.some.injEq, reduceCtorEq] at htest <;> subst htest <;>
    simp [evalBinary, heq, hord, bne]

/-! ## What the evaluator finds -/

theorem leafType_of_denotes {q : ℚ} (h : v.Denotes q) : LeafType.of v = some .numeric := by
  obtain ⟨key, hkey, -⟩ := h
  cases v <;> first | rfl | exact absurd hkey (by simp [NumericKey.of])

theorem comparesTo_of_denotes {q r : ℚ} (hv : v.Denotes q) (hw : w.Denotes r) :
    ComparesTo v w (compare q r) := by
  refine ⟨⟨.numeric, leafType_of_denotes hv, leafType_of_denotes hw, by decide, by decide⟩, ?_, ?_⟩
  all_goals
    obtain ⟨a, ha, hsa, rfl⟩ := hv
    obtain ⟨b, hb, hsb, rfl⟩ := hw
    have hcmp := NumericKey.predicateCmp_exact hsa hsb
  · rw [gqlEqualNonNull.eq_def, ha, hb]
    simp [hcmp]
  · rw [compareValuePair.eq_def, ha, hb]
    exact hcmp

theorem comparesTo_of_variant {α : Type} [BEq α] [LawfulBEq α] [Ord α] [Std.LawfulEqOrd α]
    (wrap : α → Value) (t : LeafType) (a b : α) (htype : ∀ a, LeafType.of (wrap a) = some t := by exact fun _ => rfl)
    (ht : byVariant t = true ∧ Plain t := by decide)
    (hequal : ∀ a b, (wrap a).eq (wrap b) = (a == b) := by exact fun _ _ => by rw [eq])
    (hcompare : ∀ a b, (wrap a).compareValuePair (wrap b) = some (compare a b) := by exact fun _ _ => rfl) :
    ComparesTo (wrap a) (wrap b) (compare a b) := by
  refine ⟨⟨t, htype a, htype b, ht.2⟩, ?_, hcompare a b⟩
  rw [gqlEqual_of_leaf (htype a) ht.1, hequal, Option.some.injEq, Bool.eq_iff_iff, beq_iff_eq,
    beq_iff_eq, Std.compare_eq_iff_eq]

/-! ## Integers and floats -/

/-- The number of a numeric literal. -/
def Literal.number : Literal → ℚ
  | .integer i _ | .radixInteger i _ _ => i.toInt
  | .decimal d _ _ => d.toRat
  | .float bits _ _ => toRat bits
  | _ => 0

/-- An integer literal that the nearest float makes equal to a finite float literal, though the
two are different numbers. -/
def RoundsOnto (integer float : Literal) : Prop :=
  ∃ i bits span kind, integerValue integer = some i ∧ float = .float bits span kind ∧
    isFinite bits = true ∧ toRat (ofInt i.toInt) = toRat bits ∧
      integer.number ≠ float.number

theorem natAbs_toInt_lt (i : Int64) : i.toInt.natAbs < 2 ^ 64 := by
  have := i.le_toInt
  have := i.toInt_lt
  omega

theorem denotes_integer (h : integerValue l = some i) :
    (literalValue l).Denotes l.number ∧ l.number = i.toInt := by
  have hlt := natAbs_toInt_lt i
  cases l <;> simp only [integerValue, Option.some.injEq, reduceCtorEq] at h <;> subst h
  all_goals exact ⟨denotes_int (by omega), rfl⟩

theorem compare_ofInt (i : Int64) (bits : UInt64)
    (h : toRat (ofInt i.toInt) = toRat bits → (i.toInt : ℚ) = toRat bits) :
    compare (toRat (ofInt i.toInt)) (toRat bits) = compare (i.toInt : ℚ) (toRat bits) := by
  have hround := toRat_ofInt (natAbs_toInt_lt i)
  rw [hround] at h ⊢
  exact compare_roundInt (by norm_num) (representable bits) h

include htest in
theorem foldNumericComparison_left (hl : integerValue l = some i)
    (hbits : isFinite bits = true) (span : SourceSpan) (kind : FloatLiteralKind) :
    foldNumericComparison op l (.float bits span kind) =
      some (test (compare (toRat (ofInt i.toInt)) (toRat bits))) := by
  have hfloat : integerValue (.float bits span kind) = none := rfl
  rw [foldNumericComparison, hl, hfloat]
  simp [hbits, comparePartial, htest]

include htest in
theorem foldNumericComparison_right (hr : integerValue r = some i)
    (hbits : isFinite bits = true) (span : SourceSpan) (kind : FloatLiteralKind) :
    foldNumericComparison op (.float bits span kind) r =
      some (test (compare (toRat bits) (toRat (ofInt i.toInt)))) := by
  have hfloat : integerValue (.float bits span kind) = none := rfl
  rw [foldNumericComparison, hr, hfloat]
  simp [hbits, comparePartial, htest]

/-- The literals are compared as their numbers, or taken for equal after a rounding. -/
def Agrees (l r : Literal) (folded exact : Ordering) : Prop :=
  folded = exact ∨
    folded = .eq ∧ exact = compare l.number r.number ∧ (RoundsOnto l r ∨ RoundsOnto r l)

theorem agrees_left (hl : integerValue l = some i)
    (hbits : isFinite bits = true) (span : SourceSpan) (kind : FloatLiteralKind) :
    Agrees l (.float bits span kind)
      (compare (toRat (ofInt i.toInt)) (toRat bits))
      (compare l.number (Literal.float bits span kind).number) := by
  have hnumber := (denotes_integer hl).2
  by_cases h : toRat (ofInt i.toInt) = toRat bits → (i.toInt : ℚ) = toRat bits
  · left
    rw [compare_ofInt i bits h, hnumber]
    rfl
  · right
    push Not at h
    refine ⟨compare_eq_iff_eq.2 h.1, rfl, .inl ⟨i, bits, span, kind, hl, rfl, hbits, h.1, ?_⟩⟩
    rw [hnumber]
    exact h.2

theorem Agrees.symm {folded exact : Ordering} (h : Agrees l r folded exact) :
    Agrees r l folded.swap exact.swap := by
  obtain rfl | ⟨rfl, rfl, h⟩ := h
  · exact .inl rfl
  · exact .inr ⟨rfl, (Std.OrientedCmp.eq_swap).symm, h.symm⟩

include htest in
theorem foldNumericComparison_spec {answer : Bool}
    (h : foldNumericComparison op l r = some answer) :
    ∃ folded exact, answer = test folded ∧
      ComparesTo (literalValue l) (literalValue r) exact ∧ Agrees l r folded exact := by
  cases hl : integerValue l with
  | some i =>
    obtain ⟨hdenotes, hnumber⟩ := denotes_integer hl
    cases hr : integerValue r with
    | some j =>
      obtain ⟨hdenotes', hnumber'⟩ := denotes_integer hr
      rw [foldNumericComparison, hl, hr] at h
      simp only [compareOrdering, htest, Option.some.injEq] at h
      have hcast : compare l.number r.number = compare i.toInt j.toInt := by
        rw [hnumber, hnumber']
        exact compare_congr Int.cast_lt Int.cast_lt
      exact ⟨_, _, h.symm, comparesTo_of_denotes hdenotes hdenotes', .inl hcast.symm⟩
    | none =>
      rw [foldNumericComparison, hl, hr] at h
      simp only at h
      split at h
      · split_ifs at h with hfin
        rw [comparePartial, htest, map_some, Option.some.injEq] at h
        exact ⟨_, _, h.symm, comparesTo_of_denotes hdenotes (denotes_float hfin),
          agrees_left hl hfin _ _⟩
      · cases h
  | none =>
    cases hr : integerValue r with
    | some j =>
      obtain ⟨hdenotes', hnumber'⟩ := denotes_integer hr
      rw [foldNumericComparison, hl, hr] at h
      simp only at h
      split at h
      · split_ifs at h with hfin
        rename_i bits span kind
        rw [comparePartial, htest, map_some, Option.some.injEq] at h
        have hagrees := (agrees_left hr hfin span kind).symm
        rw [← Std.OrientedCmp.eq_swap, ← Std.OrientedCmp.eq_swap] at hagrees
        exact ⟨_, _, h.symm, comparesTo_of_denotes (denotes_float hfin) hdenotes', hagrees⟩
      · cases h
    | none =>
      rw [foldNumericComparison, hl, hr] at h
      cases h

include htest in
/-- A comparison that the folder answers, the evaluator answers too: by the same test, of an order
that agrees. -/
theorem comparedLiterals_spec {answer : Bool} (h : comparedLiterals op l r = some answer) :
    ∃ folded exact, answer = test folded ∧
      ComparesTo (literalValue l) (literalValue r) exact ∧ Agrees l r folded exact := by
  have hsame : ∀ order, answer = test order → ComparesTo (literalValue l) (literalValue r) order →
      ∃ folded exact, answer = test folded ∧
        ComparesTo (literalValue l) (literalValue r) exact ∧ Agrees l r folded exact :=
    fun order ha ho => ⟨order, order, ha, ho, .inl rfl⟩
  have hord : ∀ {α : Type} [Ord α] {a b : α}, some (compareOrdering op a b) = some answer →
      answer = test (compare a b) := fun h => by
    rw [← Option.some.inj h, compareOrdering, htest]
  unfold comparedLiterals at h
  split at h
  · rename_i a _ b _
    have hbool : answer = test (compare a b) := by
      cases op <;> simp only [comparison, Option.some.injEq, reduceCtorEq] at htest h <;>
        subst htest h <;> cases a <;> cases b <;> rfl
    exact hsame _ hbool (comparesTo_of_variant .bool .boolean a b)
  · rename_i a _ _ b _ _
    split_ifs at h with hfin
    rw [Bool.and_eq_true] at hfin
    rw [comparePartial, htest, map_some, Option.some.injEq] at h
    exact hsame _ h.symm
      (comparesTo_of_denotes (denotes_float hfin.1) (denotes_float hfin.2))
  · exact hsame _ (hord h) (comparesTo_of_denotes (denotes_decimal _) (denotes_decimal _))
  · exact hsame _ (hord h) (comparesTo_of_variant .string .string _ _)
  · exact hsame _ (hord h) (comparesTo_of_variant .bytes .bytes _ _)
  · exact hsame _ (hord h) (comparesTo_of_variant .date .date _ _)
  · exact hsame _ (hord h) (comparesTo_of_variant .localDateTime .localDateTime _ _)
  · exact hsame _ (hord h) (comparesTo_of_variant .localTime .localTime _ _)
  · exact foldNumericComparison_spec htest h

/-! ## The other operators -/

theorem toInt_of_range {i : ℤ} (hmin : -2 ^ 63 ≤ i) (hmax : i ≤ 2 ^ 63 - 1) :
    (Int64.ofInt i).toInt = i :=
  Int64.toInt_ofInt_of_le hmin (by omega)

theorem toInt_of_checked {i j : ℤ} (h : IntRange.i64.checked i = some j) :
    (Int64.ofInt j).toInt = j := by
  rw [IntRange.checked] at h
  split_ifs at h with hrange
  obtain rfl := Option.some.inj h
  exact toInt_of_range hrange.1 hrange.2

theorem toInt_tmod (i : Int64) (j : ℤ) : (Int64.ofInt (i.toInt.tmod j)).toInt = i.toInt.tmod j := by
  have hmin := i.le_toInt
  have hmax := i.toInt_lt
  have habs : (i.toInt.tmod j).natAbs ≤ i.toInt.natAbs := by
    rw [Int.natAbs_tmod]
    exact Nat.mod_le _ _
  rcases le_or_gt 0 i.toInt with hi | hi
  · exact toInt_of_range (by omega) (by omega)
  · have hneg : (-i.toInt).tmod j = -(i.toInt.tmod j) := Int.neg_tmod ..
    have := Int.tmod_nonneg j (show 0 ≤ -i.toInt by omega)
    exact toInt_of_range (by omega) (by omega)

theorem toInt_of_arithmetic {j k : ℤ}
    (h : IntRange.i64.arithmetic op i.toInt j = some k) : (Int64.ofInt k).toInt = k := by
  cases op <;> simp only [IntRange.arithmetic, reduceCtorEq] at h
  case add | sub | mul => exact toInt_of_checked h
  case div =>
    split_ifs at h with hj
    exact toInt_of_checked h
  case mod =>
    split_ifs at h with hj
    obtain ⟨_, -, rfl⟩ := map_eq_some_iff.1 h
    exact toInt_tmod i j

variable {span : SourceSpan}

theorem finiteFloat_eq_some {kind : FloatLiteralKind}
    (h : finiteFloat bits span kind = some out) :
    isFinite bits = true ∧ out = .float bits span kind := by
  rw [finiteFloat] at h
  split_ifs at h with hfin
  exact ⟨hfin, (Option.some.inj h).symm⟩

theorem foldUnaryLiteral_spec {op : UnaryOp} {span : SourceSpan} (h : foldUnaryLiteral op l span = some out) :
    evalUnary op (literalValue l) span = .ok (literalValue out) := by
  have hneg : ∀ i : Int64, (IntRange.i64.checked (-i.toInt)).map
      (fun folded => Literal.integer (Int64.ofInt folded) span) = some out →
      evalUnary .negate (.int i.toInt) span = .ok (literalValue out) := fun i h => by
    obtain ⟨j, hj, rfl⟩ := map_eq_some_iff.1 h
    rw [evalUnary, hj, literalValue, toInt_of_checked hj]
    rfl
  unfold foldUnaryLiteral at h
  split at h
  · obtain rfl := Option.some.inj h
    rfl
  · exact hneg _ h
  · exact hneg _ h
  · obtain rfl := Option.some.inj h
    rfl
  · obtain ⟨-, rfl⟩ := finiteFloat_eq_some h
    rfl
  · cases h

theorem foldedFloat_eq (op : BinaryOp) (a b : UInt64) :
    foldedFloat native op a b = floatResult native op a b := by
  cases op <;> rfl

theorem foldedDecimal_eq (op : BinaryOp) (a b : Decimal) :
    foldedDecimal native op a b = decimalResult native op a b := by
  by_cases hz : b.isZero = true
  · have hdiv := native.decimalDiv_zero a b hz
    have hrem := native.decimalRem_zero a b hz
    cases op <;> simp [foldedDecimal, decimalResult, hz, hdiv, hrem]
  · cases op <;> simp [foldedDecimal, decimalResult, hz]

theorem literalValue_of_integer (h : integerValue l = some i) : literalValue l = .int i.toInt := by
  cases l <;> simp only [integerValue, Option.some.injEq, reduceCtorEq] at h <;> subst h <;> rfl

theorem foldArithmetic_spec (h : foldArithmetic native op l r span = some out) :
    evalArithmetic native op (literalValue l) (literalValue r) span = .ok (literalValue out) := by
  unfold foldArithmetic at h
  split at h
  · rename_i i j hl hr
    obtain ⟨k, hk, rfl⟩ := map_eq_some_iff.1 h
    rw [literalValue_of_integer hl, literalValue_of_integer hr, literalValue, toInt_of_arithmetic hk]
    simp [evalArithmetic, isNull, evalNumericArithmetic, evalIntArithmetic, hk, orOverflow]
  · split at h
    · obtain ⟨value, hvalue, hfinite⟩ := bind_eq_some_iff.1 h
      obtain ⟨hfin, rfl⟩ := finiteFloat_eq_some hfinite
      rw [foldedFloat_eq] at hvalue
      simp [evalArithmetic, isNull, evalNumericArithmetic, numericToF64, literalValue,
        evalFloatArithmetic, hvalue, hfin]
    · obtain ⟨value, hvalue, rfl⟩ := map_eq_some_iff.1 h
      rw [foldedDecimal_eq] at hvalue
      simp [evalArithmetic, isNull, evalNumericArithmetic, literalValue,
        evalDecimalArithmetic, hvalue, orOverflow]
    · cases h

theorem foldBoolean_spec (h : foldBoolean op l r span = some out) :
    evalBinary native op (literalValue l) (literalValue r) span caps = .ok (literalValue out) := by
  unfold foldBoolean at h
  split at h
  · rename_i a _ b _
    cases op <;> simp only [Option.some.injEq, reduceCtorEq] at h <;> subst h <;>
      cases a <;> cases b <;> rfl
  · cases h

theorem foldedStringConcat_spec {a b value : String}
    (h : foldedStringConcat native a b caps = some value) (span : SourceSpan) :
    concatStrings native a b span caps = stringConcatValue value span := by
  obtain ⟨len, hlen, h⟩ := bind_eq_some_iff.1 h
  rw [concatStrings, hlen]
  dsimp only at h ⊢
  split_ifs at h ⊢
  · rw [Option.some.inj h]
  · rw [Option.some.inj h]

theorem foldedByteConcat_spec {a b value : List UInt8}
    (h : foldedByteConcat a b caps = some value) (span : SourceSpan) :
    concatBytes a b span caps = .ok (.bytes value) := by
  obtain ⟨len, hlen, h⟩ := bind_eq_some_iff.1 h
  rw [concatBytes, hlen]
  dsimp only at h ⊢
  rw [cappedByteConcatLen]
  split_ifs at h ⊢
  · rw [← Option.some.inj h]
    rfl
  · rw [← Option.some.inj h]
    rfl

theorem foldConcat_spec (h : foldConcat native l r span caps = some out) :
    evalConcat native (literalValue l) (literalValue r) span caps = .ok (literalValue out) := by
  unfold foldConcat at h
  split at h
  · obtain ⟨value, hvalue, h⟩ := bind_eq_some_iff.1 h
    obtain ⟨text, htext, h⟩ := bind_eq_some_iff.1 h
    have := foldedStringConcat_spec native caps hvalue span
    simp only [evalConcat, literalValue, isNull, Bool.or_self, Bool.false_eq_true, if_false]
    rw [this, stringConcatValue, htext, ← Option.some.inj h]
  · obtain ⟨value, hvalue, h⟩ := bind_eq_some_iff.1 h
    have := foldedByteConcat_spec caps hvalue span
    simp only [evalConcat, literalValue, isNull, Bool.or_self, Bool.false_eq_true, if_false]
    rw [this, ← Option.some.inj h]
  · cases h

/-! ## Folding and evaluation -/

/-- The operators whose answer for two different numbers is not the answer for equal ones. -/
def SeesDifference (op : BinaryOp) (x y : ℚ) : Prop :=
  op = .eq ∨ op = .ne ∨ x < y ∧ (op = .lt ∨ op = .ge) ∨ y < x ∧ (op = .le ∨ op = .gt)

include htest in
theorem test_compare_iff {x y : ℚ} (hne : x ≠ y) :
    test .eq = test (compare x y) ↔ ¬ SeesDifference op x y := by
  rcases lt_or_gt_of_ne hne with h | h
  · have hgt : ¬ y < x := h.not_gt
    rw [compare_lt_iff_lt.2 h, SeesDifference]
    cases op <;> simp only [comparison, Option.some.injEq, reduceCtorEq] at htest <;> subst htest <;>
      simp [h, hgt, bne]
  · have hlt : ¬ x < y := not_lt.2 h.le
    rw [compare_gt_iff_gt.2 h, SeesDifference]
    cases op <;> simp only [comparison, Option.some.injEq, reduceCtorEq] at htest <;> subst htest <;>
      simp [h, hlt, bne]

/-- A comparison of an integer with a float that the rounding of the integer decides. -/
def Misfolded {ε : Type} : ValueExpr ε → Prop
  | .binaryOp op (.literal l) (.literal r) _ =>
    (RoundsOnto l r ∨ RoundsOnto r l) ∧ SeesDifference op l.number r.number
  | _ => False

theorem SeesDifference.comparison {x y : ℚ} (h : SeesDifference op x y) :
    ∃ test, comparison op = some test := by
  obtain rfl | rfl | ⟨-, rfl | rfl⟩ | ⟨-, rfl | rfl⟩ := h <;> exact ⟨_, rfl⟩

theorem number_ne (h : RoundsOnto l r ∨ RoundsOnto r l) : l.number ≠ r.number := by
  obtain ⟨_, _, _, _, -, -, -, -, hne⟩ | ⟨_, _, _, _, -, -, -, -, hne⟩ := h
  · exact hne
  · exact hne.symm

include htest in
theorem foldLiterals_comparison
    (hl : (literalValue l).isNull = false) (hr : (literalValue r).isNull = false) (span : SourceSpan) :
    foldLiterals native op l r span caps = foldComparison op l r span := by
  cases op <;> simp only [comparison, reduceCtorEq] at htest <;> simp [foldLiterals, hl, hr]

/-- What folds also evaluates, to the same value unless a rounding decides. -/
theorem foldLiterals_spec {span : SourceSpan} (h : foldLiterals native op l r span caps = some out) :
    ∃ v, evalBinary native op (literalValue l) (literalValue r) span caps = .ok v ∧
      (v = literalValue out ∨ (RoundsOnto l r ∨ RoundsOnto r l) ∧
        SeesDifference op l.number r.number) := by
  have hcomparison : ∀ {test}, comparison op = some test → foldComparison op l r span = some out →
      ∃ v, evalBinary native op (literalValue l) (literalValue r) span caps = .ok v ∧
        (v = literalValue out ∨ (RoundsOnto l r ∨ RoundsOnto r l) ∧
          SeesDifference op l.number r.number) := fun htest h => by
    obtain ⟨answer, hanswer, rfl⟩ := map_eq_some_iff.1 h
    obtain ⟨folded, exact', rfl, hcompares, hagrees⟩ := comparedLiterals_spec htest hanswer
    refine ⟨_, evalBinary_comparison native caps htest hcompares span, ?_⟩
    obtain rfl | ⟨rfl, rfl, hrounds⟩ := hagrees
    · exact .inl rfl
    · by_cases hsees : SeesDifference op l.number r.number
      · exact .inr ⟨hrounds, hsees⟩
      · left
        rw [← (test_compare_iff htest (number_ne hrounds)).2 hsees]
        rfl
  unfold foldLiterals at h
  split_ifs at h with hnull
  cases op <;> simp only [reduceCtorEq] at h
  case add | sub | mul | div | mod => exact ⟨_, foldArithmetic_spec native h, .inl rfl⟩
  case eq | ne | lt | le | gt | ge => exact hcomparison rfl h
  case and | or | xor => exact ⟨_, foldBoolean_spec native caps h, .inl rfl⟩
  case concat => exact ⟨_, foldConcat_spec native caps h, .inl rfl⟩

include htest in
theorem comparedLiterals_of_roundsOnto (h : RoundsOnto l r ∨ RoundsOnto r l) :
    comparedLiterals op l r = some (test .eq) ∧
      ComparesTo (literalValue l) (literalValue r) (compare l.number r.number) := by
  obtain ⟨i, bits, span, kind, hi, rfl, hfin, heq, -⟩ | ⟨i, bits, span, kind, hi, rfl, hfin, heq, -⟩ := h
  · refine ⟨?_, comparesTo_of_denotes (denotes_integer hi).1 (denotes_float hfin)⟩
    have hcompare := foldNumericComparison_left htest hi hfin span kind
    rw [compare_eq_iff_eq.2 heq] at hcompare
    rw [← hcompare]
    cases l <;> first | rfl | cases hi
  · refine ⟨?_, comparesTo_of_denotes (denotes_float hfin) (denotes_integer hi).1⟩
    have hcompare := foldNumericComparison_right htest hi hfin span kind
    rw [compare_eq_iff_eq.2 heq.symm] at hcompare
    rw [← hcompare]
    cases r <;> first | rfl | cases hi

theorem isNull_of_comparesTo {order : Ordering} (h : ComparesTo (literalValue l) (literalValue r) order) :
    (literalValue l).isNull = false ∧ (literalValue r).isNull = false := by
  obtain ⟨t, hl, hr, -⟩ := h.type
  exact ⟨isNull_of_leaf hl, isNull_of_leaf hr⟩

variable {ε : Type} (env : ε → Evaluated)

theorem foldExpr_spec {e folded : ValueExpr ε} (h : foldExpr native caps e = some folded) :
    ∃ l v, folded = .literal l ∧ evaluate native caps env e = .ok v ∧
      (v = literalValue l ∨ Misfolded e) := by
  cases e with
  | literal _ => cases h
  | other _ => cases h
  | unaryOp op operand span =>
    obtain ⟨out, hout, rfl⟩ := map_eq_some_iff.1 h
    cases operand with
    | literal l => exact ⟨out, _, rfl, foldUnaryLiteral_spec hout, .inl rfl⟩
    | _ => cases hout
  | binaryOp op lhs rhs span =>
    obtain ⟨out, hout, rfl⟩ := map_eq_some_iff.1 h
    unfold foldBinary at hout
    split at hout
    · obtain ⟨v, hv, hor⟩ := foldLiterals_spec native caps hout
      exact ⟨out, v, rfl, hv, hor⟩
    · cases hout

theorem misfolded_diverges {e : ValueExpr ε} (h : Misfolded e) :
    ∃ l v, foldExpr native caps e = some (.literal l) ∧ evaluate native caps env e = .ok v ∧
      v ≠ literalValue l := by
  unfold Misfolded at h
  split at h
  · rename_i op l r span
    obtain ⟨hrounds, hsees⟩ := h
    obtain ⟨test, htest⟩ := hsees.comparison
    obtain ⟨hfold, hcompares⟩ := comparedLiterals_of_roundsOnto htest hrounds
    obtain ⟨hl, hr⟩ := isNull_of_comparesTo hcompares
    refine ⟨.bool (test .eq) span, .bool (test (compare l.number r.number)), ?_,
      evalBinary_comparison native caps htest hcompares span, ?_⟩
    · simp [foldExpr, foldBinary, foldLiterals_comparison native caps htest hl hr, foldComparison,
        hfold]
    · intro hsame
      have heq : test (compare l.number r.number) = test .eq := by
        simpa [literalValue] using hsame
      exact (test_compare_iff htest (number_ne hrounds)).1 heq.symm hsees
  · exact h.elim

/-- **Folding preserves evaluation, unless the expression compares an integer with a float that the
integer is not equal to but rounds to, by an operator that sees the difference.** An expression
whose evaluation raises an error is never folded. -/
theorem foldExpr_preserves_iff (e : ValueExpr ε) :
    ((∀ folded, foldExpr native caps e = some folded →
        ∃ l, folded = .literal l ∧ evaluate native caps env e = .ok (literalValue l)) ∧
      ∀ err, evaluate native caps env e = .error err → foldExpr native caps e = none) ↔
      ¬ Misfolded e := by
  constructor
  · rintro ⟨hpreserves, -⟩ hmis
    obtain ⟨l, v, hfold, heval, hne⟩ := misfolded_diverges native caps env hmis
    obtain ⟨l', hl, heval'⟩ := hpreserves _ hfold
    obtain rfl : l = l' := by simpa using hl
    rw [heval] at heval'
    exact hne (Except.ok.inj heval')
  · intro hmis
    refine ⟨fun folded hfold => ?_, fun err herr => ?_⟩
    · obtain ⟨l, v, rfl, heval, rfl | h⟩ := foldExpr_spec native caps env hfold
      · exact ⟨l, rfl, heval⟩
      · exact absurd h hmis
    · cases hfold : foldExpr native caps e with
      | none => rfl
      | some folded =>
        obtain ⟨l, v, -, heval, -⟩ := foldExpr_spec native caps env hfold
        rw [heval] at herr
        cases herr

end Native

namespace Sample

/-- Foreign operations that return their first operand. -/
def native : Native where
  floatAdd a _ := a
  floatSub a _ := a
  floatMul a _ := a
  floatDiv a _ := a
  floatRem a _ := a
  powf a _ := a
  fract a := a
  remEuclid a _ := a
  widen _ := 0
  decimalAdd a _ := some a
  decimalSub a _ := some a
  decimalMul a _ := some a
  decimalDiv _ _ := none
  decimalRem _ _ := none
  decimalDiv_zero _ _ _ := rfl
  decimalRem_zero _ _ _ := rfl
  decimalToFloat _ := none
  durationArithmetic _ a _ _ := .ok (.duration a)
  durationScaling _ a _ _ := .ok (.duration a)
  durationPlusTemporal a _ _ := .ok (.duration a)
  temporalDuration _ v _ _ := .ok v
  isNfc _ := true
  nfc s := s

def caps : ImplDefinedCaps := ⟨100, 100, 100, 100⟩

def span : SourceSpan := ⟨0, 1⟩

/-- The first integer that is no float. -/
def beyond : Literal := .integer 9007199254740993 span

/-- `9007199254740992e0`, the float it is rounded to. -/
def rounded : Literal := .float 0x4340000000000000 span .scientificWithoutSuffix

theorem rounded_number : rounded.number = 9007199254740992 := by
  have hneg : isNegative 0x4340000000000000 = false := by decide
  have hsig : significand 0x4340000000000000 = 2 ^ 52 := by decide
  have hexp : exponent 0x4340000000000000 = 1 := by decide
  rw [rounded, Literal.number, toRat, hneg, hsig, hexp]
  norm_num

theorem beyond_roundsOnto : RoundsOnto beyond rounded := by
  have hofInt : ofInt (Int64.toInt 9007199254740993) = 0x4340000000000000 := by decide
  have hnumber : beyond.number = 9007199254740993 := by
    have htoInt : Int64.toInt 9007199254740993 = 9007199254740993 := by decide
    rw [beyond, Literal.number, htoInt]
    norm_num
  refine ⟨_, _, _, _, rfl, rfl, by decide, congrArg toRat hofInt, ?_⟩
  rw [hnumber, rounded_number]
  norm_num

/-- `9007199254740993 = 9007199254740992e0` folds to TRUE and evaluates to FALSE. -/
theorem rounded_equality_folds :
    foldExpr native caps (.binaryOp .eq (.literal beyond) (.literal rounded) span : ValueExpr Empty) =
        some (.literal (.bool true span)) ∧
      evaluate native caps Empty.elim (.binaryOp .eq (.literal beyond) (.literal rounded) span) =
        .ok (.bool false) := by
  have htest : comparison .eq = some (· == .eq) := rfl
  obtain ⟨hfold, hcompares⟩ := comparedLiterals_of_roundsOnto htest (.inl beyond_roundsOnto)
  constructor
  · change ((comparedLiterals .eq beyond rounded).map fun folded => Literal.bool folded span).map
      ValueExpr.literal = _
    rw [hfold]
    rfl
  · have hne : (compare beyond.number rounded.number == .eq) = false := by
      rw [beq_eq_false_iff_ne, ne_eq, compare_eq_iff_eq]
      exact number_ne (.inl beyond_roundsOnto)
    have heval := evalBinary_comparison native caps htest hcompares span
    rw [hne] at heval
    exact heval

end Sample

end Selene.Query
