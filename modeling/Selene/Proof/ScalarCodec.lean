import Selene.Logical.Value
import Selene.Proof.WireFields

/-!
# Scalars on the wire

A scalar is its tag and a payload. `payload` and `payloadCost` say what stands on the wire and what
the budget pays for it; the encoder writes that (`writes_scalar`), and the decoder, which finds the
tag first, reads exactly the scalars with that tag (`reads_scalar`).
-/

namespace Selene.Logical

open Octets Metered Core List Option Decoder

variable {F : Foreign} {L : Limits}

/-! ## Scalars on the wire -/

def wordBytes (components : List UInt32) : Bytes := components.flatMap fun c => leBytes 4 c.toNat

def amountBytes (amounts : List Int64) : Bytes := amounts.flatMap fun a => leBytes 8 a.toUInt64.toNat

def textWire (s : String) : Bytes := blobWire (utf8Bytes s)

def textCost (s : String) : Charge := blobCost (utf8Bytes s)

/-- The tag of a value; those that cannot be stored have none. -/
def tag : Value F → UInt8
  | .null => 0
  | .bool _ => 1
  | .int _ => 2
  | .uint _ => 3
  | .int128 _ => 4
  | .uint128 _ => 5
  | .float _ => 6
  | .float32 _ => 7
  | .decimal _ => 8
  | .string _ => 9
  | .bytes _ => 10
  | .list _ => 11
  | .record _ => 12
  | .uuid _ => 13
  | .vector _ => 14
  | .json _ => 15
  | .date _ => 16
  | .localTime _ => 17
  | .localDateTime _ => 18
  | .zonedTime _ => 19
  | .zonedDateTime _ => 20
  | .duration _ => 21
  | _ => 255

/-- What follows the tag of a scalar. -/
def payload : Value F → Bytes
  | .bool b => [if b then 1 else 0]
  | .int i => leBytes 8 i.toUInt64.toNat
  | .uint n => leBytes 8 n.toNat
  | .int128 i => leBytes 16 i.toNat
  | .uint128 n => leBytes 16 n.toNat
  | .float bits => leBytes 8 bits.toNat
  | .float32 bits => leBytes 4 bits.toNat
  | .decimal d => F.decimal.serialize d
  | .string s => textWire s.val
  | .bytes b => blobWire b
  | .uuid u => u.val
  | .vector v => leBytes 4 v.components.length ++ wordBytes v.components
  | .json j => textWire (F.json.print j.value)
  | .date d => textWire (F.date.print d)
  | .localTime t => textWire (F.time.print t)
  | .localDateTime t => textWire (F.dateTime.print t)
  | .zonedTime z => textWire (F.zoned.print z)
  | .zonedDateTime z => textWire (F.zoned.print z)
  | .duration s => amountBytes (F.span.amounts s)
  | _ => []

def vectorCost (v : VectorValue) : Charge := ⟨v.components.length, v.components.length * 16, 0⟩

def jsonCost (s : String) : Charge := textCost s + ⟨s.utf8ByteSize, s.utf8ByteSize * 128, 0⟩

/-- What a scalar costs beyond what every value costs. -/
def payloadCost : Value F → Charge
  | .string s => textCost s.val
  | .bytes b => blobCost b
  | .vector v => vectorCost v
  | .json j => jsonCost (F.json.print j.value)
  | .date d => textCost (F.date.print d)
  | .localTime t => textCost (F.time.print t)
  | .localDateTime t => textCost (F.dateTime.print t)
  | .zonedTime z => textCost (F.zoned.print z)
  | .zonedDateTime z => textCost (F.zoned.print z)
  | _ => 0

/-- A scalar that can be written: a temporal text fits its buffer. -/
def Plain : Value F → Prop
  | .date d => (F.date.print d).utf8ByteSize ≤ 512
  | .localTime t => (F.time.print t).utf8ByteSize ≤ 512
  | .localDateTime t => (F.dateTime.print t).utf8ByteSize ≤ 512
  | .zonedTime z => (F.zoned.print z).utf8ByteSize ≤ 512
  | .zonedDateTime z => (F.zoned.print z).utf8ByteSize ≤ 512
  | .list _ | .record _ | .recordTyped _ _ | .path _ _ _ | .nodeRef _ | .edgeRef _ | .graphRef _
  | .tableRef _ | .extended _ _ => False
  | _ => True

/-- The text of a scalar reads back as the scalar. -/
def PlainReadable : Value F → Prop
  | .date d => F.date.parse (F.date.print d) = some d
  | .localTime t => F.time.parse (F.time.print t) = some t
  | .localDateTime t => F.dateTime.parse (F.dateTime.print t) = some t
  | .zonedTime z => F.zoned.parse (F.zoned.print z) = some z
  | .zonedDateTime z => F.zoned.parse (F.zoned.print z) = some z
  | .json j => jsonValue (F.json.print j.value) = .ok j
  | _ => True

/-! ## Scalars written -/

theorem writes_u8 (n : UInt8) : Writes (meter L) (Encoder.u8 L n) True [n] 0 := writes_fixed _

theorem writes_tagged {f : Coding Unit} {n : UInt8} {P : Prop} {w : Bytes} {c : Charge}
    (h : Writes (meter L) f P w c) :
    Writes (meter L) (Encoder.u8 L n >>= fun _ => f) P (n :: w) c :=
  ((writes_u8 n).bind h).congr (iff_of_eq (true_and P)) rfl (zero_add c)

theorem writes_temporal (hL : L.Valid) {α : Type} (t : Text α) (n : UInt8) (a : α) :
    Writes (meter L) (Encoder.temporal L t n a) ((t.print a).utf8ByteSize ≤ 512)
      (n :: textWire (t.print a)) (textCost (t.print a)) := by
  unfold Encoder.temporal
  split
  · rename_i h
    exact writes_fail.congr (iff_of_false id (by omega)) rfl rfl
  · rename_i h
    exact (writes_tagged (writes_text hL _)).congr (iff_of_true trivial (by omega)) rfl rfl

theorem writes_json (hL : L.Valid) (j : JsonValue F.Number) :
    Writes (meter L) (Encoder.json L j) True (15 :: textWire (F.json.print j.value))
      (jsonCost (F.json.print j.value)) := by
  have hlen := length_utf8Bytes (F.json.print j.value)
  have h := ((writes_charge (L := L) (utf8Bytes (F.json.print j.value)).length
    ((utf8Bytes (F.json.print j.value)).length * 128)).bind
      (writes_tagged (n := 15) (writes_blob hL (utf8Bytes (F.json.print j.value))))).congr
        (iff_of_eq (true_and True)) (nil_append _)
        (show _ = jsonCost (F.json.print j.value) by rw [hlen, add_comm]; rfl)
  -- the limit of the buffer is what the budget has left for this text
  refine h.guard ?_
  intro s hs
  have hbytes : (s.bytes ++ 15 :: textWire (F.json.print j.value)).length ≤ L.bytes := hs.1
  have hitems : s.spent.items + (0 + (F.json.print j.value).utf8ByteSize) ≤ L.items := hs.2.1
  have halloc : s.spent.allocation + ((utf8Bytes (F.json.print j.value)).length * 8 +
    (F.json.print j.value).utf8ByteSize * 128) ≤ L.allocation := hs.2.2.1
  have hwire : (textWire (F.json.print j.value)).length = 4 + (F.json.print j.value).utf8ByteSize := by
    rw [textWire, blobWire, length_append, length_leBytes, hlen]
  rw [length_append, length_cons, hwire] at hbytes
  refine if_neg ?_
  rw [hlen] at halloc
  show ¬ jsonLimit L s.spent < (utf8Bytes (F.json.print j.value)).length
  rw [hlen, jsonLimit]
  omega

theorem writes_duration (s : F.Span) :
    Writes (meter L) (Encoder.duration L s) True (21 :: amountBytes (F.span.amounts s)) 0 := by
  refine (writes_tagged (Writes.each (fun a => writes_fixed _) (F.span.amounts s))).congr (by simp) rfl ?_
  simp

theorem writes_vector (v : VectorValue) : Writes (meter L) (Encoder.vector L v) True
      (14 :: (leBytes 4 v.components.length ++ wordBytes v.components)) (vectorCost v) := by
  have hshort := v.short
  have hcount : (UInt32.ofNat v.components.length).toNat = v.components.length := by
    rw [maxVectorDimension] at hshort
    rw [UInt32.toNat_ofNat', Nat.mod_eq_of_lt (by omega)]
  have hcomponents := Writes.each (M := meter L) (fun c : UInt32 => writes_fixed (leBytes 4 c.toNat))
    v.components
  refine (writes_tagged ((writes_charge _ _).bind ((writes_fixed _).bind hcomponents))).congr
    (by simp) ?_ ?_
  · rw [nil_append, hcount]
    rfl
  · simp [vectorCost]

theorem writes_scalar (hL : L.Valid) (v : Value F) :
    Writes (meter L) (Encoder.scalar L v) (Plain v) (tag v :: payload v) (payloadCost v) := by
  cases v
  case null => exact writes_u8 0
  case bool b => exact writes_tagged (writes_u8 _)
  case int i | uint n | int128 i | uint128 n | float bits | float32 bits | decimal d =>
    exact writes_tagged (writes_fixed _)
  case string s => exact writes_tagged (writes_text hL _)
  case bytes b => exact writes_tagged (writes_blob hL _)
  case uuid u => exact writes_tagged (writes_fixed _)
  case vector v => exact writes_vector v
  case json j => exact writes_json hL j
  case date d | localTime t | localDateTime t | zonedTime z | zonedDateTime z =>
    exact writes_temporal hL _ _ _
  case duration s => exact writes_duration s
  all_goals exact writes_fail

/-! ## Scalars read -/

theorem reads_fail {α : Type} {e : CodecError} :
    Reads (meter L) (fail e : Coding α) fun _ _ _ => False := by
  intro s a t _
  refine iff_of_false (by simp [fail]) ?_
  intro h
  obtain ⟨w, c, h, -⟩ := h
  exact h

theorem decimal_iff {bytes : Bytes} (hlen : bytes.length = 16) {d : F.Decimal} :
    decimal bytes = .ok d ↔ bytes = F.decimal.serialize d := by
  unfold decimal
  constructor
  · intro h
    split at h
    · rename_i hflags
      cases h
      exact (F.decimal.serialize_deserialize hlen hflags).symm
    · cases h
  · rintro rfl
    rw [if_pos (F.decimal.flags_serialize d), F.decimal.deserialize_serialize]

theorem reads_temporal (hL : L.Valid) {α : Type} (t : Text α) :
    Reads (meter L) (temporal L t) fun a w c => (t.print a).utf8ByteSize ≤ 512 ∧
      t.parse (t.print a) = some a ∧ w = textWire (t.print a) ∧ c = textCost (t.print a) := by
  refine ((reads_text hL).filter _).congr fun a w c => ?_
  constructor
  · intro h
    obtain ⟨text, hx, rfl, rfl⟩ := h
    split at hx
    · cases hx
    rename_i hlen
    split at hx
    · cases hx
    rename_i value hparse
    split at hx
    · cases hx
    rename_i hprint
    cases hx
    rw [not_not] at hprint
    rw [hprint]
    exact ⟨by omega, hparse, rfl, rfl⟩
  · intro h
    obtain ⟨hlen, hparse, rfl, rfl⟩ := h
    refine ⟨t.print a, ?_, rfl, rfl⟩
    rw [if_neg (by omega), hparse]
    simp

theorem jsonValue_print {text : String} {j : JsonValue F.Number} (h : jsonValue text = .ok j) :
    text = F.json.print j.value := by
  unfold jsonValue at h
  split at h
  · cases h
  split at h
  · cases h
  split at h
  · cases h
  rename_i hprint
  cases h
  rw [not_not] at hprint
  exact hprint.symm

theorem jsonValue_iff (hF : F.Lawful) {j : JsonValue F.Number} :
    jsonValue (F.json.print j.value) = .ok j ↔ j.value.Readable := by
  have hstrict : j.value.strict F.parseNumber = some j.value ↔ j.value.Readable :=
    Json.strict_eq_iff j.ordered j.admitted
  rw [← hstrict]
  unfold jsonValue
  rw [hF.json j.value]
  dsimp only
  constructor
  · intro h
    split at h
    · cases h
    rename_i doc hdoc
    split at h
    · cases h
    have hvalue : doc = j.value := congrArg JsonValue.value (Except.ok.inj h)
    rw [hdoc, hvalue]
  · intro h
    split
    · rename_i hnone
      rw [h] at hnone
      cases hnone
    · rename_i doc hdoc
      rw [h] at hdoc
      obtain rfl := Option.some.inj hdoc
      rw [if_neg (not_not.2 rfl)]

theorem reads_json (hL : L.Valid) :
    Reads (meter L) (json L : Coding (JsonValue F.Number)) fun j w c =>
      jsonValue (F.json.print j.value) = .ok j ∧ w = textWire (F.json.print j.value) ∧
        c = jsonCost (F.json.print j.value) := by
  refine ((reads_text hL).bind fun text =>
    (reads_charge _ _).filter fun _ => jsonValue text).congr fun j w c => ?_
  constructor
  · intro h
    obtain ⟨text, w1, w2, c1, c2, ⟨rfl, rfl⟩, ⟨u, hj, rfl, rfl⟩, rfl, rfl⟩ := h
    obtain rfl := jsonValue_print hj
    exact ⟨hj, append_nil _, rfl⟩
  · intro h
    obtain ⟨hj, rfl, rfl⟩ := h
    exact ⟨_, _, [], _, _, ⟨rfl, rfl⟩, ⟨(), hj, rfl, rfl⟩, (append_nil _).symm, rfl⟩

theorem words_wordBytes (components : List UInt32) : words (wordBytes components) = components := by
  induction components with
  | nil => rfl
  | cons c cs ih =>
    have hlt := c.toNat_lt
    have hword : UInt32.ofNat (leNat (leBytes 4 c.toNat)) = c := by
      rw [leNat_leBytes (by omega), UInt32.ofNat_toNat]
    rw [wordBytes, flatMap_cons, ← wordBytes]
    simp only [leBytes, cons_append, nil_append, words, ih] at hword ⊢
    rw [hword]

theorem wordBytes_words : ∀ {n : ℕ} {bytes : Bytes}, bytes.length = n * 4 →
    wordBytes (words bytes) = bytes ∧ (words bytes).length = n
  | 0, bytes, h => by
    obtain rfl := length_eq_zero_iff.1 (by simpa using h)
    exact ⟨rfl, rfl⟩
  | n + 1, a :: b :: c :: d :: rest, h => by
    have hrest : rest.length = n * 4 := by
      simp only [length_cons] at h
      omega
    obtain ⟨hbytes, hlen⟩ := wordBytes_words hrest
    have hlt := leNat_lt [a, b, c, d]
    have hword := leBytes_leNat [a, b, c, d]
    simp only [length_cons, length_nil] at hlt hword
    refine ⟨?_, by simp [words, hlen]⟩
    rw [words, wordBytes, flatMap_cons, ← wordBytes, hbytes, UInt32.toNat_ofNat',
      Nat.mod_eq_of_lt (by omega), hword]
    rfl
  | n + 1, [], h => by simp at h
  | n + 1, [_], h => by simp at h; omega
  | n + 1, [_, _], h => by simp at h; omega
  | n + 1, [_, _, _], h => by simp at h; omega

theorem vectorOf_iff {components : List UInt32} {v : VectorValue} :
    vectorOf components = .ok v ↔ components = v.components := by
  unfold vectorOf VectorValue.new
  constructor
  · intro h
    split at h
    · rename_i v' hv
      cases h
      split at hv
      · cases hv
        rfl
      · cases hv
    · cases h
  · intro h
    subst h
    rw [dif_pos ⟨v.nonempty, v.short, all_eq_true.2 v.finite⟩]

theorem reads_vector : Reads (meter L) (vector L) fun v w c =>
    w = leBytes 4 v.components.length ++ wordBytes v.components ∧ c = vectorCost v := by
  have hbody : ∀ n : UInt32, Reads (meter L) (if n.toNat < 1 ∨ maxVectorDimension < n.toNat then fail .limit
      else do
        charge L n.toNat (n.toNat * 16)
        let bytes ← Decoder.take (n.toNat * 4)
        Attempt.check fun _ => vectorOf (words bytes) : Coding VectorValue)
      fun v w c => v.components.length = n.toNat ∧ w = wordBytes v.components ∧ c = vectorCost v := by
    intro n
    split
    · rename_i hn
      refine reads_fail.congr fun v w c => iff_of_false id ?_
      intro h
      have hpos := length_pos_iff.2 v.nonempty
      have hshort := v.short
      omega
    · refine ((reads_charge _ _).bind fun _ => (reads_take _).filter _).congr fun v w c => ?_
      constructor
      · intro h
        obtain ⟨_, w1, w2, c1, c2, ⟨rfl, rfl⟩, ⟨bytes, hx, rfl, hlen, rfl⟩, rfl, rfl⟩ := h
        obtain ⟨hbytes, hcount⟩ := wordBytes_words hlen
        rw [vectorOf_iff.1 hx] at hbytes hcount
        refine ⟨hcount, ?_, ?_⟩
        · rw [hbytes]
        · rw [add_zero, vectorCost, hcount]
      · intro h
        obtain ⟨hcount, rfl, rfl⟩ := h
        have hlen : (wordBytes v.components).length = n.toNat * 4 := by
          rw [← hcount, wordBytes, length_flatMap]
          simp
        refine ⟨(), [], _, _, 0, ⟨rfl, rfl⟩, ⟨wordBytes v.components, ?_, rfl, hlen, rfl⟩, rfl, ?_⟩
        · rw [words_wordBytes, vectorOf_iff.2 rfl]
        · rw [add_zero, vectorCost, hcount]
  refine (reads_u32.bind hbody).congr fun v w c => ?_
  constructor
  · intro h
    obtain ⟨n, w1, w2, c1, c2, ⟨rfl, rfl⟩, ⟨hcount, rfl, rfl⟩, rfl, rfl⟩ := h
    rw [hcount, zero_add]
    exact ⟨rfl, rfl⟩
  · intro h
    obtain ⟨rfl, rfl⟩ := h
    have hshort := v.short
    rw [maxVectorDimension] at hshort
    have hcount : (UInt32.ofNat v.components.length).toNat = v.components.length := by
      rw [UInt32.toNat_ofNat', Nat.mod_eq_of_lt (by omega)]
    exact ⟨UInt32.ofNat v.components.length, _, _, 0, _, ⟨by rw [hcount], rfl⟩,
      ⟨hcount.symm, rfl, rfl⟩, rfl, (zero_add _).symm⟩

/-- No amount has a sign other than that of the amounts before it. -/
def Steady : ℤ → List Int64 → Prop
  | _, [] => True
  | sign, a :: as => ¬ (a.toInt ≠ 0 ∧ sign ≠ 0 ∧ a.toInt.sign ≠ sign) ∧
      Steady (if sign = 0 then a.toInt.sign else sign) as

variable {as : List Int64}

theorem steady_one : Steady 1 as ↔ ∀ a ∈ as, 0 ≤ a.toInt := by
  induction as with
  | nil => simp [Steady]
  | cons a as ih =>
    have hsign : ¬ (a.toInt ≠ 0 ∧ (1 : ℤ) ≠ 0 ∧ a.toInt.sign ≠ 1) ↔ 0 ≤ a.toInt := by
      simp only [ne_eq, Int.sign_eq_one_iff_pos]
      omega
    rw [Steady, hsign, if_neg one_ne_zero, ih, forall_mem_cons]

theorem steady_neg_one : Steady (-1) as ↔ ∀ a ∈ as, a.toInt ≤ 0 := by
  induction as with
  | nil => simp [Steady]
  | cons a as ih =>
    have hsign : ¬ (a.toInt ≠ 0 ∧ (-1 : ℤ) ≠ 0 ∧ a.toInt.sign ≠ -1) ↔ a.toInt ≤ 0 := by
      simp only [ne_eq, Int.sign_eq_neg_one_iff_neg]
      omega
    rw [Steady, hsign, if_neg (by decide), ih, forall_mem_cons]

theorem steady_zero :
    Steady 0 as ↔ (∀ a ∈ as, 0 ≤ a.toInt) ∨ ∀ a ∈ as, a.toInt ≤ 0 := by
  induction as with
  | nil => simp [Steady]
  | cons a as ih =>
    have hnone : ¬ (a.toInt ≠ 0 ∧ (0 : ℤ) ≠ 0 ∧ a.toInt.sign ≠ 0) := fun h => h.2.1 rfl
    rw [Steady, and_iff_right hnone, if_pos rfl, forall_mem_cons, forall_mem_cons]
    -- the first amount that is not zero gives the sign
    rcases lt_trichotomy a.toInt 0 with hneg | hzero | hpos
    · rw [Int.sign_eq_neg_one_iff_neg.2 hneg, steady_neg_one]
      exact ⟨fun h => .inr ⟨hneg.le, h⟩, fun h => h.elim (fun h => absurd h.1 (by omega)) And.right⟩
    · rw [hzero, Int.sign_zero, ih]
      simp
    · rw [Int.sign_eq_one_iff_pos.2 hpos, steady_one]
      exact ⟨fun h => .inl ⟨hpos.le, h⟩, fun h => h.elim And.right fun h => absurd h.1 (by omega)⟩

theorem reads_amounts : ∀ (limits : List ℕ) (sign : ℤ),
    Reads (meter L) (amounts limits sign) fun as w c =>
      List.Forall₂ (fun a limit => a.toInt.natAbs ≤ limit) as limits ∧ Steady sign as ∧
        w = amountBytes as ∧ c = 0
  | [], sign => by
    refine (Reads.pure []).congr fun as w c => ?_
    constructor
    · intro h
      obtain ⟨rfl, rfl, rfl⟩ := h
      exact ⟨.nil, trivial, rfl, rfl⟩
    · intro h
      obtain ⟨hrange, -, rfl, rfl⟩ := h
      cases hrange
      exact ⟨rfl, rfl, rfl⟩
  | limit :: limits, sign => by
    have hbody : ∀ n : UInt64, Reads (meter L)
        (if n.toInt64.toInt ≠ 0 ∧ sign ≠ 0 ∧ n.toInt64.toInt.sign ≠ sign then fail (.invalid "duration sign")
          else if limit < n.toInt64.toInt.natAbs then fail .semantic
          else do
            let more ← amounts limits (if sign = 0 then n.toInt64.toInt.sign else sign)
            pure (n.toInt64 :: more) : Coding (List Int64))
        fun as w c => ∃ more, as = n.toInt64 :: more ∧ n.toInt64.toInt.natAbs ≤ limit ∧
          List.Forall₂ (fun a limit => a.toInt.natAbs ≤ limit) more limits ∧ Steady sign as ∧
            w = amountBytes more ∧ c = 0 := by
      intro n
      split
      · rename_i hbad
        refine reads_fail.congr fun as w c => iff_of_false id ?_
        intro h
        obtain ⟨more, rfl, -, -, hsteady, -⟩ := h
        exact hsteady.1 hbad
      rename_i hgood
      split
      · rename_i hlarge
        refine reads_fail.congr fun as w c => iff_of_false id ?_
        intro h
        obtain ⟨more, rfl, hle, -⟩ := h
        omega
      rename_i hsmall
      refine ((reads_amounts limits _).map _).congr fun as w c => ?_
      constructor
      · intro h
        obtain ⟨more, rfl, hrange, hsteady, rfl, rfl⟩ := h
        exact ⟨more, rfl, by omega, hrange, ⟨hgood, hsteady⟩, rfl, rfl⟩
      · intro h
        obtain ⟨more, rfl, -, hrange, hsteady, rfl, rfl⟩ := h
        exact ⟨more, rfl, hrange, hsteady.2, rfl, rfl⟩
    refine (reads_u64.bind hbody).congr fun as w c => ?_
    constructor
    · intro h
      obtain ⟨n, w1, w2, c1, c2, ⟨rfl, rfl⟩, ⟨more, rfl, hle, hrange, hsteady, rfl, rfl⟩, rfl, rfl⟩ := h
      exact ⟨.cons hle hrange, hsteady, rfl, zero_add 0⟩
    · intro h
      obtain ⟨hrange, hsteady, rfl, rfl⟩ := h
      cases hrange with
      | @cons a _ more _ hle hrange =>
        exact ⟨a.toUInt64, _, _, 0, 0, ⟨rfl, rfl⟩, ⟨more, rfl, hle, hrange, hsteady, rfl, rfl⟩, rfl,
          (zero_add 0).symm⟩

theorem reads_duration : Reads (meter L) duration fun (s : F.Span) w c =>
    w = amountBytes (F.span.amounts s) ∧ c = 0 := by
  refine ((reads_amounts F.span.limits 0).filter _).congr fun s w c => ?_
  simp only [steady_zero]
  constructor
  · intro h
    obtain ⟨as, hx, -, -, rfl, rfl⟩ := h
    unfold spanOf at hx
    split at hx
    · rename_i s' hs
      cases hx
      exact ⟨congrArg _ (F.span.ofAmounts_iff.1 hs), rfl⟩
    · cases hx
  · intro h
    obtain ⟨rfl, rfl⟩ := h
    refine ⟨_, ?_, F.span.ranged s, F.span.signed s, rfl, rfl⟩
    rw [spanOf, F.span.ofAmounts_iff.2 rfl]

theorem reads_name {f : Coding String} {R : String → Bytes → Charge → Prop} (h : Reads (meter L) f R) :
    Reads (meter L) (f >>= fun text => name text) fun s w c => R s.val w c := by
  refine (h.filter _).congr fun s w c => ?_
  constructor
  · intro h'
    obtain ⟨text, hx, hR⟩ := h'
    unfold dbString at hx
    split at hx
    · rename_i s' hs
      cases hx
      split at hs
      · cases hs
        exact hR
      · cases hs
    · cases hx
  · intro h'
    refine ⟨s.val, ?_, h'⟩
    rw [dbString, dif_pos s.property]

/-- The scalars with a tag. -/
def Tagged (n : UInt8) (v : Value F) (w : Bytes) (c : Charge) : Prop :=
  tag v = n ∧ Plain v ∧ PlainReadable v ∧ w = payload v ∧ c = payloadCost v

theorem reads_wide (make : BitVec 128 → Value F) :
    Reads (meter L) (Decoder.take 16 >>= fun bytes => pure (make (BitVec.ofNat 128 (leNat bytes))))
      fun v w c => ∃ x, v = make x ∧ w = leBytes 16 x.toNat ∧ c = 0 := by
  refine ((reads_take 16).map _).congr fun v w c => ?_
  constructor
  · intro h
    obtain ⟨bytes, rfl, rfl, hlen, rfl⟩ := h
    have hlt := leNat_lt w
    rw [hlen] at hlt
    refine ⟨_, rfl, ?_, rfl⟩
    rw [BitVec.toNat_ofNat, Nat.mod_eq_of_lt (by omega), ← hlen, leBytes_leNat]
  · intro h
    obtain ⟨x, rfl, rfl, rfl⟩ := h
    have hlt := x.isLt
    refine ⟨_, ?_, rfl, length_leBytes _ _, rfl⟩
    rw [leNat_leBytes (by omega), BitVec.ofNat_toNat, BitVec.setWidth_eq]

theorem reads_decimal :
    Reads (meter L) (Decoder.take 16 >>= fun bytes =>
        (Attempt.check fun _ => decimal bytes) >>= fun d => pure (.decimal d) : Coding (Value F))
      fun v w c => ∃ d, v = .decimal d ∧ w = F.decimal.serialize d ∧ c = 0 := by
  refine ((reads_take 16).bind fun bytes => Reads.check.map _).congr fun v w c => ?_
  constructor
  · intro h
    obtain ⟨bytes, w1, w2, c1, c2, ⟨rfl, hlen, rfl⟩, ⟨d, rfl, hd, rfl, rfl⟩, rfl, rfl⟩ := h
    exact ⟨d, rfl, by rw [append_nil, (decimal_iff hlen).1 hd], add_zero 0⟩
  · intro h
    obtain ⟨d, rfl, rfl, rfl⟩ := h
    have hlen := F.decimal.length_serialize d
    exact ⟨_, _, [], 0, 0, ⟨rfl, hlen, rfl⟩, ⟨d, rfl, (decimal_iff hlen).2 rfl, rfl, rfl⟩,
      (append_nil _).symm, (add_zero 0).symm⟩

theorem reads_uuid :
    Reads (meter L) (Decoder.take 16 >>= fun bytes =>
        if h : bytes.length = 16 then pure (.uuid ⟨bytes, h⟩) else fail .incomplete : Coding (Value F))
      fun v w c => ∃ u : Uuid, v = .uuid u ∧ w = u.val ∧ c = 0 := by
  have hbody : ∀ bytes : Bytes, Reads (meter L)
      (if h : bytes.length = 16 then pure (.uuid ⟨bytes, h⟩) else fail .incomplete : Coding (Value F))
      fun v w c => ∃ u : Uuid, v = .uuid u ∧ u.val = bytes ∧ w = [] ∧ c = 0 := by
    intro bytes
    split
    · rename_i hlen
      refine (Reads.pure _).congr fun v w c => ?_
      constructor
      · intro h
        exact ⟨⟨bytes, hlen⟩, h.1, rfl, h.2⟩
      · intro h
        obtain ⟨u, rfl, rfl, h⟩ := h
        exact ⟨rfl, h⟩
    · rename_i hlen
      refine reads_fail.congr fun v w c => iff_of_false id ?_
      intro h
      obtain ⟨u, -, rfl, -⟩ := h
      exact hlen u.property
  refine ((reads_take 16).bind hbody).congr fun v w c => ?_
  constructor
  · intro h
    obtain ⟨bytes, w1, w2, c1, c2, ⟨rfl, -, rfl⟩, ⟨u, rfl, rfl, rfl, rfl⟩, rfl, rfl⟩ := h
    exact ⟨u, rfl, append_nil _, add_zero 0⟩
  · intro h
    obtain ⟨u, rfl, rfl, rfl⟩ := h
    exact ⟨_, _, [], 0, 0, ⟨rfl, u.property, rfl⟩, ⟨u, rfl, rfl, rfl, rfl⟩,
      (append_nil _).symm, (add_zero 0).symm⟩

theorem reads_string (hL : L.Valid) :
    Reads (meter L) (text L >>= fun text =>
        name text >>= fun s => pure (.string s) : Coding (Value F))
      fun v w c => ∃ s : DbString, v = .string s ∧ w = textWire s.val ∧ c = textCost s.val := by
  have hassoc := Attempt.bind_bind (m := text L) (f := fun text => name text)
    fun s => pure (.string s : Value F)
  rw [← hassoc]
  exact (reads_name (reads_text hL)).map _

/-- A reader of what one constructor holds reads the scalars with its tag; which constructor that
is, a look at all of them tells. -/
theorem Reads.tagged {α : Type} {f : Coding (Value F)} {make : α → Value F} {n : UInt8}
    {R : α → Bytes → Charge → Prop} (h : Reads (meter L) f fun v w c => ∃ a, v = make a ∧ R a w c)
    (hR : ∀ a w c, R a w c ↔ Plain (make a) ∧ PlainReadable (make a) ∧
      w = payload (make a) ∧ c = payloadCost (make a))
    (htag : ∀ a, tag (make a) = n := by exact fun _ => rfl)
    (hmake : ∀ v : Value F, tag v = n → ∃ a, v = make a := by
      intro v hv; cases v <;> first | exact ⟨_, rfl⟩ | cases hv) : Reads (meter L) f (Tagged n) := by
  refine h.congr fun v w c => ?_
  constructor
  · intro h'
    obtain ⟨a, rfl, hw⟩ := h'
    exact ⟨htag a, (hR a w c).1 hw⟩
  · intro h'
    obtain ⟨a, rfl⟩ := hmake v h'.1
    exact ⟨a, rfl, (hR a w c).2 h'.2⟩

theorem reads_scalar (hL : L.Valid) (n : UInt8) :
    Reads (meter L) (scalar L n : Coding (Value F)) (Tagged n) := by
  have hnat : ∀ k : ℕ, n.toNat = k → n = UInt8.ofNat k := by
    intro k hk
    rw [← hk, UInt8.ofNat_toNat]
  -- most constructors hold their payload without a condition
  have hfree : ∀ P : Prop, P ↔ True ∧ True ∧ P := by simp
  unfold scalar
  split
  case h_1 hn =>
    obtain rfl := hnat 0 hn
    refine (Reads.pure _).congr fun v w c => ?_
    constructor
    · intro h
      obtain ⟨rfl, rfl, rfl⟩ := h
      exact ⟨rfl, trivial, trivial, rfl, rfl⟩
    · intro h
      obtain ⟨ht, -, -, rfl, rfl⟩ := h
      cases v <;> first | exact ⟨rfl, rfl, rfl⟩ | cases ht
  case h_2 hn =>
    obtain rfl := hnat 1 hn
    exact Reads.tagged (reads_boolean.map _) fun _ _ _ => hfree _
  case h_3 hn =>
    obtain rfl := hnat 2 hn
    refine Reads.tagged (reads_u64.map _) (fun _ _ _ => hfree _) (fun _ => rfl) fun v hv => ?_
    cases v <;> first | exact ⟨Int64.toUInt64 _, rfl⟩ | cases hv
  case h_4 hn =>
    obtain rfl := hnat 3 hn
    exact Reads.tagged (reads_u64.map _) fun _ _ _ => hfree _
  case h_5 hn =>
    obtain rfl := hnat 4 hn
    exact Reads.tagged (reads_wide _) fun _ _ _ => hfree _
  case h_6 hn =>
    obtain rfl := hnat 5 hn
    exact Reads.tagged (reads_wide _) fun _ _ _ => hfree _
  case h_7 hn =>
    obtain rfl := hnat 6 hn
    exact Reads.tagged (reads_u64.map _) fun _ _ _ => hfree _
  case h_8 hn =>
    obtain rfl := hnat 7 hn
    exact Reads.tagged (reads_u32.map _) fun _ _ _ => hfree _
  case h_9 hn =>
    obtain rfl := hnat 8 hn
    exact Reads.tagged reads_decimal fun _ _ _ => hfree _
  case h_10 hn =>
    obtain rfl := hnat 9 hn
    exact Reads.tagged (reads_string hL) fun _ _ _ => hfree _
  case h_11 hn =>
    obtain rfl := hnat 10 hn
    exact Reads.tagged ((reads_blob hL).map _) fun _ _ _ => hfree _
  case h_12 hn =>
    obtain rfl := hnat 13 hn
    exact Reads.tagged reads_uuid fun _ _ _ => hfree _
  case h_13 hn =>
    obtain rfl := hnat 14 hn
    exact Reads.tagged (reads_vector.map _) fun _ _ _ => hfree _
  case h_14 hn =>
    obtain rfl := hnat 15 hn
    exact Reads.tagged ((reads_json hL).map _) fun _ _ _ => (iff_of_eq (true_and _)).symm
  case h_15 hn =>
    obtain rfl := hnat 16 hn
    exact Reads.tagged ((reads_temporal hL F.date).map _) fun _ _ _ => Iff.rfl
  case h_16 hn =>
    obtain rfl := hnat 17 hn
    exact Reads.tagged ((reads_temporal hL F.time).map _) fun _ _ _ => Iff.rfl
  case h_17 hn =>
    obtain rfl := hnat 18 hn
    exact Reads.tagged ((reads_temporal hL F.dateTime).map _) fun _ _ _ => Iff.rfl
  case h_18 hn =>
    obtain rfl := hnat 19 hn
    exact Reads.tagged ((reads_temporal hL F.zoned).map _) fun _ _ _ => Iff.rfl
  case h_19 hn =>
    obtain rfl := hnat 20 hn
    exact Reads.tagged ((reads_temporal hL F.zoned).map _) fun _ _ _ => Iff.rfl
  case h_20 hn =>
    obtain rfl := hnat 21 hn
    exact Reads.tagged (reads_duration.map _) fun _ _ _ => hfree _
  case h_21 h0 h1 h2 h3 h4 h5 h6 h7 h8 h9 h10 h13 h14 h15 h16 h17 h18 h19 h20 h21 =>
    -- no scalar has another tag
    refine reads_fail.congr fun v w c => iff_of_false id ?_
    intro h
    obtain ⟨rfl, hplain, -⟩ := h
    cases v <;> simp [tag, Plain] at *

end Selene.Logical
