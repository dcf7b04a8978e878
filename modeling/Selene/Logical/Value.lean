import Selene.Core.Value
import Selene.Logical.Wire

/-!
# The value codec

`logical/value.rs`: a tag byte and the payload of every stored value. The encoder follows the
value. The decoder keeps the containers it is inside of on a stack of its own: a round of its loop
reads one tag, and a finished value is put into the innermost container, which may finish that
container in turn.
-/

namespace Selene.Logical

open Octets Metered Core

variable {F : Foreign} (L : Limits)

/-! ## Encoder -/

namespace Encoder

/-- The text goes through a buffer of 512 bytes. -/
def temporal {α : Type} (t : Text α) (tag : UInt8) (value : α) : Coding Unit :=
  if 512 < (t.print value).utf8ByteSize then fail .limit
  else do
    u8 L tag
    text L (t.print value)

def json (j : JsonValue F.Number) : Coding Unit := do
  let text := (F.json.print j.value).toByteArray.data.toList
  Attempt.check fun s => if jsonLimit L s.spent < text.length then .error .limit else .ok ()
  charge L text.length (text.length * 128)
  u8 L 15
  blob L text

def duration (s : F.Span) : Coding Unit := do
  u8 L 21
  Attempt.each (fun a => fixed L (leBytes 8 a.toUInt64.toNat)) (F.span.amounts s)

def vector (v : VectorValue) : Coding Unit := do
  u8 L 14
  charge L v.components.length (v.components.length * 16)
  u32 L (UInt32.ofNat v.components.length)
  Attempt.each (fun c => u32 L c) v.components

/-- What every value costs. -/
def enter (depth : ℕ) : Coding Unit := do
  checkDepth L depth
  charge L 1 128

/-- A value without members. -/
def scalar : Value F → Coding Unit
  | .null => u8 L 0
  | .bool b => do u8 L 1; boolean L b
  | .int i => do u8 L 2; fixed L (leBytes 8 i.toUInt64.toNat)
  | .uint n => do u8 L 3; u64 L n
  | .int128 i => do u8 L 4; fixed L (leBytes 16 i.toNat)
  | .uint128 n => do u8 L 5; fixed L (leBytes 16 n.toNat)
  | .float bits => do u8 L 6; u64 L bits
  | .float32 bits => do u8 L 7; u32 L bits
  | .decimal d => do u8 L 8; fixed L (F.decimal.serialize d)
  | .string s => do u8 L 9; text L s.val
  | .bytes b => do u8 L 10; blob L b
  | .uuid u => do u8 L 13; fixed L u.val
  | .vector v => vector L v
  | .json j => json L j
  | .date d => temporal L F.date 16 d
  | .localTime t => temporal L F.time 17 t
  | .localDateTime t => temporal L F.dateTime 18 t
  | .zonedTime z => temporal L F.zoned 19 z
  | .zonedDateTime z => temporal L F.zoned 20 z
  | .duration s => duration L s
  | _ => fail .semantic

mutual

def value : Value F → ℕ → Coding Unit
  | .list vs, depth => do
    enter L depth
    u8 L 11
    count L vs.length
    values vs (depth + 1)
  | .record fs, depth => do
    enter L depth
    u8 L 12
    count L fs.length
    fields [] fs (depth + 1)
  | v, depth => do
    enter L depth
    scalar L v

def values : List (Value F) → ℕ → Coding Unit
  | [], _ => pure ()
  | v :: vs, depth => do
    value v depth
    values vs depth

/-- `names` are the fields already written. -/
def fields (names : List DbString) : List (DbString × Value F) → ℕ → Coding Unit
  | [], _ => pure ()
  | (name, v) :: fs, depth =>
    if name ∈ names then fail (.invalid "duplicate record field")
    else do
      text L name.val
      value v depth
      fields (name :: names) fs depth

end

end Encoder

def encodeValue (v : StoredValue F) (L : Limits) : Except CodecError Bytes :=
  match L.validate with
  | .error e => .error e
  | .ok L => Metered.encode (fun v : Value F => Encoder.value L v 1) v.val

/-! ## Decoder -/

/-- A container whose members are still being read. -/
inductive Container (F : Foreign) where
  | list (remaining : ℕ) (values : List (Value F))
  | record (remaining : ℕ) (fields : List (DbString × Value F)) (key : Option DbString)
      (names : List DbString)

namespace Decoder

def temporal {α : Type} (t : Text α) : Coding α := do
  let text ← text L
  Attempt.check fun _ =>
    if 512 < text.utf8ByteSize then .error .limit
    else
      match t.parse text with
      | none => .error .semantic
      | some value => if t.print value ≠ text then .error (.invalid "temporal canonical text") else .ok value

/-- `db_string`, with its error mapped. -/
def name (text : String) : Coding DbString :=
  Attempt.check fun _ =>
    match dbString text with
    | some s => .ok s
    | none => .error .semantic

/-- The flags may hold a scale up to 28 and the sign: `flags & !0x80ff_0000` is zero. -/
def decimal (bytes : Bytes) : Except CodecError F.Decimal :=
  if decimalFlags bytes then .ok (F.decimal.deserialize bytes) else .error (.invalid "decimal flags")

/-- `chunks_exact(4)`. -/
def words : Bytes → List UInt32
  | a :: b :: c :: d :: rest => UInt32.ofNat (leNat [a, b, c, d]) :: words rest
  | _ => []

/-- `VectorValue::new`, with its error mapped. -/
def vectorOf (components : List UInt32) : Except CodecError VectorValue :=
  match VectorValue.new components with
  | some v => .ok v
  | none => .error .semantic

def vector : Coding VectorValue := do
  let n ← u32
  if n.toNat < 1 ∨ maxVectorDimension < n.toNat then fail .limit
  else do
    charge L n.toNat (n.toNat * 16)
    let bytes ← take (n.toNat * 4)
    Attempt.check fun _ => vectorOf (words bytes)

/-- `JsonValue::parse_str`, and the comparison with its canonical text. -/
def jsonValue (text : String) : Except CodecError (JsonValue F.Number) :=
  match F.json.parse text with
  | none => .error .semantic
  | some raw =>
    match h : raw.strict F.parseNumber with
    | none => .error .semantic
    | some doc =>
      if F.json.print doc ≠ text then .error (.invalid "JSON canonical text")
      else .ok ⟨doc, (Json.strict_admitted h).1, (Json.strict_admitted h).2⟩

def json : Coding (JsonValue F.Number) := do
  let text ← text L
  charge L text.utf8ByteSize (text.utf8ByteSize * 128)
  Attempt.check fun _ => jsonValue text

/-- The loop over the ten units. `sign` is that of the amounts already set. -/
def amounts : List ℕ → ℤ → Coding (List Int64)
  | [], _ => pure []
  | limit :: limits, sign => do
    let n ← u64
    let amount := n.toInt64
    if amount.toInt ≠ 0 ∧ sign ≠ 0 ∧ amount.toInt.sign ≠ sign then fail (.invalid "duration sign")
    else if limit < amount.toInt.natAbs then fail .semantic
    else do
      let more ← amounts limits (if sign = 0 then amount.toInt.sign else sign)
      pure (amount :: more)

/-- The span that holds these amounts. -/
def spanOf (amounts : List Int64) : Except CodecError F.Span :=
  match F.span.ofAmounts amounts with
  | some s => .ok s
  | none => .error .semantic

def duration : Coding F.Span := do
  let amounts ← amounts F.span.limits 0
  Attempt.check fun _ => spanOf amounts

/-- `scalar_value`. -/
def scalar (tag : UInt8) : Coding (Value F) :=
  match tag.toNat with
  | 0 => pure .null
  | 1 => do pure (.bool (← boolean))
  | 2 => do pure (.int (← u64).toInt64)
  | 3 => do pure (.uint (← u64))
  | 4 => do pure (.int128 (BitVec.ofNat 128 (leNat (← take 16))))
  | 5 => do pure (.uint128 (BitVec.ofNat 128 (leNat (← take 16))))
  | 6 => do pure (.float (← u64))
  | 7 => do pure (.float32 (← u32))
  | 8 => do
    let bytes ← take 16
    let d ← Attempt.check fun _ => decimal bytes
    pure (.decimal d)
  | 9 => do
    let text ← text L
    pure (.string (← name text))
  | 10 => do pure (.bytes (← blob L))
  | 13 => do
    let bytes ← take 16
    if h : bytes.length = 16 then pure (.uuid ⟨bytes, h⟩) else fail .incomplete
  | 14 => do pure (.vector (← vector L))
  | 15 => do pure (.json (← json L))
  | 16 => do pure (.date (← temporal L F.date))
  | 17 => do pure (.localTime (← temporal L F.time))
  | 18 => do pure (.localDateTime (← temporal L F.dateTime))
  | 19 => do pure (.zonedTime (← temporal L F.zoned))
  | 20 => do pure (.zonedDateTime (← temporal L F.zoned))
  | 21 => do pure (.duration (← duration))
  | _ => fail (.unsupported "value tag")

/-- The key of the next field, when the innermost container is a record. -/
def readKey : List (Container F) → Coding (List (Container F))
  | .record remaining fields _ names :: pending => do
    let text ← text L
    let key ← name text
    if key ∈ names then fail (.invalid "duplicate record field")
    else pure (.record remaining fields (some key) (key :: names) :: pending)
  | pending => pure pending

/-- What a finished value leads to. -/
inductive Settled (F : Foreign) where
  | value (v : Value F)
  | more (pending : List (Container F))
  | noKey

/-- The inner loop: a value goes into the innermost container, and finishes those it fills. -/
def settle : List (Container F) → Value F → Settled F
  | [], v => .value v
  | .list remaining values :: pending, v =>
    if remaining - 1 ≠ 0 then .more (.list (remaining - 1) (values ++ [v]) :: pending)
    else settle pending (.list (values ++ [v]))
  | .record _ _ none _ :: _, _ => .noKey
  | .record remaining fields (some key) names :: pending, v =>
    if remaining - 1 ≠ 0 then .more (.record (remaining - 1) (fields ++ [(key, v)]) none names :: pending)
    else settle pending (.record (fields ++ [(key, v)]))

/-- The end of a round. A record whose key was not read (`noKey`) would be a panic of the source. -/
def finished (next : List (Container F) → Coding (Value F)) (pending : List (Container F))
    (v : Value F) : Coding (Value F) :=
  match settle pending v with
  | .value v => pure v
  | .more pending => next pending
  | .noKey => fail (.admission "record key read before value")

/-- The rest of a round, behind the key. -/
def afterKey (next : List (Container F) → Coding (Value F)) (pending : List (Container F)) :
    Coding (Value F) := do
  charge L 1 128
  let tag ← u8
  if tag = 11 then do
    let n ← count L
    if n ≠ 0 then next (.list n [] :: pending) else finished next pending (.list [])
  else if tag = 12 then do
    let n ← count L
    if n ≠ 0 then next (.record n [] none [] :: pending) else finished next pending (.record [])
  else do
    let v ← scalar L tag
    finished next pending v

/-- The loop of `Decoder::value`. A round reads at least a tag, so the bytes left bound the rounds. -/
def rounds (depth : ℕ) : ℕ → List (Container F) → Coding (Value F)
  | 0, _ => fail .incomplete
  | fuel + 1, pending => do
    checkDepth L (depth + pending.length)
    let pending ← readKey L pending
    afterKey L (rounds depth fuel) pending

def value (depth : ℕ) : Coding (Value F) := fun s => rounds L depth (s.bytes.length + 1) [] s

end Decoder

def decodeValue (bytes : Bytes) (L : Limits) : Except CodecError (StoredValue F) :=
  match L.validate with
  | .error e => .error e
  | .ok L =>
    if L.bytes < bytes.length then .error .limit
    else
      match (do let v ← Decoder.value L 1; Decoder.finish; pure v : Coding (Value F)) ⟨bytes, 0⟩ with
      | (.error e, _) => .error e
      | (.ok v, _) => if h : v.validate = .ok () then .ok ⟨v, h⟩ else .error .semantic

end Selene.Logical
