import Selene.Base.Metered

/-!
# Wire fields

`logical/wire.rs`: little-endian fields of a bounded payload, and the resource budget that one
transaction shares. The encoder and the decoder are streams with what they have spent; the limits
stand in the budget and never change, so they are a parameter here.
-/

namespace Selene.Logical

open Octets Metered

inductive CodecError where
  | incomplete
  | limit
  | invalid (what : String)
  | unsupported (what : String)
  | semantic
  | admission (what : String)

def maxPayload : ℕ := 256 * 1024 * 1024

structure Limits where
  bytes : ℕ
  allocation : ℕ
  items : ℕ
  metadata : ℕ
  depth : ℕ

namespace Limits

/-- `Limits::default`. -/
def ceiling : Limits := ⟨maxPayload, maxPayload, 1048576, 4096, 256⟩

def validate (L : Limits) : Except CodecError Limits :=
  if ceiling.bytes < L.bytes ∨ ceiling.allocation < L.allocation ∨ ceiling.items < L.items ∨
      ceiling.metadata < L.metadata ∨ ceiling.depth < L.depth then .error .limit
  else .ok L

end Limits

/-- What a budget has counted. -/
structure Charge where
  items : ℕ
  allocation : ℕ
  metadata : ℕ

namespace Charge

instance : Add Charge := ⟨fun a b => ⟨a.items + b.items, a.allocation + b.allocation, a.metadata + b.metadata⟩⟩
instance : Zero Charge := ⟨⟨0, 0, 0⟩⟩

@[simp] theorem items_add (a b : Charge) : (a + b).items = a.items + b.items := rfl
@[simp] theorem allocation_add (a b : Charge) : (a + b).allocation = a.allocation + b.allocation := rfl
@[simp] theorem metadata_add (a b : Charge) : (a + b).metadata = a.metadata + b.metadata := rfl
@[simp] theorem items_zero : (0 : Charge).items = 0 := rfl
@[simp] theorem allocation_zero : (0 : Charge).allocation = 0 := rfl
@[simp] theorem metadata_zero : (0 : Charge).metadata = 0 := rfl

@[ext] theorem ext {a b : Charge} (hi : a.items = b.items) (ha : a.allocation = b.allocation)
    (hm : a.metadata = b.metadata) : a = b := by
  cases a
  cases b
  simp_all

instance : AddCommMonoid Charge where
  add_assoc a b c := by ext <;> simp [Nat.add_assoc]
  zero_add a := by ext <;> simp
  add_zero a := by ext <;> simp
  add_comm a b := by ext <;> simp [Nat.add_comm]
  nsmul := nsmulRec

end Charge

/-- Computations of an encoder or a decoder. -/
abbrev Coding (α : Type) := Attempt (Stream Charge) CodecError α

def fail {α : Type} (e : CodecError) : Coding α := Attempt.check fun _ => .error e

/-! ## The budget -/

variable (L : Limits)

def charge (items allocation : ℕ) : Coding Unit := fun s =>
  let s := { s with spent := s.spent + ⟨items, allocation, 0⟩ }
  if L.items < s.spent.items ∨ L.allocation < s.spent.allocation then (.error .limit, s)
  else (.ok (), s)

/-- `Budget::depth`. -/
def checkDepth (depth : ℕ) : Coding Unit :=
  Attempt.check fun _ => if L.depth < depth then .error .limit else .ok ()

def jsonLimit (spent : Charge) : ℕ :=
  min (min L.bytes (L.items - spent.items)) ((L.allocation - spent.allocation) / 136)

/-! ## Encoder -/

namespace Encoder

def fixed (bytes : Bytes) : Coding Unit := fun s =>
  if L.bytes < s.bytes.length + bytes.length then (.error .limit, s)
  else (.ok (), { s with bytes := s.bytes ++ bytes })

def u8 (n : UInt8) : Coding Unit := fixed L [n]

def boolean (b : Bool) : Coding Unit := u8 L (if b then 1 else 0)

def u32 (n : UInt32) : Coding Unit := fixed L (leBytes 4 n.toNat)

def u64 (n : UInt64) : Coding Unit := fixed L (leBytes 8 n.toNat)

/-- `u32::try_from`. -/
def length32 (n : ℕ) : Coding Unit :=
  if n < 2 ^ 32 then u32 L (UInt32.ofNat n) else fail .limit

/-- `count_for` of a type with `size` resident bytes. -/
def countFor (size n : ℕ) : Coding Unit := do
  charge L n (n * max (size * 4) 256)
  length32 L n

def count (n : ℕ) : Coding Unit := countFor L 64 n

def blob (value : Bytes) : Coding Unit := do
  charge L 0 (value.length * 8)
  length32 L value.length
  fixed L value

def text (s : String) : Coding Unit := blob L s.toByteArray.data.toList

end Encoder

/-! ## Decoder -/

namespace Decoder

def take (n : ℕ) : Coding Bytes := fun s =>
  if s.bytes.length < n then (.error .incomplete, s)
  else (.ok (s.bytes.take n), { s with bytes := s.bytes.drop n })

def u8 : Coding UInt8 := do
  let bytes ← take 1
  pure (UInt8.ofNat (leNat bytes))

def boolean : Coding Bool := do
  let n ← u8
  if n = 0 then pure false else if n = 1 then pure true else fail (.invalid "boolean")

def u32 : Coding UInt32 := do
  let bytes ← take 4
  pure (UInt32.ofNat (leNat bytes))

def u64 : Coding UInt64 := do
  let bytes ← take 8
  pure (UInt64.ofNat (leNat bytes))

/-- Every entry takes at least one byte. -/
def available (n : ℕ) : Coding Unit :=
  Attempt.check fun s => if s.bytes.length < n then .error .incomplete else .ok ()

def countFor (size : ℕ) : Coding ℕ := do
  let n ← u32
  available n.toNat
  charge L n.toNat (n.toNat * max (size * 4) 256)
  pure n.toNat

def count : Coding ℕ := countFor L 64

def blob : Coding Bytes := do
  let n ← u32
  available n.toNat
  charge L 0 (n.toNat * 8)
  take n.toNat

/-- `str::from_utf8`. -/
def utf8 (bytes : Bytes) : Coding String :=
  Attempt.check fun _ =>
    match String.fromUTF8? ⟨bytes.toArray⟩ with
    | some s => .ok s
    | none => .error (.invalid "UTF-8")

def text : Coding String := do
  let bytes ← blob L
  utf8 bytes

def finish : Coding Unit :=
  Attempt.check fun s => if s.bytes = [] then .ok () else .error (.invalid "trailing bytes")

end Decoder

end Selene.Logical
