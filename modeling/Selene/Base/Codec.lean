import Selene.Base.Bytes

/-!
# Self-delimiting codecs

A `Codec` pairs an encoder with a decoder that reads one value off the front of its
input, and carries the round trip for values whose code has a 64-bit length. Records are the
concatenation of their fields. How Postcard writes a number or a text is a parameter (`Postcard`),
and LEB128 is one way to do it (`leb128`).
-/

namespace Octets

structure Codec (α : Type) where
  enc : α → Bytes
  dec : Bytes → Option (α × Bytes)
  dec_enc : ∀ {a : α} (rest : Bytes), (enc a).length < 2 ^ 64 → dec (enc a ++ rest) = some (a, rest)

/-! ## Numbers -/

/-- LEB128 in at most `k + 1` bytes. -/
def varint : ℕ → ℕ → Bytes
  | 0, n => [UInt8.ofNat n]
  | k + 1, n => if n < 128 then [UInt8.ofNat n] else UInt8.ofNat (n % 128 + 128) :: varint k (n / 128)

/-- At most `k + 1` bytes; the last of them may not exceed `top`. -/
def readVarint (top : ℕ) : ℕ → Bytes → Option (ℕ × Bytes)
  | _, [] => none
  | 0, b :: rest => if b.toNat ≤ top ∧ b.toNat < 128 then some (b.toNat, rest) else none
  | k + 1, b :: rest =>
    if b.toNat < 128 then some (b.toNat, rest)
    else (readVarint top k rest).map fun p => (b.toNat - 128 + 128 * p.1, p.2)

theorem readVarint_varint {top : ℕ} (ht : top < 128) (rest : Bytes) :
    ∀ {k n : ℕ}, n < 128 ^ k * (top + 1) → readVarint top k (varint k n ++ rest) = some (n, rest) := by
  intro k
  induction k with
  | zero =>
    intro n hn
    have hb := UInt8.toNat_ofNat_of_lt' (show n < UInt8.size by simp [UInt8.size]; omega)
    rw [varint, List.cons_append, List.nil_append, readVarint, hb, if_pos (by omega)]
  | succ k ih =>
    intro n hn
    rw [varint]
    split
    · rename_i hs
      rw [List.cons_append, List.nil_append, readVarint, UInt8.toNat_ofNat_of_lt' (by simp [UInt8.size]; omega), if_pos hs]
    · have hd : n / 128 < 128 ^ k * (top + 1) := by
        rw [Nat.div_lt_iff_lt_mul (by decide)]
        rw [pow_succ] at hn
        calc n < 128 ^ k * 128 * (top + 1) := hn
          _ = 128 ^ k * (top + 1) * 128 := by ring
      rw [List.cons_append, readVarint, UInt8.toNat_ofNat_of_lt' (by simp [UInt8.size]; omega), if_neg (by omega), ih hd]
      simp [Nat.mod_add_div]

theorem length_varint (k n : ℕ) : (varint k n).length ≤ k + 1 := by
  induction k generalizing n with
  | zero => simp [varint]
  | succ k ih =>
    rw [varint]
    split
    · simp
    · simpa using ih (n / 128)

namespace Codec

variable {α β : Type}

def u64 : Codec UInt64 where
  enc n := varint 9 n.toNat
  dec b := (readVarint 1 9 b).map fun p => (UInt64.ofNat p.1, p.2)
  dec_enc {n} rest _ := by
    rw [readVarint_varint (by decide) rest (by have := n.toNat_lt; omega)]
    simp

def u32 : Codec UInt32 where
  enc n := varint 4 n.toNat
  dec b := (readVarint 15 4 b).map fun p => (UInt32.ofNat p.1, p.2)
  dec_enc {n} rest _ := by
    rw [readVarint_varint (by decide) rest (by have := n.toNat_lt; omega)]
    simp

def u16 : Codec UInt16 where
  enc n := varint 2 n.toNat
  dec b := (readVarint 3 2 b).map fun p => (UInt16.ofNat p.1, p.2)
  dec_enc {n} rest _ := by
    rw [readVarint_varint (by decide) rest (by have := n.toNat_lt; omega)]
    simp

/-! ## Strings and records -/

/-- An array of `n` bytes, written raw. -/
def fixed (n : ℕ) : Codec { b : Bytes // b.length = n } where
  enc b := b.val
  dec b := if h : (b.take n).length = n then some (⟨b.take n, h⟩, b.drop n) else none
  dec_enc {a} rest _ := by
    obtain ⟨a, rfl⟩ := a
    simp

/-- A byte string behind its length. -/
def bytes : Codec Bytes where
  enc b := varint 9 b.length ++ b
  dec b := (readVarint 1 9 b).bind fun p =>
    if p.1 ≤ p.2.length then some (p.2.take p.1, p.2.drop p.1) else none
  dec_enc {a} rest h := by
    rw [List.length_append] at h
    rw [List.append_assoc, readVarint_varint (by decide) _ (by omega)]
    simp

def text : Codec String where
  enc s := bytes.enc s.toByteArray.data.toList
  dec b := (bytes.dec b).bind fun p => (String.fromUTF8? ⟨p.1.toArray⟩).map fun s => (s, p.2)
  dec_enc {s} rest h := by
    rw [bytes.dec_enc rest h]
    simp only [Option.bind_some, Array.toArray_toList, String.fromUTF8?, dif_pos s.isValidUTF8]
    rfl

/-- A tag byte, and the value when it is one. -/
def option (c : Codec α) : Codec (Option α) where
  enc
    | none => [0]
    | some a => 1 :: c.enc a
  dec
    | 0 :: rest => some (none, rest)
    | 1 :: rest => (c.dec rest).map fun p => (some p.1, p.2)
    | _ => none
  dec_enc {a} rest h := by
    cases a with
    | none => rfl
    | some a =>
      have ha : (c.enc a).length < 2 ^ 64 := by simp only [List.length_cons] at h; omega
      simp [c.dec_enc rest ha]

/-- Two fields, one after the other. -/
def pair (c : Codec α) (d : Codec β) : Codec (α × β) where
  enc p := c.enc p.1 ++ d.enc p.2
  dec b := (c.dec b).bind fun p => (d.dec p.2).map fun q => ((p.1, q.1), q.2)
  dec_enc {a} rest h := by
    rw [List.length_append] at h
    rw [List.append_assoc, c.dec_enc _ (by omega)]
    simp [d.dec_enc rest (show (d.enc a.2).length < 2 ^ 64 by omega)]

/-- A record, read off its tuple of fields. -/
def record (c : Codec α) (make : α → β) (fields : β → α) (h : ∀ b, make (fields b) = b) : Codec β where
  enc b := c.enc (fields b)
  dec b := (c.dec b).map fun p => (make p.1, p.2)
  dec_enc {b} rest hb := by
    rw [c.dec_enc rest hb]
    simp [h]

/-- A record that starts with an array starts with its bytes. -/
theorem take_of_dec {n : ℕ} {c : Codec α} {make : { b : Bytes // b.length = n } × α → β}
    {fields : β → { b : Bytes // b.length = n } × α} {hf : ∀ b, make (fields b) = b} {b rest : Bytes}
    {v : β} (h : (record (pair (fixed n) c) make fields hf).dec b = some (v, rest)) :
    ∃ p, make p = v ∧ b.take n = p.1.val := by
  obtain ⟨⟨p, _⟩, hp, h⟩ := Option.map_eq_some_iff.1 h
  cases h
  obtain ⟨⟨x, _⟩, hx, hp⟩ := Option.bind_eq_some_iff.1 hp
  obtain ⟨_, -, hp⟩ := Option.map_eq_some_iff.1 hp
  cases hp
  obtain ⟨_, hx⟩ := Option.dite_none_right_eq_some.1 hx
  cases hx
  exact ⟨_, rfl, rfl⟩

end Codec

/-- The codes of numbers, byte strings and texts, and how long they get. -/
structure Postcard where
  u16 : Codec UInt16
  u32 : Codec UInt32
  u64 : Codec UInt64
  bytes : Codec Bytes
  text : Codec String
  length_u16 : ∀ n, (u16.enc n).length ≤ 3
  length_u32 : ∀ n, (u32.enc n).length ≤ 5
  length_u64 : ∀ n, (u64.enc n).length ≤ 10
  length_bytes : ∀ b, (bytes.enc b).length ≤ 10 + b.length
  length_text : ∀ s, (text.enc s).length ≤ 10 + s.utf8ByteSize

theorem Codec.length_bytes (b : Bytes) : (bytes.enc b).length ≤ 10 + b.length := by
  have := length_varint 9 b.length
  simp only [bytes, List.length_append]
  omega

/-- Numbers in LEB128; byte strings and texts behind their length. -/
def leb128 : Postcard where
  u16 := .u16
  u32 := .u32
  u64 := .u64
  bytes := .bytes
  text := .text
  length_u16 n := length_varint 2 n.toNat
  length_u32 n := length_varint 4 n.toNat
  length_u64 n := length_varint 9 n.toNat
  length_bytes := Codec.length_bytes
  length_text s := by simpa [Codec.text] using Codec.length_bytes s.toByteArray.data.toList

end Octets
