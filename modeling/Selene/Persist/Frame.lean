import Selene.Base.Codec

/-!
# Format-2 transaction frames

`logical_frame.rs`: one logical transaction body, framed by a 160-byte header (128
bytes of fields and their digest) and a 40-byte trailer (end marker and the digest of
everything before it). BLAKE3, Zstd and Postcard are parameters; nothing is assumed of the hash.
-/

namespace Selene.Persist

open Octets

/-- A BLAKE3 digest, and every other 32-byte array of the format. -/
abbrev Digest := { b : Bytes // b.length = 32 }

def zeroDigest : Digest := ⟨List.replicate 32 0, rfl⟩

/-- `blake3::hash`, the level-one Zstd encoder with a pledged size (`none`: it reports an
error), and the single-frame streaming decoder: what its nonempty reads return in turn,
then the input left over, or `none` when a read fails. -/
structure Native extends Postcard where
  hash : Bytes → Digest
  compress : Bytes → Option Bytes
  decompress : Bytes → List Bytes × Option Bytes

/-- What the code relies on: a frame the encoder writes starts with the Zstd magic, names
no dictionary, and decodes to the input with nothing left. -/
structure Native.Lawful (N : Native) : Prop where
  magic : ∀ {b c}, N.compress b = some c → c.take 4 = [0x28, 0xb5, 0x2f, 0xfd]
  noDictionary : ∀ {b e}, N.compress b = some e → ∃ x, e[4]? = some x ∧ x &&& 3 = 0
  roundTrip : ∀ {b c}, N.compress b = some c →
    (N.decompress c).1.flatten = b ∧ (N.decompress c).2 = some []

/-- Durable store identity: 16 UUID bytes. -/
structure StoreId where
  bytes : { b : Bytes // b.length = 16 }
deriving DecidableEq

/-- `StoreId::from_bytes` accepts these bytes: version 4, RFC variant. -/
def StoreId.isV4 (id : StoreId) : Bool :=
  id.bytes.val.getD 6 0 >>> 4 == 4 && id.bytes.val.getD 8 0 >>> 6 == 2

structure Context where
  store : StoreId
  epoch : UInt64
  sequence : UInt64
  segment : Digest
  previous : Digest
deriving DecidableEq

inductive Compression where
  | raw
  | auto
deriving DecidableEq

inductive Boundary where
  | unsealedEnd
  | sealedEnd
  | interior
deriving DecidableEq

inductive CodecError where
  | incomplete
  | limit
  | invalid (what : String)
  | unsupported (what : String)
  | semantic
  | admission (what : String)
deriving DecidableEq

inductive FrameError where
  | invalid (what : String)
  | context
  | unsupported (what : String)
  | integrity (what : String)
  | store
  | epoch
  | segment
  | origin
  | sequence (expected observed : UInt64)
  | snapshotBoundary
  | payload (e : CodecError)
  | limit
  | corruptIncomplete
  | compression
deriving DecidableEq

inductive Decoded where
  | complete (body : Bytes) (digest : Digest) (consumed : ℕ)
  | incomplete (needed : ℕ)

namespace Frame

/-- `SLTXN2\0\0`. -/
def magic : Bytes := [0x53, 0x4c, 0x54, 0x58, 0x4e, 0x32, 0, 0]
/-- `SLTXEND2`. -/
def endMark : Bytes := [0x53, 0x4c, 0x54, 0x58, 0x45, 0x4e, 0x44, 0x32]
def headerLen : ℕ := 160
def trailerLen : ℕ := 40
def frameOverhead : ℕ := headerLen + trailerLen
def maxPayload : ℕ := 256 * 1024 * 1024

def checkContext (ctx : Context) : Except FrameError Unit :=
  if ctx.sequence = 0 ∨ ctx.epoch = 0 then .error .context
  else if ctx.store.isV4 then .ok () else .error .context

/-- The encoded body when compression is tried and pays, else `none`. -/
def compressBody (N : Native) (compression : Compression) (body : Bytes) :
    Except FrameError (Option Bytes) :=
  if compression = .auto ∧ 4096 ≤ body.length then
    match N.compress body with
    | none => .error .compression
    | some bytes => .ok (if bytes.length < body.length then some bytes else none)
  else .ok none

/-- The 128 validated header bytes. -/
def fields (ctx : Context) (codec : UInt8) (encodedLen expandedLen : ℕ) : Bytes :=
  magic ++ (leBytes 2 2 ++ (leBytes 2 0 ++ ([codec, 0, 0, 0] ++ (leBytes 8 encodedLen ++
    (leBytes 8 expandedLen ++ (leBytes 8 ctx.sequence.toNat ++ (ctx.store.bytes.val ++
    (leBytes 8 ctx.epoch.toNat ++ (ctx.segment.val ++ ctx.previous.val)))))))))

def header (N : Native) (ctx : Context) (codec : UInt8) (encodedLen expandedLen : ℕ) : Bytes :=
  fields ctx codec encodedLen expandedLen ++ (N.hash (fields ctx codec encodedLen expandedLen)).val

/-- Header, encoded body and end marker: what the record digest covers. -/
def record (N : Native) (ctx : Context) (codec : UInt8) (encoded : Bytes) (expandedLen : ℕ) : Bytes :=
  header N ctx codec encoded.length expandedLen ++ (encoded ++ endMark)

def encode (N : Native) (body : Bytes) (ctx : Context) (compression : Compression) (limit : ℕ) :
    Except FrameError Bytes :=
  match checkContext ctx with
  | .error e => .error e
  | .ok () =>
    if maxPayload < limit ∨ limit < body.length then .error .limit
    else
      match compressBody N compression body with
      | .error e => .error e
      | .ok compressed =>
        let bytes := record N ctx (if compressed.isSome then 1 else 0) (compressed.getD body) body.length
        .ok (bytes ++ (N.hash bytes).val)

def incomplete (boundary : Boundary) (needed : ℕ) : Except FrameError Decoded :=
  if boundary = .unsealedEnd then .ok (.incomplete needed) else .error .corruptIncomplete

def number (header : Bytes) (offset : ℕ) : ℕ := leNat (slice header offset 8)

/-- The bounded read loop of `expand`. -/
def expandLoop (expected : ℕ) : List Bytes → Bytes → Except FrameError Bytes
  | [], output => .ok output
  | chunk :: chunks, output =>
    if expected - output.length < chunk.length then .error .limit
    else expandLoop expected chunks (output ++ chunk)

def expand (N : Native) (bytes : Bytes) (expected : ℕ) : Except FrameError Bytes :=
  if bytes.take 4 ≠ [0x28, 0xb5, 0x2f, 0xfd] ∨ ¬ (bytes[4]?).any (fun b => b &&& 3 == 0) then
    .error .compression
  else
    match expandLoop expected (N.decompress bytes).1 [] with
    | .error e => .error e
    | .ok output =>
      match (N.decompress bytes).2 with
      | none => .error .compression
      | some rest =>
        if output.length ≠ expected ∨ rest ≠ [] then .error (.invalid "Zstd consumption/length")
        else .ok output

/-- The part of `decode` that needs the whole frame. `encoded` and `expanded` are the
header's lengths and `h` the header. -/
def decodeRecord (N : Native) (bytes h : Bytes) (boundary : Boundary) (encoded expanded : ℕ) :
    Except FrameError Decoded :=
  let total := encoded + frameOverhead
  if bytes.length < total then incomplete boundary total
  else
    let trailer := headerLen + encoded
    if slice bytes trailer 8 ≠ endMark then .error (.invalid "trailer")
    else
      let digest := N.hash (bytes.take (trailer + 8))
      if digest.val ≠ slice bytes (trailer + 8) 32 then .error (.integrity "record")
      else
        let payload := slice bytes headerLen encoded
        if h.getD 12 0 = 0 then .ok (.complete payload digest total)
        else
          match expand N payload expanded with
          | .error e => .error e
          | .ok body => .ok (.complete body digest total)

/-- The header checks against the trusted context, in the source's order. -/
def decodeHeader (ctx : Context) (limit : ℕ) (h : Bytes) : Except FrameError (ℕ × ℕ) :=
  if slice h 8 4 ≠ [2, 0, 0, 0] then .error (.unsupported "version")
  else if 1 < h.getD 12 0 then .error (.unsupported "codec")
  else if slice h 13 3 ≠ [0, 0, 0] then .error (.invalid "reserved")
  else
    let encoded := number h 16
    let expanded := number h 24
    if limit < encoded ∨ limit < expanded then .error .limit
    else if h.getD 12 0 = 0 ∧ encoded ≠ expanded then .error (.invalid "raw length")
    else if slice h 40 16 ≠ ctx.store.bytes.val then .error .store
    else if number h 56 ≠ ctx.epoch.toNat then .error .epoch
    else if slice h 64 32 ≠ ctx.segment.val then .error .segment
    else if number h 32 ≠ ctx.sequence.toNat then
      .error (.sequence ctx.sequence (UInt64.ofNat (number h 32)))
    else if slice h 96 32 ≠ ctx.previous.val then .error .origin
    else .ok (encoded, expanded)

def decode (N : Native) (bytes : Bytes) (ctx : Context) (boundary : Boundary) (limit : ℕ) :
    Except FrameError Decoded :=
  match checkContext ctx with
  | .error e => .error e
  | .ok () =>
    if maxPayload < limit then .error .limit
    else if bytes.take 8 ≠ magic.take (min bytes.length 8) then .error (.invalid "magic")
    else if bytes.length < headerLen then incomplete boundary headerLen
    else
      let h := bytes.take headerLen
      if (N.hash (h.take 128)).val ≠ slice h 128 32 then .error (.integrity "header")
      else
        match decodeHeader ctx limit h with
        | .error e => .error e
        | .ok (encoded, expanded) => decodeRecord N bytes h boundary encoded expanded

end Frame

end Selene.Persist
