import Selene.Persist.Wal

/-!
# Snapshot files

`logical_snapshot.rs`: a 168-byte header (136 bytes of fields and their digest), the
semantic image, an end marker and the digest of everything before it.
-/

namespace Selene.Persist

open Octets

/-- `Limits::default().bytes`. -/
def defaultLimit : ℕ := 256 * 1024 * 1024

structure SnapshotContext where
  boundary : Position
  publication : UInt64

namespace Snapshot

/-- `SLSNP2\0\0`. -/
def magic : Bytes := [0x53, 0x4c, 0x53, 0x4e, 0x50, 0x32, 0, 0]
/-- `SLSNEND2`. -/
def endMark : Bytes := [0x53, 0x4c, 0x53, 0x4e, 0x45, 0x4e, 0x44, 0x32]
def headerLen : ℕ := 168
def overhead : ℕ := headerLen + 40

def validateContext (c : SnapshotContext) : Except CodecError Unit :=
  if c.boundary.segment = zeroDigest ∨ c.boundary.digest = zeroDigest ∨
      (c.boundary.sequence = 0 ∧ c.boundary.offset ≠ 0) then .error (.invalid "snapshot context")
  else .ok ()

/-- The 136 validated header bytes. -/
def fields (length : ℕ) (c : SnapshotContext) : Bytes :=
  magic ++ (leBytes 4 2 ++ (leBytes 4 0 ++ (leBytes 8 length ++ (leBytes 8 c.publication.toNat ++
    (c.boundary.store.bytes.val ++ (leBytes 8 c.boundary.epoch.toNat ++ (c.boundary.segment.val ++
    (leBytes 8 c.boundary.sequence.toNat ++ (leBytes 8 c.boundary.offset.toNat ++
    c.boundary.digest.val)))))))))

variable (N : Native)

/-- Header, image and end marker: what the closing digest covers. -/
def content (body : Bytes) (c : SnapshotContext) : Bytes :=
  fields body.length c ++ ((N.hash (fields body.length c)).val ++ (body ++ endMark))

def encode (body : Bytes) (c : SnapshotContext) (limit : ℕ) : Except CodecError Bytes :=
  if defaultLimit < limit ∨ limit < body.length then .error .limit
  else
    match validateContext c with
    | .error e => .error e
    | .ok () => .ok (content N body c ++ (N.hash (content N body c)).val)

def number (header : Bytes) (offset : ℕ) : ℕ := leNat (slice header offset 8)

/-- `StoreId::from_bytes` on a slice of the header. -/
def storeAt (header : Bytes) : Except FrameError StoreId :=
  if h : (slice header 32 16).length = 16 then
    let id : StoreId := ⟨⟨slice header 32 16, h⟩⟩
    if id.isV4 then .ok id else .error (.payload .semantic)
  else .error (.payload .incomplete)

/-- The header against the trusted context: the exact file length it declares. -/
def requiredLength (bytes : Bytes) (expected : SnapshotContext) (limit : ℕ) : Except FrameError ℕ :=
  match validateContext expected with
  | .error e => .error (.payload e)
  | .ok () =>
    if defaultLimit < limit then .error .limit
    else if bytes.length < headerLen then .error .corruptIncomplete
    else
      let h := bytes.take headerLen
      if slice h 0 8 ≠ magic then .error (.invalid "snapshot magic")
      else if (N.hash (h.take 136)).val ≠ slice h 136 32 then .error (.integrity "snapshot header")
      else if leNat (slice h 8 4) ≠ 2 then .error (.unsupported "snapshot version")
      else if leNat (slice h 12 4) ≠ 0 then .error (.invalid "snapshot reserved")
      else if limit < number h 16 then .error .limit
      else
        match storeAt h with
        | .error e => .error e
        | .ok store =>
          if number h 48 = 0 then .error (.payload .semantic)
          else if store ≠ expected.boundary.store then .error .store
          else if number h 48 ≠ expected.boundary.epoch.toNat then .error .epoch
          else if slice h 56 32 ≠ expected.boundary.segment.val then .error .segment
          else if slice h 104 32 ≠ expected.boundary.digest.val then .error .origin
          else if number h 88 ≠ expected.boundary.sequence.toNat ∨
              number h 96 ≠ expected.boundary.offset.toNat ∨
              number h 24 ≠ expected.publication.toNat then .error .snapshotBoundary
          else .ok (number h 16 + overhead)

def decode (bytes : Bytes) (expected : SnapshotContext) (digest : Digest) (limit : ℕ) :
    Except FrameError Bytes :=
  match requiredLength N bytes expected limit with
  | .error e => .error e
  | .ok length =>
    if bytes.length < length then .error .corruptIncomplete
    else if length < bytes.length then .error (.invalid "snapshot file length")
    else if slice bytes (length - 40) 8 ≠ endMark ∨ bytes.drop (length - 32) ≠ digest.val ∨
        N.hash (bytes.take (length - 32)) ≠ digest then .error (.integrity "snapshot complete")
    else .ok (slice bytes headerLen (length - 40 - headerLen))

end Snapshot

end Selene.Persist
