import Selene.Persist.Control
import Selene.Persist.Snapshot
import Selene.Persist.Reader

/-!
# Root selection

`control/logical.rs` and the decoders of `checkpoint.rs` and `rotation.rs`: `CURRENT`
names a manifest by its exact digest, and the manifest names the segment and the
snapshot of a recovery root. A root is a plain log (`SLLM`), a log with a snapshot
(`SLDM`), or a rotated segment behind a snapshot (`SLRM`).
-/

namespace Selene.Persist

open Octets Disk

structure SnapshotDescriptor where
  name : String
  bytes : UInt64
  digest : Digest
  boundary : Position
  publication : UInt64
deriving DecidableEq

structure LogicalManifest where
  metadata : EmptyManifest
  segment : Digest

structure DataManifest where
  metadata : EmptyManifest
  segment : Digest
  origin : Digest
  snapshot : SnapshotDescriptor

/-- A completed prior selection and the exact end sealed by its successor. -/
structure PreviousRoot where
  selector : CurrentSelector
  sealedEnd : Position
deriving DecidableEq

structure Rotation where
  base : Position
  snapshotBase : Position
  previous : PreviousRoot
deriving DecidableEq

structure RotatingManifest where
  metadata : EmptyManifest
  snapshot : SnapshotDescriptor
  rotation : Rotation

structure Selected where
  metadata : EmptyManifest
  selector : CurrentSelector
  context : Context
  checkpoint : Option SnapshotDescriptor
  rotation : Option Rotation
deriving DecidableEq

/-- `rotation::log_name`, in lower-case hexadecimal. -/
def logText (segment : Digest) : String :=
  "WAL-" ++ String.ofList (segment.val.flatMap fun b =>
    [Nat.digitChar (b.toNat / 16), Nat.digitChar (b.toNat % 16)]) ++ ".logical"

namespace Selected

def manifestFile (s : Selected) : Name := s.selector.file

def logFile (s : Selected) : Name :=
  match s.rotation with
  | none => .firstLog
  | some r => .log r.base.segment

def logName (s : Selected) : String :=
  match s.rotation with
  | none => "WAL-00000000000000000001.logical"
  | some r => logText r.base.segment

/-- The file of the snapshot; its decoder has compared the descriptor's name with it. -/
def snapshotFile (s : Selected) : Name := .snapshot s.metadata.generation

def base (s : Selected) : Position := s.context.base

end Selected

namespace Wire

open Codec

variable (N : Native)

def position : Codec Position :=
  record (pair storeId (pair N.u64 (pair digest (pair N.u64 (pair N.u64 digest)))))
    (fun (s, e, g, n, o, d) => ⟨s, e, g, n, o, d⟩)
    (fun p => (p.store, p.epoch, p.segment, p.sequence, p.offset, p.digest)) fun _ => rfl

def descriptor : Codec SnapshotDescriptor :=
  record (pair N.text (pair N.u64 (pair digest (pair (position N) N.u64))))
    (fun (n, b, d, p, q) => ⟨n, b, d, p, q⟩)
    (fun s => (s.name, s.bytes, s.digest, s.boundary, s.publication)) fun _ => rfl

def logicalManifest : Codec LogicalManifest :=
  record (pair (manifest N) digest) (fun (m, s) => ⟨m, s⟩) (fun m => (m.metadata, m.segment)) fun _ => rfl

def dataManifest : Codec DataManifest :=
  record (pair (manifest N) (pair digest (pair digest (descriptor N)))) (fun (m, s, o, d) => ⟨m, s, o, d⟩)
    (fun m => (m.metadata, m.segment, m.origin, m.snapshot)) fun _ => rfl

def rotation : Codec Rotation :=
  record (pair (position N) (pair (position N) (pair (selector N) (position N)))) (fun (b, s, r, e) => ⟨b, s, ⟨r, e⟩⟩)
    (fun r => (r.base, r.snapshotBase, r.previous.selector, r.previous.sealedEnd)) fun _ => rfl

def rotatingManifest : Codec RotatingManifest :=
  record (pair (manifest N) (pair (descriptor N) (rotation N))) (fun (m, s, r) => ⟨m, s, r⟩)
    (fun m => (m.metadata, m.snapshot, m.rotation)) fun _ => rfl

end Wire

/-! ## Decoders -/

namespace LogicalManifest

def validate (m : LogicalManifest) : Except ControlError Unit :=
  match m.metadata.validate with
  | .error e => .error e
  | .ok () => if ¬ m.metadata.storeId.isV4 ∨ m.segment = zeroDigest then .error .lineage else .ok ()

def decode (N : Native) (bytes : Bytes) : Except ControlError LogicalManifest :=
  checked (Control.decode N (Wire.logicalManifest N) bytes logicalMagic) validate

end LogicalManifest

/-- The extent a manifest may declare for its snapshot. -/
def SnapshotDescriptor.sized (s : SnapshotDescriptor) : Prop :=
  Snapshot.overhead ≤ s.bytes.toNat ∧ s.bytes.toNat ≤ defaultLimit + Snapshot.overhead

instance (s : SnapshotDescriptor) : Decidable s.sized := inferInstanceAs (Decidable (_ ∧ _))

namespace DataManifest

def validate (m : DataManifest) : Except ControlError Unit :=
  match m.metadata.validate with
  | .error e => .error e
  | .ok () =>
    let p := m.snapshot.boundary
    if ¬ p.store.isV4 ∨ p.epoch = 0 ∨
        p.store ≠ m.metadata.storeId ∨ p.epoch ≠ m.metadata.epoch ∨ p.segment ≠ m.segment ∨
        p.segment = zeroDigest ∨ m.origin = zeroDigest ∨ p.digest = zeroDigest ∨
        ¬ (p.sequence = 0 ↔ p.offset = 0) ∨ (p.sequence = 0 ∧ p.digest ≠ m.origin) ∨
        m.snapshot.name ≠ snapshotName m.metadata.generation ∨ ¬ m.snapshot.sized then
      .error .lineage
    else .ok ()

def decode (N : Native) (bytes : Bytes) : Except ControlError DataManifest :=
  checked (Control.decode N (Wire.dataManifest N) bytes dataMagic) validate

end DataManifest

namespace RotatingManifest

/-- The lineage checks of `rotation::decode`, in the source's order. -/
def wellFormed (m : RotatingManifest) : Prop :=
  let r := m.rotation
  let p := m.snapshot.boundary
  let b := r.snapshotBase
  r.base.store = m.metadata.storeId ∧ r.base.epoch = m.metadata.epoch ∧
  p.store = r.base.store ∧ p.epoch = r.base.epoch ∧ b.store = p.store ∧ b.epoch = p.epoch ∧
  b.segment = p.segment ∧ b.offset = 0 ∧ b.digest ≠ zeroDigest ∧ b.segment ≠ zeroDigest ∧
  b.sequence ≤ p.sequence ∧ p.digest ≠ zeroDigest ∧ (p.sequence = b.sequence ↔ p.offset = 0) ∧
  (p.offset = 0 → p.digest = b.digest) ∧ r.base.sequence = p.sequence ∧
  r.base.sequence ≠ 0xffffffffffffffff ∧ r.base.offset = 0 ∧ r.base.segment ≠ zeroDigest ∧
  r.base.segment ≠ p.segment ∧ r.base.digest = r.base.segment ∧ r.previous.sealedEnd = p ∧
  r.previous.selector.storeId = p.store ∧ r.previous.selector.epoch = p.epoch ∧
  r.previous.selector.generation < m.metadata.generation ∧
  m.metadata.parent = some ⟨r.previous.selector.generation, r.previous.selector.digest⟩ ∧
  m.snapshot.name = snapshotName m.metadata.generation ∧ m.snapshot.sized

instance (m : RotatingManifest) : Decidable m.wellFormed := by
  unfold wellFormed; infer_instance

def validate (m : RotatingManifest) : Except ControlError Unit :=
  match m.metadata.validate with
  | .error e => .error e
  | .ok () =>
    match m.rotation.previous.selector.validate with
    | .error e => .error e
    | .ok () => if m.wellFormed then .ok () else .error .lineage

def decode (N : Native) (bytes : Bytes) : Except ControlError RotatingManifest :=
  checked (Control.decode N (Wire.rotatingManifest N) bytes rotatingMagic) validate

end RotatingManifest

/-! ## Selection -/

/-- The decoded manifest belongs to the selector and to the expected store. -/
def matchSelector (m : EmptyManifest) (selector : CurrentSelector) (expected : CompatibilityIdentity) :
    Except ControlError Unit :=
  if m.storeId ≠ selector.storeId ∨ m.epoch ≠ selector.epoch ∨ m.generation ≠ selector.generation then
    .error .lineage
  else if m.identity ≠ expected then .error .compatibility
  else .ok ()

namespace LogicalManifest

def select (m : LogicalManifest) (selector : CurrentSelector) : Selected where
  metadata := m.metadata
  selector := selector
  context := ⟨m.metadata.storeId, m.metadata.epoch, 1, m.segment, selector.digest⟩
  checkpoint := none
  rotation := none

end LogicalManifest

namespace DataManifest

def select (m : DataManifest) (selector : CurrentSelector) : Selected where
  metadata := m.metadata
  selector := selector
  context := ⟨m.snapshot.boundary.store, m.snapshot.boundary.epoch, 1, m.segment, m.origin⟩
  checkpoint := some m.snapshot
  rotation := none

def decodeSelected (N : Native) (bytes : Bytes) (selector : CurrentSelector)
    (expected : CompatibilityIdentity) : Except ControlError Selected :=
  match checked (decode N bytes) (fun m => matchSelector m.metadata selector expected) with
  | .error e => .error e
  | .ok m => .ok (m.select selector)

end DataManifest

namespace RotatingManifest

def select (m : RotatingManifest) (selector : CurrentSelector) : Selected where
  metadata := m.metadata
  selector := selector
  context := ⟨m.rotation.base.store, m.rotation.base.epoch, m.rotation.base.sequence + 1,
    m.rotation.base.segment, m.rotation.base.digest⟩
  checkpoint := some m.snapshot
  rotation := some m.rotation

def decodeSelected (N : Native) (bytes : Bytes) (selector : CurrentSelector)
    (expected : CompatibilityIdentity) : Except ControlError Selected :=
  match checked (decode N bytes) (fun m => matchSelector m.metadata selector expected) with
  | .error e => .error e
  | .ok m => .ok (m.select selector)

end RotatingManifest

/-- The dispatch of `select_root` on the manifest's bytes. -/
def decodeRoot (N : Native) (bytes : Bytes) (selector : CurrentSelector)
    (expected : CompatibilityIdentity) : Except ControlError Selected :=
  if bytes.take 4 = dataMagic.val then DataManifest.decodeSelected N bytes selector expected
  else if bytes.take 4 = rotatingMagic.val then RotatingManifest.decodeSelected N bytes selector expected
  else
    match checked (LogicalManifest.decode N bytes) (fun m => matchSelector m.metadata selector expected) with
    | .error e => .error e
    | .ok m => .ok (m.select selector)

def control {α : Type} : Except ControlError α → Except PersistError α
  | .error e => .error (.control e)
  | .ok a => .ok a

def selectRoot (N : Native) (d : Dir) (selector : CurrentSelector) (expected : CompatibilityIdentity) :
    Except PersistError Selected :=
  match d.readBounded selector.file with
  | .error e => .error e
  | .ok bytes =>
    if N.hash bytes ≠ selector.digest then .error (.control .checksum)
    else control (decodeRoot N bytes selector expected)

/-- The names `select_in` admits. -/
def Name.recognized : Name → Bool
  | .manifest g => g ≠ 0
  | .snapshot g => g ≠ 0
  | .foreign _ => false
  | _ => true

def selectIn (N : Native) (d : Dir) (expected : CompatibilityIdentity) : Except PersistError Selected :=
  match expected.validate with
  | .error e => .error (.control e)
  | .ok () =>
    if ¬ d.keys.all Name.recognized then .error (.control .mixedArtifacts)
    else
      match d.readBounded .current with
      | .error e => .error e
      | .ok bytes =>
        match CurrentSelector.decode N bytes with
        | .error e => .error (.control e)
        | .ok selector => selectRoot N d selector expected

end Selene.Persist
