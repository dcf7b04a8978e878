import Selene.Persist.Prune

/-!
# Publication of a root

`publish_bytes` of `control.rs`, `publish_snapshot` and `publish_checkpoint` of
`control/logical/checkpoint.rs`, `publish_rotation` of `control/logical/rotation.rs`, and the
operations of `LogicalWal` that use them. Every artifact is written under a staged name
and renamed into place; `CURRENT` is replaced last. The names that the code draws at
random come from an environment, and every operation on the directory may fail.
-/

namespace Selene.Persist

open Octets Disk

/-- The fresh UUIDs of one publication: the staged names and the new segment's 32 bytes. -/
structure Draws where
  snapshotTemp : Uuid
  manifestTemp : Uuid
  currentTemp : Uuid
  segment : Digest

variable (N : Native) (draws : Draws)

def persistIO : PersistError → StreamError := .persist

def liftControl {α : Type} (x : Except ControlError α) : Prog Dir StreamError α :=
  Prog.lift (match x with | .error e => .error (.persist (.control e)) | .ok a => .ok a)

def liftPersist {α : Type} (x : Except PersistError α) : Prog Dir StreamError α :=
  Prog.lift (match x with | .error e => .error (.persist e) | .ok a => .ok a)

/-- A read of the directory. -/
def observe {α : Type} (read : Dir → Except StreamError α) : Prog Dir StreamError α :=
  .look (.persist .io) read

/-- `let _ = dir.remove(name)`. -/
def discard (n : Name) : Prog Dir StreamError Unit := do
  let _ ← Prog.attempt (Dir.remove persistIO n)
  pure ()

/-- `stage`: write a staged control file; a failed one is removed. -/
def stage (temp : Uuid) (bytes : Bytes) : Prog Dir StreamError Name := do
  Dir.createNew persistIO (.controlTemp temp)
  match ← Prog.attempt (do Dir.writeAll persistIO (.controlTemp temp) bytes; Dir.sync persistIO) with
  | .ok () => pure (.controlTemp temp)
  | .error e => do discard (.controlTemp temp); Prog.throw e

/-- The file, when it is there, must hold these bytes. -/
def sameBytes (n : Name) (bytes : Bytes) (d : Dir) : Except StreamError Unit :=
  match d.readBounded n with
  | .error e => .error (.persist e)
  | .ok b => if b = bytes then .ok () else .error (.persist (.control .lineage))

/-- The immutable manifest: published under its name, or found there with the same bytes. -/
def publishManifest (temp n : Name) (bytes : Bytes) : Prog Dir StreamError Unit := do
  match ← Prog.attempt (Dir.publishNew persistIO temp n) with
  | .ok () => pure ()
  | .error (.persist .alreadyExists) => do
    observe (sameBytes n bytes)
    Dir.sync persistIO
    Dir.remove persistIO temp
  | .error e => Prog.throw e
  Dir.sync persistIO

/-- The selector replaces `CURRENT`. An error that may have come after the replacement is
reported as uncertain. -/
def replaceCurrent (initial : Bool) (temp : Name) : Prog Dir StreamError Unit := do
  match ← Prog.attempt (do
      if initial then Dir.publishNew persistIO temp .current else Dir.rename persistIO temp .current
      Dir.sync persistIO) with
  | .ok () => pure ()
  | .error e => do
    discard temp
    if initial ∧ e = .persist .alreadyExists then Prog.throw (.persist (.control .alreadyInitialized))
    else Prog.throw (.persist (.control .publicationUncertain))

def publishBytes (bytes : Bytes) (selector : CurrentSelector) (initial : Bool) : Prog Dir StreamError Unit := do
  let currentBytes ← liftControl (selector.encode N)
  observe fun d => if selector.file ∈ d then sameBytes selector.file bytes d else .ok ()
  let temp ← stage draws.manifestTemp bytes
  match ← Prog.attempt (publishManifest temp selector.file bytes) with
  | .ok () => pure ()
  | .error e => do discard temp; Prog.throw e
  let temp ← stage draws.currentTemp currentBytes
  replaceCurrent initial temp

def publishSnapshot (generation : UInt64) (body : Bytes) (context : SnapshotContext) :
    Prog Dir StreamError SnapshotDescriptor := do
  let prepared {α : Type} : Except FrameError α → Except StreamError α
    | .error _ => .error .preparation
    | .ok a => .ok a
  let bytes ← Prog.lift (match Snapshot.encode N body context defaultLimit with
    | .error _ => .error .preparation
    | .ok b => .ok b)
  let digest := tailDigest bytes
  let _ ← Prog.lift (prepared (Snapshot.decode N bytes context digest defaultLimit))
  let temp := Name.snapshotTemp draws.snapshotTemp
  Dir.createNew persistIO temp
  Dir.writeAll persistIO temp (bytes.take (bytes.length / 2))
  Dir.writeAll persistIO temp (bytes.drop (bytes.length / 2))
  Dir.sync persistIO
  let _ ← observe fun d =>
    match d.openRead temp with
    | .error e => .error (.persist e)
    | .ok staged => prepared (Snapshot.decode N (staged.take (bytes.length + 1)) context digest defaultLimit)
  Dir.publishNew persistIO temp (.snapshot generation)
  Dir.sync persistIO
  pure ⟨snapshotName generation, UInt64.ofNat bytes.length, digest, context.boundary, context.publication⟩

/-- The metadata of a root's successor. -/
def successor (previous : Selected) (generation : UInt64) : EmptyManifest :=
  { previous.metadata with
    generation := generation
    parent := some ⟨previous.metadata.generation, previous.selector.digest⟩ }

/-- `publish_checkpoint`: the first snapshot of a plain log. -/
def publishCheckpoint (previous : Selected) (body : Bytes) (context : SnapshotContext) :
    Prog Dir StreamError Selected := do
  observe fun d =>
    match selectIn N d previous.metadata.identity with
    | .error e => .error (.persist e)
    | .ok current => if current.selector ≠ previous.selector then .error (.persist (.control .stale)) else .ok ()
  let generation ← liftPersist (nextGeneration previous.metadata.generation)
  let snapshot ← publishSnapshot N draws generation body context
  let manifest : DataManifest :=
    ⟨successor previous generation, previous.context.segment, previous.context.previous, snapshot⟩
  let bytes ← liftControl (Control.encode N (Wire.dataManifest N) manifest dataMagic)
  let selector := CurrentSelector.fromManifest manifest.metadata (N.hash bytes)
  publishBytes N draws bytes selector false
  liftControl (DataManifest.decodeSelected N bytes selector previous.metadata.identity)

/-- The manifest of a rotation. -/
def rotatingManifest (previous : Selected) (generation : UInt64) (snapshot : SnapshotDescriptor)
    (boundary : Position) (segment : Digest) : RotatingManifest where
  metadata := successor previous generation
  snapshot := snapshot
  rotation :=
    { base := { boundary with segment := segment, offset := 0, digest := segment }
      snapshotBase := previous.base
      previous := ⟨previous.selector, boundary⟩ }

/-- `publish_rotation`: a snapshot, and a fresh segment behind it. -/
def publishRotation (previous : Selected) (body : Bytes) (context : SnapshotContext) :
    Prog Dir StreamError Selected := do
  observe fun d =>
    if Prune.maxArtifacts - 8 < d.size then .error (.persist (.control .tooLarge)) else .ok ()
  observe fun d =>
    match selectIn N d previous.metadata.identity with
    | .error e => .error (.persist e)
    | .ok current =>
      if current.selector ≠ previous.selector ∨ previous.checkpoint.isNone then
        .error (.persist (.control .stale))
      else Prune.verify N d previous (some context.boundary) true
  let generation ← liftPersist (nextGeneration previous.metadata.generation)
  let snapshot ← publishSnapshot N draws generation body context
  observe fun d =>
    match d.openRead previous.logFile with
    | .error e => .error (.persist e)
    | .ok file => if file.length ≠ context.boundary.offset.toNat then
        .error (.protocol "sealed end differs from synchronized boundary") else .ok ()
  Dir.sync persistIO
  let manifest := rotatingManifest previous generation snapshot context.boundary draws.segment
  let bytes ← liftControl (Control.encode N (Wire.rotatingManifest N) manifest rotatingMagic)
  let _ ← liftControl (RotatingManifest.decode N bytes)
  let selector := CurrentSelector.fromManifest manifest.metadata (N.hash bytes)
  let selected ← liftControl (RotatingManifest.decodeSelected N bytes selector previous.metadata.identity)
  Dir.createNew persistIO selected.logFile
  Dir.sync persistIO
  Dir.sync persistIO
  publishBytes N draws bytes selected.selector false
  pure selected

end Selene.Persist
