import Selene.Persist.Root

/-!
# Recovery of a selected root

`logical_stream/reader_snapshot.rs`, `recovery.rs` and `reopen.rs`: the selected snapshot
is loaded, the segment is verified from its declared base, and the bodies behind the
snapshot's boundary are handed to the caller. A writer takes over at the end of the
segment, and only when the segment ends where the reader does.
-/

namespace Selene.Persist

open Octets Disk

variable (N : Native)

def readSnapshot (d : Dir) (s : Selected) (limit : ℕ) : Except StreamError Bytes :=
  match s.checkpoint with
  | none => .error .missingSnapshot
  | some c =>
    match d.openRead s.snapshotFile with
    | .error e => .error (.persist e)
    | .ok file =>
      if file.length < c.bytes.toNat then .error (.frame .corruptIncomplete)
      else if c.bytes.toNat < file.length then .error (.frame (.invalid "snapshot descriptor length"))
      else if file.length < Snapshot.headerLen then .error .io
      else
        match Snapshot.requiredLength N (file.take Snapshot.headerLen) ⟨c.boundary, c.publication⟩ limit with
        | .error e => .error (.frame e)
        | .ok length =>
          if length ≠ c.bytes.toNat then .error (.frame (.invalid "snapshot declared length"))
          else
            match Snapshot.decode N (file.take length) ⟨c.boundary, c.publication⟩ c.digest limit with
            | .error e => .error (.frame e)
            | .ok body => .ok body

/-- `snapshot_body`: the error names the file. -/
def snapshotBody (d : Dir) (s : Selected) (limit : ℕ) : Except StreamError Bytes :=
  match readSnapshot N d s limit, s.checkpoint with
  | .error e, some c => .error (.artifact c.name (some 0) (some c.boundary.sequence) e)
  | r, _ => r

/-- `LogicalReader::open`. -/
def openReader (d : Dir) (expected : CompatibilityIdentity) (limit : ℕ) :
    Except StreamError (LogicalReader × Selected) :=
  if Frame.maxPayload < limit then .error (.frame .limit)
  else if Name.manifestLock ∉ d then .error (.persist .notFound)
  else
    match selectIn N d expected with
    | .error e => .error (.persist e)
    | .ok s =>
      match d.openRead s.logFile, d.openRead s.manifestFile with
      | .ok file, .ok _ => (LogicalReader.fromSelection file s.context s.logName limit).map (·, s)
      | _, _ => .error (.persist .notFound)

structure RecoveryReader where
  reader : LogicalReader
  selected : Selected
  snapshot : SnapshotDescriptor
  boundarySeen : Bool
  complete : Bool
  failed : Bool
  prefixRecords : ℕ
  suffixRecords : ℕ
deriving DecidableEq

namespace RecoveryReader

def checkInitialized (d : Dir) : Except StreamError Unit :=
  if Name.current ∉ d then
    if d.keys.all fun n => n = .lock ∨ n = .manifestLock then .error (.persist (.control .notInitialized))
    else .error (.persist (.control .mixedArtifacts))
  else if Name.lock ∉ d ∨ Name.manifestLock ∉ d then .error (.persist (.control .notInitialized))
  else .ok ()

def fromReader (r : LogicalReader) (s : Selected) : Except StreamError RecoveryReader :=
  match s.checkpoint with
  | none => .error (.artifact s.selector.manifestName none none .missingSnapshot)
  | some c => .ok {
      reader := r
      selected := s
      snapshot := c
      boundarySeen := decide (c.boundary = r.position) || s.rotation.isSome
      complete := false
      failed := false
      prefixRecords := 0
      suffixRecords := 0 }

/-- `RecoveryReader::open`. -/
def openIn (d : Dir) (expected : CompatibilityIdentity) (limit : ℕ) : Except StreamError RecoveryReader :=
  match checkInitialized d with
  | .error e => .error e
  | .ok () =>
    match openReader N d expected limit with
    | .error e => .error e
    | .ok (r, s) => fromReader r s

/-- The end of the segment: it must be clean, and behind the boundary. -/
def finishSegment (r : RecoveryReader) : RecoveryReader × Except StreamError (Option Bytes) :=
  let boundary := r.snapshot.boundary
  let position := r.reader.position
  let located := StreamError.artifact r.reader.logName (some position.offset) (checkedAdd position.sequence 1)
  if r.reader.incomplete then
    (r, .error (located (if r.boundarySeen then .incompleteTail else .frame .corruptIncomplete)))
  else if ¬ r.boundarySeen then
    (r, .error (located (.frame (if position.sequence < boundary.sequence ∧ position.offset < boundary.offset
      then .corruptIncomplete else .snapshotBoundary))))
  else ({ r with complete := true }, .ok none)

/-- The loop of `next_checked`: it skips what the snapshot covers. Every round reads a record, so
the bytes left bound the rounds. -/
def nextLoop : ℕ → RecoveryReader → RecoveryReader × Except StreamError (Option Bytes)
  | 0, r => (r, .error (.protocol "decoder made no progress"))
  | fuel + 1, r =>
    match r.reader.nextBody N with
    | (reader, .error e) => ({ r with reader := reader }, .error e)
    | (reader, .ok none) => finishSegment { r with reader := reader }
    | (reader, .ok (some body)) =>
      let boundary := r.snapshot.boundary
      let position := reader.position
      let outside := StreamError.artifact reader.logName (some position.offset) (some boundary.sequence)
        (.frame .snapshotBoundary)
      if position.sequence ≤ boundary.sequence then
        let r := { r with reader := reader, prefixRecords := r.prefixRecords + 1 }
        if position.sequence = boundary.sequence then
          if position ≠ boundary then (r, .error outside)
          else nextLoop fuel { r with boundarySeen := true }
        else nextLoop fuel r
      else if ¬ r.boundarySeen then ({ r with reader := reader }, .error outside)
      else ({ r with reader := reader, suffixRecords := r.suffixRecords + 1 }, .ok (some body))

def nextChecked (r : RecoveryReader) : RecoveryReader × Except StreamError (Option Bytes) :=
  if r.complete then (r, .ok none) else nextLoop N (r.reader.rest.length + 2) r

def nextBody (r : RecoveryReader) : RecoveryReader × Except StreamError (Option Bytes) :=
  if r.failed then (r, .error .terminated)
  else
    match nextChecked N r with
    | (r, .ok body) => (r, .ok body)
    | (r, .error e) => ({ r with failed := true }, .error e)

/-- `finish`; `snapshotRead` is the flag a successful `snapshot_body` sets. -/
def finish (r : RecoveryReader) (snapshotRead : Bool) : Except StreamError Unit :=
  if r.failed ∨ ¬ r.complete ∨ ¬ snapshotRead then .error (.protocol "reopen consumption incomplete")
  else .ok ()

/-- The answers of `n` successive calls of `next_body`, and the reader after them. -/
def reads : ℕ → RecoveryReader → List (Except StreamError (Option Bytes)) × RecoveryReader
  | 0, r => ([], r)
  | n + 1, r => ((nextBody N r).2 :: (reads n (nextBody N r).1).1, (reads n (nextBody N r).1).2)

/-- Call `next_body` until it returns `None`. -/
def drain : ℕ → RecoveryReader → Except StreamError (RecoveryReader × List Bytes)
  | 0, _ => .error (.protocol "decoder made no progress")
  | fuel + 1, r =>
    match nextBody N r with
    | (_, .error e) => .error e
    | (r, .ok none) => .ok (r, [])
    | (r, .ok (some body)) => (drain fuel r).map fun (r, bodies) => (r, body :: bodies)

end RecoveryReader

/-- What a reopen hands to its caller, and the writer it establishes. -/
structure Reopened where
  selected : Selected
  image : Bytes
  suffix : List Bytes
  wal : LogicalWal

/-- `ReopeningWal::open`, `snapshot_body`, `next_body` to the end, and `finish`. -/
def reopen (d : Dir) (expected : CompatibilityIdentity) (limit : ℕ) : Except StreamError Reopened :=
  match RecoveryReader.openIn N d expected limit with
  | .error e => .error e
  | .ok r =>
    let s := r.selected
    match snapshotBody N d s limit with
    | .error e => .error e
    | .ok image =>
      match r.drain N (r.reader.rest.length + 2) with
      | .error e => .error e
      | .ok (r, suffix) =>
        let p := r.reader.position
        match d.openRead s.logFile with
        | .error e => .error (.persist e)
        | .ok file =>
          if file.length ≠ p.offset.toNat then
            .error (.artifact s.logName (some p.offset) (some p.sequence)
              (.protocol "WAL changed during reopen"))
          else .ok ⟨s, image, suffix, ⟨⟨file, p.offset.toNat, file⟩, ⟨p, p, some p, none⟩, false⟩⟩

end Selene.Persist
