import Selene.Persist.Checkpoint

/-!
# The store and its single writer

The directory, the writer's log and the root it works on, with the operations of
`EmptyStoreControl` and `LogicalWal`: creation, commit, checkpoint, prune and reopen. The
writer's open file is the segment's entry in the directory, so a commit changes both.
-/

namespace Selene.Persist

open Octets Disk

variable (N : Native)

/-! ## Creation -/

def openOrCreate (n : Name) : Prog Dir StreamError Unit :=
  .atomic (.persist .io) fun d => .ok ((), if n ∈ d then d else d.insert n [])

/-- `validate_directory`: whether control artifacts are there, and nothing else. -/
def validateDirectory (d : Dir) : Except PersistError Bool :=
  let other := d.keys.filter fun n => n ≠ .lock ∧ n ≠ .manifestLock
  let allowed : Name → Bool
    | .current => true
    | .controlTemp _ => true
    | .manifest g => g ≠ 0
    | _ => false
  if other.all allowed then .ok (!other.isEmpty) else .error (.control .mixedArtifacts)

/-- `read_state`: the selected empty manifest. -/
def readState (d : Dir) (expected : CompatibilityIdentity) : Except PersistError CurrentSelector :=
  match validateDirectory d with
  | .error e => .error e
  | .ok _ =>
    match d.readBounded .current with
    | .error .notFound => .error (.control .notInitialized)
    | .error e => .error e
    | .ok bytes =>
      match CurrentSelector.decode N bytes with
      | .error e => .error (.control e)
      | .ok selector =>
        match d.readBounded selector.file with
        | .error .notFound => .error (.control .lineage)
        | .error e => .error e
        | .ok bytes =>
          if N.hash bytes ≠ selector.digest then .error (.control .checksum)
          else
            match checked (EmptyManifest.decode N bytes) (fun m => matchSelector m selector expected) with
            | .error e => .error (.control e)
            | .ok _ => .ok selector

def createEmpty (draws : Draws) (identity : CompatibilityIdentity) (storeId : StoreId) :
    Prog Dir StreamError (EmptyManifest × CurrentSelector) := do
  liftControl identity.validate
  let _ ← observe fun d => (match validateDirectory d with | .error e => .error (.persist e) | .ok b => .ok b)
  openOrCreate .lock
  openOrCreate .manifestLock
  observe fun d =>
    match validateDirectory d with
    | .error e => .error (.persist e)
    | .ok artifacts =>
      if Name.current ∈ d then .error (.persist (.control .alreadyInitialized))
      else if artifacts then .error (.persist (.control .unpublishedArtifacts))
      else .ok ()
  let manifest : EmptyManifest := ⟨storeId, 1, 1, (2, 0), identity, none⟩
  liftControl manifest.validate
  let bytes ← liftControl (Control.encode N (Wire.manifest N) manifest emptyMagic)
  let selector := CurrentSelector.fromManifest manifest (N.hash bytes)
  publishBytes N draws bytes selector true
  pure (manifest, selector)

/-- `LogicalWal::create`: the empty store becomes a plain log. -/
def createLog (draws : Draws) (control : EmptyManifest) (selector : CurrentSelector) :
    Prog Dir StreamError (LogicalWal × Selected) := do
  let selected ← observe fun d =>
    (match readState N d control.identity with | .error e => .error (.persist e) | .ok s => .ok s)
  if selected ≠ selector then Prog.throw (.persist (.control .stale))
  let generation ← liftPersist (nextGeneration control.generation)
  let manifest : LogicalManifest :=
    ⟨{ control with generation := generation, parent := some ⟨control.generation, selector.digest⟩ }, draws.segment⟩
  let bytes ← liftControl (Control.encode N (Wire.logicalManifest N) manifest logicalMagic)
  let selector := CurrentSelector.fromManifest manifest.metadata (N.hash bytes)
  Dir.createNew persistIO .firstLog
  Dir.sync persistIO
  Dir.sync persistIO
  publishBytes N draws bytes selector false
  let s := manifest.select selector
  pure (.fresh s.base none, s)

/-! ## Operations -/

structure Store where
  dir : Dir
  wal : LogicalWal
  selected : Selected

namespace Store

/-- Creation in an empty directory, when nothing fails. -/
def create (emptyDraws logDraws : Draws) (identity : CompatibilityIdentity) (storeId : StoreId) : Option Store :=
  let program : Prog Dir StreamError (LogicalWal × Selected) := do
    let (control, selector) ← createEmpty N emptyDraws identity storeId
    createLog N logDraws control selector
  match program ∅ [] with
  | (.done (wal, selected), d, _) => some ⟨d, wal, selected⟩
  | _ => none

/-- The writer's file is the segment's entry. -/
def withWal (st : Store) (w : LogicalWal) : Store :=
  { st with wal := w, dir := st.dir.modify st.selected.logFile fun _ => w.file.content }

/-- What `checkpoint` publishes, by the root it starts from. -/
def publish (draws : Draws) (st : Store) (body : Bytes) (publication : UInt64) : Prog Dir StreamError Selected :=
  let context : SnapshotContext := ⟨st.wal.progress.synchronized, publication⟩
  if st.selected.checkpoint.isSome then publishRotation N draws st.selected body context
  else publishCheckpoint N draws st.selected body context

/-- The writer on the root that was published. -/
def adopt (st : Store) (d : Dir) (selected : Selected) : Store :=
  if st.selected.checkpoint.isSome then
    let base := selected.base
    { dir := d
      selected := selected
      wal := ⟨.empty, { st.wal.progress with written := base, synchronized := base, published := some base }, false⟩ }
  else { st with dir := d, selected := selected }

/-- `LogicalWal::checkpoint`. `acquire` is the failure of the epoch lock, which comes before the
writer is fenced. -/
def checkpoint (draws : Draws) (acquire : Option PersistError) (st : Store) (body : Bytes) (publication : UInt64)
    (fs : List Fault) : Ending StreamError Selected × Store :=
  match st.wal.checkpointReady with
  | .error e => (.error e, st)
  | .ok () =>
    match acquire with
    | some e => (.error (.persist e), st)
    | none =>
      match publish N draws st body publication st.dir fs with
      | (.done selected, d, _) => (.done selected, st.adopt d selected)
      | (.error e, d, _) => (.error e, { st with dir := d, wal := { st.wal with fenced := true } })
      | (.crashed, d, _) => (.crashed, { st with dir := d, wal := { st.wal with fenced := true } })

/-- `LogicalWal::prune`. A process that dies in it leaves no writer behind. -/
def prune (acquire : Option PersistError) (leases : List Name) (st : Store) (fs : List Fault) :
    Ending StreamError PruneReport × Store :=
  if st.wal.fenced then (.error (.persist (.control .requiresReopen)), st)
  else
    match acquire with
    | some e => (.error (.persist e), st)
    | none =>
      match Prune.prune N leases st.selected st.dir fs with
      | (.done report, d, _) => (.done report, { st with dir := d })
      | (.error e, d, _) => (.error e, { st with dir := d })
      | (.crashed, d, _) => (.crashed, { st with dir := d, wal := { st.wal with fenced := true } })

end Store

end Selene.Persist
