import Selene.Persist.Frame
import Selene.Base.File
import Selene.Base.Transition

/-!
# The log writer

`logical_stream.rs`: `LogicalWal::prepare` frames a group of bodies against the
synchronized position; `LogicalWal::commit` appends, synchronizes, publishes and
acknowledges it, or rolls it back. Every step that can fail is answered by a
`CommitEnv`: callbacks may panic, a write may stop after any number of bytes.
-/

namespace Selene.Persist

open Octets

structure Position where
  store : StoreId
  epoch : UInt64
  segment : Digest
  sequence : UInt64
  offset : UInt64
  digest : Digest
deriving DecidableEq

structure Progress where
  written : Position
  synchronized : Position
  published : Option Position
  acknowledged : Option Position
deriving DecidableEq

inductive CommitPhase where
  | prepare
  | append
  | synchronize
  | publish
  | acknowledge
deriving DecidableEq

inductive Durability where
  | canceled
  | uncertain
  | committed
deriving DecidableEq

inductive ControlError where
  | notInitialized
  | alreadyInitialized
  | unpublishedArtifacts
  | mixedArtifacts
  | tooLarge
  | envelope (what : String)
  | unsupportedVersion
  | checksum
  | lineage
  | compatibility
  | stale
  | generationExhausted
  | publicationUncertain
  | requiresReopen
deriving DecidableEq

/-- `PersistError`. Of an I/O error the code reads only whether the name was missing or taken;
the artifact name an error may be wrapped in is a diagnostic. -/
inductive PersistError where
  | directory
  | control (e : ControlError)
  | notFound
  | alreadyExists
  | io
deriving DecidableEq

inductive StreamError where
  | artifact (name : String) (offset expectedSequence : Option UInt64) (source : StreamError)
  | missingSnapshot
  | incompleteTail
  | terminated
  | persist (e : PersistError)
  | io
  | frame (e : FrameError)
  | protocol (what : String)
  | panicked
  | preparation
deriving DecidableEq

structure CommitFailure where
  phase : CommitPhase
  durability : Durability
  progress : Progress
  candidate : Option Position
  source : StreamError
  cleanup : Option StreamError
deriving DecidableEq

def maxGroup : ℕ := 32

/-- The last 32 bytes of a frame, which `next.digest.copy_from_slice` takes. -/
def tailDigest (bytes : Bytes) : Digest :=
  if h : (bytes.drop (bytes.length - 32)).length = 32 then ⟨_, h⟩ else zeroDigest

/-- The position after one more record; `none` when a counter is exhausted. -/
def Position.after (p : Position) (bytes : Bytes) : Option Position :=
  (checkedAdd p.sequence 1).bind fun sequence =>
    (checkedAdd p.offset bytes.length).map fun offset =>
      { p with sequence := sequence, offset := offset, digest := tailDigest bytes }

/-- Encoded frames, each with the position after it. -/
abbrev Frames := List (Bytes × Position)

/-- Each frame's position follows from the one before it. -/
def Chained : Position → Frames → Prop
  | _, [] => True
  | base, (bytes, p) :: frames => base.after bytes = some p ∧ Chained p frames

/-- `PreparedGroup`: nonempty, and its positions chain from the base. -/
structure PreparedGroup where
  base : Position
  frames : Frames
  nonempty : frames ≠ []
  chained : Chained base frames
deriving DecidableEq

namespace PreparedGroup

/-- The bytes a complete append writes. -/
def bytes (g : PreparedGroup) : Bytes := (g.frames.map Prod.fst).flatten

/-- The position of the last record. -/
def candidate (g : PreparedGroup) : Position := (g.frames.getLast g.nonempty).2

end PreparedGroup

structure LogicalWal where
  file : File
  progress : Progress
  fenced : Bool

namespace LogicalWal

/-- A writer on a new, empty segment: `LogicalWal::create`, and the handle a rotation swaps in
(which reports its base as published). -/
def fresh (base : Position) (published : Option Position) : LogicalWal where
  file := .empty
  progress := ⟨base, base, published, none⟩
  fenced := false

variable (N : Native)

/-- The loop of `prepare`: encode every body in the context its predecessor leaves. -/
def prepareFrames (compression : Compression) (limit : ℕ) :
    Position → ℕ → List Bytes → Except StreamError Frames
  | _, _, [] => .ok []
  | next, total, body :: bodies =>
    match checkedAdd next.sequence 1 with
    | none => .error (.protocol "sequence exhausted")
    | some sequence =>
      match Frame.encode N body ⟨next.store, next.epoch, sequence, next.segment, next.digest⟩
          compression limit with
      | .error e => .error (.frame e)
      | .ok bytes =>
        if Frame.maxPayload + maxGroup * Frame.frameOverhead < total + bytes.length then
          .error (.frame .limit)
        else
          match next.after bytes with
          | none => .error (.frame .limit)
          | some p =>
            match prepareFrames compression limit p (total + bytes.length) bodies with
            | .error e => .error e
            | .ok frames => .ok ((bytes, p) :: frames)

theorem prepareFrames_cons {compression : Compression} {limit total : ℕ} {next : Position} {body : Bytes}
    {bodies : List Bytes} {frames : Frames}
    (h : prepareFrames N compression limit next total (body :: bodies) = .ok frames) :
    ∃ sequence bytes p rest, frames = (bytes, p) :: rest ∧ checkedAdd next.sequence 1 = some sequence ∧
      Frame.encode N body ⟨next.store, next.epoch, sequence, next.segment, next.digest⟩ compression limit
        = .ok bytes ∧
      next.after bytes = some p ∧
      prepareFrames N compression limit p (total + bytes.length) bodies = .ok rest := by
  rw [prepareFrames] at h
  split at h
  · cases h
  split at h
  · cases h
  split at h
  · cases h
  split at h
  · cases h
  split at h
  · cases h
  cases h
  exact ⟨_, _, _, _, rfl, ‹_›, ‹_›, ‹_›, ‹_›⟩

theorem prepareFrames_length {compression : Compression} {limit : ℕ} {bodies : List Bytes} :
    ∀ {next : Position} {total : ℕ} {frames : Frames},
      prepareFrames N compression limit next total bodies = .ok frames → frames.length = bodies.length := by
  induction bodies with
  | nil => intro next total frames h; cases h; rfl
  | cons body bodies ih =>
    intro next total frames h
    obtain ⟨_, _, _, rest, rfl, -, -, -, hrest⟩ := prepareFrames_cons N h
    simp [ih hrest]

theorem prepareFrames_chained {compression : Compression} {limit : ℕ} {bodies : List Bytes} :
    ∀ {next : Position} {total : ℕ} {frames : Frames},
      prepareFrames N compression limit next total bodies = .ok frames → Chained next frames := by
  induction bodies with
  | nil => intro next total frames h; cases h; trivial
  | cons body bodies ih =>
    intro next total frames h
    obtain ⟨_, _, _, rest, rfl, -, -, hp, hrest⟩ := prepareFrames_cons N h
    exact ⟨hp, ih hrest⟩

def prepare (w : LogicalWal) (bodies : List Bytes) (compression : Compression) (limit : ℕ) :
    Except StreamError PreparedGroup :=
  if w.fenced then .error (.protocol "writer fenced; reconcile before reopen")
  else if hb : bodies = [] ∨ maxGroup < bodies.length then .error (.protocol "group size")
  else
    match h : prepareFrames N compression limit w.progress.synchronized 0 bodies with
    | .error e => .error e
    | .ok frames =>
      .ok {
        base := w.progress.synchronized
        frames := frames
        nonempty := fun hf => hb (.inl (List.length_eq_zero_iff.1
          ((prepareFrames_length N h).symm.trans (by rw [hf]; rfl))))
        chained := prepareFrames_chained N h }

/-! ## Commit -/

/-- The answer of a caller's `canceled` callback. -/
inductive Canceled where
  | no
  | yes
  | panics

/-- The caller's publication callback: whether it reports the outer store, and how it ends
(`none` is a panic). -/
structure Publish where
  marks : Bool
  result : Option (Except StreamError Unit)

/-- The answers of everything `commit` calls. -/
structure CommitEnv where
  beforeAppend : Canceled
  acquire : Option PersistError
  append : ℕ → Option ℕ
  sync : Bool
  afterSync : Canceled
  publish : Publish
  afterPublish : Canceled
  setLen : Bool
  seek : Bool
  cleanupSync : Bool

/-- The state `catch_unwind` leaves behind. A panic is the error `Panicked`. -/
structure Attempt where
  wal : LogicalWal
  phase : CommitPhase
  synchronized : Bool
  result : Except StreamError Unit

variable (env : CommitEnv) (w : LogicalWal)

def acknowledgeStage (candidate : Position) : Attempt :=
  match env.afterPublish with
  | .panics => ⟨w, .acknowledge, true, .error .panicked⟩
  | .yes => ⟨w, .acknowledge, true, .error (.protocol "canceled after publication")⟩
  | .no =>
    ⟨{ w with progress := { w.progress with acknowledged := some candidate }, fenced := false },
      .acknowledge, true, .ok ()⟩

def publishStage (candidate : Position) : Attempt :=
  match env.afterSync with
  | .panics => ⟨w, .publish, true, .error .panicked⟩
  | .yes => ⟨w, .publish, true, .error (.protocol "canceled after synchronization")⟩
  | .no =>
    let w := if env.publish.marks then
        { w with progress := { w.progress with published := some candidate } } else w
    match env.publish.result with
    | none => ⟨w, .publish, true, .error .panicked⟩
    | some (.error e) => ⟨w, .publish, true, .error e⟩
    | some (.ok ()) =>
      if w.progress.published ≠ some candidate then
        ⟨w, .publish, true, .error (.protocol "outer state not published")⟩
      else acknowledgeStage env w candidate

def synchronizeStage (candidate : Position) : Attempt :=
  if env.sync then
    publishStage env
      { w with file := w.file.sync, progress := { w.progress with synchronized := candidate } } candidate
  else ⟨w, .synchronize, false, .error .io⟩

/-- The append loop; the flag says whether every frame was written. -/
def appendFrames (w : LogicalWal) : ℕ → Frames → LogicalWal × Bool
  | _, [] => (w, true)
  | index, (bytes, position) :: frames =>
    match w.file.writeAll bytes (env.append index) with
    | (file, false) => ({ w with file := file }, false)
    | (file, true) =>
      appendFrames { w with file := file, progress := { w.progress with written := position } }
        (index + 1) frames

/-- The closure `commit` runs under `catch_unwind`. -/
def attempt (g : PreparedGroup) : Attempt :=
  if w.fenced ∨ g.base ≠ w.progress.synchronized then
    ⟨w, .prepare, false, .error (.protocol "fenced or stale prepared group")⟩
  else
    match env.beforeAppend with
    | .panics => ⟨w, .prepare, false, .error .panicked⟩
    | .yes => ⟨w, .prepare, false, .error (.protocol "canceled before append")⟩
    | .no =>
      match env.acquire with
      | some e => ⟨w, .prepare, false, .error (.persist e)⟩
      | none =>
        match appendFrames env { w with fenced := true } 0 g.frames with
        | (w, false) => ⟨w, .append, false, .error .io⟩
        | (w, true) => synchronizeStage env w g.candidate

def rollback (boundary : Position) : LogicalWal × Option StreamError :=
  if boundary ≠ w.progress.synchronized then
    (w, some (.protocol "rollback boundary is not the synchronized prefix"))
  else if env.setLen then
    let w := { w with file := w.file.setLen boundary.offset.toNat }
    if env.seek then
      let w := { w with file := w.file.seek boundary.offset.toNat }
      if env.cleanupSync then
        ({ w with file := w.file.sync, progress := { w.progress with written := boundary } }, none)
      else (w, some .io)
    else (w, some .io)
  else (w, some .io)

/-- The classification of a failed attempt. -/
def settle (a : Attempt) (g : PreparedGroup) (source : StreamError) : LogicalWal × CommitFailure :=
  let phase := if a.synchronized ∧ a.wal.progress.published = some g.candidate then .acknowledge
    else a.phase
  let (wal, durability, cleanup) :=
    if a.synchronized then (a.wal, .committed, none)
    else if phase = .prepare then (a.wal, .canceled, none)
    else
      match rollback env a.wal g.base with
      | (w, none) => (w, .canceled, none)
      | (w, some e) => (w, .uncertain, some e)
  (wal, { phase, durability, progress := wal.progress, source, cleanup
          candidate := if phase ≠ .prepare then some g.candidate else none })

def commit (g : PreparedGroup) : LogicalWal × Except CommitFailure Position :=
  let a := attempt env w g
  match a.result with
  | .ok () => (a.wal, .ok g.candidate)
  | .error source => ((settle env a g source).1, .error (settle env a g source).2)

/-- The guard at the head of `LogicalWal::checkpoint`. -/
def checkpointReady : Except StreamError Unit :=
  if w.fenced ∨ w.progress.written ≠ w.progress.synchronized ∨
      (w.progress.synchronized.sequence ≠ 0 ∧ w.progress.published ≠ some w.progress.synchronized) then
    .error (.protocol "checkpoint requires an established live boundary")
  else .ok ()

end LogicalWal

end Selene.Persist
