import Selene.Persist.Recovery

/-!
# Pruning

`control/logical/prune.rs`: every manifest of the directory is a root. The selected root,
its predecessor and the leased roots keep what they depend on; what only other roots
depend on is unlinked, manifests last, so that an interrupted prune leaves the
descriptors that classify the rest. Selection, verification and plan come before the
first unlink.
-/

namespace Selene.Persist

open Octets Disk

inductive RetentionReason where
  | selected
  | history
  | reader
  | coordination
  | deferred

def RetentionReason.rank : RetentionReason → ℕ
  | selected => 0
  | history => 1
  | reader => 2
  | coordination => 3
  | deferred => 4

structure ArtifactBytes where
  name : Name
  bytes : ℕ

structure RetainedArtifact where
  artifact : ArtifactBytes
  reason : RetentionReason

structure PruneReport where
  removed : List ArtifactBytes
  retained : List RetainedArtifact
  cleanupError : Option StreamError

namespace Prune

variable (N : Native)

def maxArtifacts : ℕ := 4096

structure Root where
  generation : UInt64
  selected : Option Selected
  leased : Bool

def Root.file (r : Root) : Name := .manifest r.generation

def dependencies (s : Selected) : List Name :=
  s.manifestFile :: s.logFile :: (if s.checkpoint.isSome then [s.snapshotFile] else [])

/-- The metadata of any manifest, and whether it is an empty store's. -/
def decodeAny (bytes : Bytes) : Except ControlError (EmptyManifest × Bool) :=
  if bytes.take 4 = emptyMagic.val then (EmptyManifest.decode N bytes).map (·, true)
  else if bytes.take 4 = dataMagic.val then (DataManifest.decode N bytes).map (·.metadata, false)
  else if bytes.take 4 = rotatingMagic.val then (RotatingManifest.decode N bytes).map (·.metadata, false)
  else (LogicalManifest.decode N bytes).map (·.metadata, false)

variable (d : Dir)

def inspect (leases : List Name) (current : Selected) (generation : UInt64) :
    Except StreamError Root :=
  match d.readBounded (.manifest generation) with
  | .error e => .error (.persist e)
  | .ok bytes =>
    match decodeAny N bytes with
    | .error e => .error (.persist (.control e))
    | .ok (metadata, empty) =>
      if metadata.storeId ≠ current.metadata.storeId ∨ metadata.epoch ≠ current.metadata.epoch ∨
          metadata.identity ≠ current.metadata.identity ∨ metadata.generation ≠ generation then
        .error (.persist (.control .lineage))
      else
        let leased := decide (Name.manifest generation ∈ leases)
        if empty then .ok ⟨generation, none, leased⟩
        else
          match selectRoot N d (.fromManifest metadata (N.hash bytes)) current.metadata.identity with
          | .error e => .error (.persist e)
          | .ok s => .ok ⟨generation, some s, leased⟩

/-- Read a segment to its end, watching for the snapshot's boundary. -/
def scan (snapshot : Option Position) : ℕ → LogicalReader → Bool → Except StreamError (LogicalReader × Bool)
  | 0, _, _ => .error (.protocol "decoder made no progress")
  | fuel + 1, r, seen =>
    match r.nextBody N with
    | (_, .error e) => .error e
    | (r, .ok none) => .ok (r, seen)
    | (r, .ok (some _)) => scan snapshot fuel r (seen || decide (snapshot = some r.position))

def verifySnapshot (root : Selected) (required : Bool) : Except StreamError Unit :=
  if root.checkpoint.isNone then .ok ()
  else if root.snapshotFile ∈ d then (snapshotBody N d root Frame.maxPayload).map fun _ => ()
  else if required then .error (.protocol "required snapshot missing")
  else .ok ()

/-- The whole segment is read, the snapshot's boundary is in it, and it ends where it is sealed. -/
def verifySegment (root : Selected) (sealedEnd : Option Position) (file : Bytes) : Except StreamError Unit :=
  match LogicalReader.fromSelection file root.context root.logName Frame.maxPayload with
  | .error e => .error e
  | .ok r =>
    let boundary := root.checkpoint.map (·.boundary)
    match scan N boundary (file.length + 2) r
        (root.rotation.isSome || boundary.all fun p => decide (p = root.base)) with
    | .error e => .error e
    | .ok (r, seen) =>
      if r.incomplete ∨ ¬ seen ∨ sealedEnd.any fun p => decide (p ≠ r.position) then
        .error (.protocol "incomplete or mismatched required WAL boundary")
      else .ok ()

/-- `verify` when the segment is there. -/
def verifyLog (root : Selected) (sealedEnd : Option Position) (required : Bool) (file : Bytes) :
    Except StreamError Unit :=
  if sealedEnd.any fun p => decide (file.length ≠ p.offset.toNat) then .error (.protocol "sealed WAL length")
  else
    match d.openRead root.manifestFile with
    | .error e => .error (.artifact root.selector.manifestName none none (.persist e))
    | .ok _ =>
      match verifySnapshot N d root required with
      | .error e => .error e
      | .ok () => verifySegment N root sealedEnd file

/-- Verify what is there of a root; a required root must be complete. -/
def verify (root : Selected) (sealedEnd : Option Position) (required : Bool) :
    Except StreamError Unit :=
  match d[root.logFile]? with
  | some file => verifyLog N d root sealedEnd required file
  | none =>
    if required then .error (.protocol "required WAL missing")
    else if root.checkpoint.isSome ∧ root.snapshotFile ∈ d then
      match d.openRead root.manifestFile with
      | .error e => .error (.persist e)
      | .ok _ => (snapshotBody N d root Frame.maxPayload).map fun _ => ()
    else .ok ()

abbrev Kept := Std.ExtTreeMap Name RetentionReason Name.cmp

def retain (kept : Kept) (name : Name) (reason : RetentionReason) : Kept :=
  kept.alter name fun
    | none => some reason
    | some old => some (if reason.rank < old.rank then reason else old)

structure Plan where
  kept : Kept
  candidates : List Name

/-- Why a root is retained, if it is. -/
def reasonFor (current : Selected) (history : Option Selected) (root : Root) : Option RetentionReason :=
  if root.file = current.manifestFile then some .selected
  else if history.any fun p => decide (root.file = p.manifestFile) then some .history
  else if root.leased then some .reader
  else none

def planRoot (current : Selected) (history : Option Selected) (plan : Plan) (root : Root) :
    Except StreamError Plan :=
  let reason := reasonFor current history root
  match root.selected with
  | some s =>
    match verify N d s none reason.isSome with
    | .error e => .error e
    | .ok () =>
      .ok (match reason with
        | some reason => { plan with kept := (dependencies s).foldl (retain · · reason) plan.kept }
        | none => { plan with candidates := plan.candidates ++ dependencies s })
  | none =>
    .ok (match reason with
      | some reason => { plan with kept := retain plan.kept root.file reason }
      | none => { plan with candidates := plan.candidates ++ [root.file] })

/-- The root to keep for history: the sealed predecessor of a rotation, or the parent of a first
checkpoint when it has a checkpoint itself. -/
def historyOf (current : Selected) (roots : List Root) : Except StreamError (Option Selected) :=
  match current.rotation with
  | some rotation =>
    match selectRoot N d rotation.previous.selector current.metadata.identity with
    | .error e => .error (.persist e)
    | .ok previous =>
      if previous.base ≠ rotation.snapshotBase then .error (.persist (.control .lineage))
      else
        match verify N d previous (some rotation.previous.sealedEnd) true with
        | .error e => .error e
        | .ok () => .ok (some previous)
  | none =>
    match current.checkpoint, current.metadata.parent with
    | some _, some parent =>
      .ok ((roots.filterMap Root.selected).find? fun r =>
        r.metadata.generation = parent.generation ∧ r.selector.digest = parent.digest ∧ r.checkpoint.isSome)
    | _, _ => .ok none

/-- The generations of the manifests in the directory, in order. -/
def generations : List UInt64 :=
  d.keys.filterMap fun
    | .manifest g => some g
    | _ => none

/-- Everything `prune` decides before the first unlink. -/
def plan (leases : List Name) (expected : Selected) : Except StreamError (Plan × Selected) :=
  if maxArtifacts < d.size then .error (.persist (.control .tooLarge))
  else
    match selectIn N d expected.metadata.identity with
    | .error e => .error (.persist e)
    | .ok current =>
      if current.selector ≠ expected.selector then .error (.persist (.control .stale))
      else
        match (generations d).mapM (inspect N d leases current) with
        | .error e => .error e
        | .ok roots =>
          match historyOf N d current roots with
          | .error e => .error e
          | .ok history =>
            match verify N d current none true with
            | .error e => .error e
            | .ok () =>
              match roots.foldlM (planRoot N d current history) ⟨∅, []⟩ with
              | .error e => .error e
              | .ok p =>
                let kept := retain p.kept .current .selected
                let kept := retain (retain kept .lock .coordination) .manifestLock .coordination
                .ok (⟨kept, p.candidates⟩, current)

def isManifest : Name → Bool
  | .manifest _ => true
  | _ => false

def obsolete (p : Plan) : List ArtifactBytes :=
  (d.toList.filter fun (n, _) => n ∉ p.kept ∧ n ∈ p.candidates).map fun (n, b) => ⟨n, b.length⟩

/-- The artifacts to unlink, dependencies first. -/
def pending (p : Plan) : List ArtifactBytes :=
  (obsolete d p).filter (fun a => !isManifest a.name) ++ (obsolete d p).filter (fun a => isManifest a.name)

/-- The entries that stay, with their reasons. -/
def retained (p : Plan) : List RetainedArtifact :=
  d.toList.filterMap fun (n, b) =>
    match p.kept[n]? with
    | some reason => some ⟨⟨n, b.length⟩, reason⟩
    | none => if n ∈ p.candidates then none else some ⟨⟨n, b.length⟩, .deferred⟩

/-- Synchronize the files the selection rests on, and the directory. -/
def establish : List Name → Prog Dir StreamError Unit
  | [] => Dir.sync .persist
  | n :: names => do
    Prog.look (.persist .io) fun d => match d.openRead n with
      | .error e => .error (.persist e)
      | .ok _ => .ok ()
    Dir.sync .persist
    establish names

/-- The unlink loop; after the first failure the rest is deferred. -/
def unlink : List ArtifactBytes → PruneReport → Prog Dir StreamError PruneReport
  | [], report => pure report
  | a :: rest, report =>
    match report.cleanupError with
    | some _ => unlink rest { report with retained := report.retained ++ [⟨a, .deferred⟩] }
    | none => do
      match ← Prog.attempt (do Dir.remove .persist a.name; Dir.sync .persist) with
      | .ok () => unlink rest { report with removed := report.removed ++ [a] }
      | .error e =>
        unlink rest { report with
          cleanupError := some e
          retained := report.retained ++ [⟨a, .deferred⟩] }

def prune (leases : List Name) (expected : Selected) : Prog Dir StreamError PruneReport := do
  let (current, todo, kept) ← Prog.look (.persist .io) fun d =>
    (plan N d leases expected).map fun (p, current) => (current, pending d p, retained d p)
  establish (dependencies current ++ [.current])
  unlink todo ⟨[], kept, none⟩

end Prune

end Selene.Persist
