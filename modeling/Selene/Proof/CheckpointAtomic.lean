import Selene.Proof.StoreRun

/-!
# Checkpoints are crash-atomic

A checkpoint leaves the old root or the complete new one (`checkpoint_atomic`): the image of the
selected one stands for the bodies up to its boundary, the suffix is the bodies behind it.

The record numbered `u64::MAX` is the exception: the writer commits it and no reader
returns it, so neither root recovers (`last_record_not_recovered`).
-/

namespace Selene.Persist

open Octets Disk Transition

variable {N : Native} {t : Traced} {s : Selected} {frames inflight : Frames} {cut k : ℕ}

/-- What recovery gives back. Without a checkpoint the log reader returns every body. With one, a
reopen returns the image, which stands for the first `n` bodies, and the bodies behind it, and
establishes a writer behind the last one. -/
def Recovered (N : Native) (d : Dir) (identity : CompatibilityIdentity) (log : List Bytes) :
    Option (Bytes × ℕ) → Prop
  | none => ∃ r s, openReader N d identity defaultLimit = .ok (r, s) ∧ s.checkpoint = none ∧
      s.context.sequence = 1 ∧ LogicalReader.Recovers N r log false
  | some (image, n) => ∃ r c, reopen N d identity defaultLimit = .ok r ∧ r.selected.checkpoint = some c ∧
      c.boundary.sequence.toNat = n ∧ n ≤ log.length ∧ r.image = image ∧ r.suffix = log.drop n ∧
      r.wal.progress.synchronized.sequence.toNat = log.length

theorem Good.recovered (hN : N.Lawful) (h : Good N t s frames inflight cut k) (hf : t.inflight = []) :
    Recovered N t.store.dir t.identity t.log t.image := by
  have hsel := h.rooted.selectIn
  rw [← h.identity] at hsel
  have hint := h.intact hf
  rcases h.covered with ⟨hnone, hi, -⟩ | ⟨c, image, -, hc, hi, hb, -⟩ <;> rw [hi] at hint ⊢
  · have hrot := h.sourced.plain hnone
    have hone := h.sourced.first hrot
    have h0 : s.base.sequence.toNat = 0 := by
      show (s.context.sequence - 1).toNat = 0
      rw [hone]; rfl
    rw [h0, List.drop_zero] at hint
    obtain ⟨r, hr, hrec⟩ := hint.recovers hN hsel h.rooted.manifestLock h.rooted.manifest_mem
    exact ⟨r, s, hr, hnone, hone, hrec⟩
  · have hr := hint.reopen hN hsel h.rooted.current_mem h.rooted.lock h.rooted.manifestLock h.rooted.manifest_mem
    refine ⟨_, c, hr, hc, ?_, h.boundary_le, rfl, ?_, h.end_sequence⟩
    · unfold BoundaryAt at hb
      split at hb
      · rw [hb.1, hb.2]; rfl
      · obtain ⟨hcov, -⟩ := h.framed.split k
        rw [hb.2, hcov.end_sequence, ← hcov.length, List.length_take, min_eq_left hb.1]
    · rw [List.drop_drop]

variable {d e : Dir} {draws : Draws} {body : Bytes} {c : SnapshotContext}

theorem Rotated.accepted {generation : UInt64} {file bytes : Bytes} {s' : Selected}
    (h : Rotated N draws s c generation file bytes s') : ∃ m, RotatingManifest.decode N bytes = .ok m :=
  ⟨_, checked_of (Control.decode_encode h.encoded).1 h.valid⟩

/-- A manifest in `d` is an old one, or the rotation decoder accepts it. -/
def Accepts (N : Native) (e d : Dir) : Prop :=
  ∀ g b, d[Name.manifest g]? = some b → e[Name.manifest g]? = some b ∨ ∃ m, RotatingManifest.decode N b = .ok m

theorem accepts_self : Accepts N e e := fun _ _ h => .inl h

section

variable {e' : Dir} (h : Accepts N e e')
include h

theorem Accepts.upto (hup : Upto e' d) : Accepts N e d :=
  fun g b hb => h g b (by rw [← hup _ rfl]; exact hb)

theorem Accepts.insert {n : Name} {b : Bytes}
    (hn : (∀ g, n ≠ .manifest g) ∨ ∃ m, RotatingManifest.decode N b = .ok m) : Accepts N e (e'.insert n b) := by
  intro g b' hb'
  by_cases hg : n = .manifest g
  · subst hg
    rw [getElem?_insert_self] at hb'
    cases hb'
    exact hn.elim (fun hn => absurd rfl (hn g)) .inr
  · rw [getElem?_insert_ne _ _ hg] at hb'
    exact h g b' hb'

theorem Accepts.publishing {bytes : Bytes} {selector : CurrentSelector}
    (hm : ∃ m, RotatingManifest.decode N bytes = .ok m) (hp : Publishing N e' bytes selector d) : Accepts N e d := by
  rcases hp with (hup | ⟨-, hup⟩) | ⟨current, -, -, hup⟩
  · exact h.upto hup
  · exact (h.insert (.inr hm)).upto hup
  · exact ((h.insert (.inr hm)).insert (.inl (by simp))).upto hup

end

theorem accepts_base (generation : UInt64) (file : Bytes) (s' : Selected) : Accepts N e (rotationBase e generation file s') :=
  (accepts_self.insert (.inl (by simp))).insert
    (.inl fun g => (logFile_ne s' (.manifest g)).symm)

/-- **Every manifest a rotation writes is accepted by the rotation decoder.** -/
theorem Rotating.accepts (h : Rotating draws s body c N e d) : Accepts N e d := by
  cases h with
  | before hup => exact accepts_self.upto hup
  | snapped _ hs => exact Accepts.upto (accepts_self.insert (.inl (by simp))) hs.2.2
  | publishing root _ _ _ hp => exact (accepts_base _ _ _).publishing root.accepted hp

theorem RotationDone.accepts {s' : Selected} (h : RotationDone draws s body c N e s' d) : Accepts N e d := by
  obtain ⟨_, _, _, root, _, _, _, hp⟩ := h
  exact (accepts_base _ _ _).publishing root.accepted (.inr hp)

theorem Good.accepts (h : Good N t s frames inflight cut k) (hlater : s.checkpoint.isSome) (draws : Draws)
    (acquire : Option PersistError) (body : Bytes) (publication : UInt64) (fs : List Fault) :
    Accepts N t.store.dir (t.store.checkpoint N draws acquire body publication fs).2.dir := by
  have hself : Accepts N t.store.dir t.store.dir := accepts_self
  unfold Store.checkpoint
  split
  · exact hself
  rename_i hready
  split
  · exact hself
  obtain ⟨hsel, -, -⟩ := h.live (checkpointReady_live hready)
  unfold Store.publish
  rw [hsel, if_pos hlater]
  have hspec := spec_publishRotation (N := N) draws s body ⟨t.store.wal.progress.synchronized, publication⟩ t.store.dir
    t.store.dir fs (Upto.refl _)
  rcases hr : publishRotation N draws s body ⟨t.store.wal.progress.synchronized, publication⟩ t.store.dir fs with
    ⟨s' | e | _, d, fs'⟩ <;> rw [hr] at hspec
  · have hadopt : (t.store.adopt d s').dir = d := by unfold Store.adopt; split <;> rfl
    simp only [hadopt]
    exact RotationDone.accepts hspec
  · exact Rotating.accepts hspec
  · exact Rotating.accepts hspec

theorem Good.refused (h : Good N t s frames inflight cut k) (hf : t.inflight ≠ []) (draws : Draws)
    (acquire : Option PersistError) (body : Bytes) (publication : UInt64) (fs : List Fault) :
    (t.store.checkpoint N draws acquire body publication fs).2 = t.store := by
  unfold Store.checkpoint
  split
  · rfl
  rename_i hready
  exact absurd (h.live (checkpointReady_live hready)).2.1 hf

/-- **A checkpoint is crash-atomic.** In every run that numbers no record `u64::MAX`, whatever
fails in a checkpoint and wherever the process dies in it: the directory selects the old root,
or it selects the complete new root, whose numbering goes on where the old segment ends, and a
checkpoint that returns has selected the new one. Either way the same history is recovered, the
old image with the bodies behind it or the new image alone. Behind a group whose rollback failed
the checkpoint is refused and changes nothing. Every manifest that a rotation writes is accepted
by the rotation decoder. -/
theorem checkpoint_atomic (hN : N.Lawful) (hZ : N.NoZero) {emptyDraws logDraws : Draws}
    {identity : CompatibilityIdentity} {storeId : StoreId} {st : Store} (hv4 : storeId.isV4 = true)
    (hseg : logDraws.segment ≠ zeroDigest)
    (hcreate : Store.create N emptyDraws logDraws identity storeId = some st) {as : List Action} {t : Traced}
    (hrun : run (Traced.stepBelow N) (.initial st) as = some t) (draws : Draws) (acquire : Option PersistError)
    (body : Bytes) (publication : UInt64) (fs : List Fault) :
    ∃ s, selectIn N t.store.dir t.identity = .ok s ∧
      ((selectIn N (t.store.checkpoint N draws acquire body publication fs).2.dir t.identity = .ok s ∧
          (∀ r, (t.store.checkpoint N draws acquire body publication fs).1 ≠ .done r) ∧
          (t.inflight = [] → Recovered N (t.store.checkpoint N draws acquire body publication fs).2.dir t.identity
            t.log t.image)) ∨
        ∃ s', selectIn N (t.store.checkpoint N draws acquire body publication fs).2.dir t.identity = .ok s' ∧
          (∀ r, (t.store.checkpoint N draws acquire body publication fs).1 = .done r → r = s') ∧ NewRoot s s' t.log ∧
          Recovered N (t.store.checkpoint N draws acquire body publication fs).2.dir t.identity t.log
            (some (body, t.log.length))) ∧
      (t.inflight ≠ [] → (t.store.checkpoint N draws acquire body publication fs).2 = t.store) ∧
      (s.checkpoint.isSome → Accepts N t.store.dir (t.store.checkpoint N draws acquire body publication fs).2.dir) := by
  obtain ⟨s, frames, inflight, cut, k, hg⟩ := run_held hN hrun ⟨_, _, _, _, _, good_initial hZ hv4 hseg hcreate⟩
  have hsel : selectIn N t.store.dir t.identity = .ok s := by rw [hg.identity]; exact hg.rooted.selectIn
  refine ⟨s, hsel, ?_, fun hf => hg.refused hf draws acquire body publication fs,
    fun hl => hg.accepts hl draws acquire body publication fs⟩
  cases hg.checkpoint draws acquire body publication fs with
  | old hg' himage hfail =>
    refine .inl ⟨?_, hfail, fun hf => ?_⟩
    · have := hg'.rooted.selectIn
      rw [← hg.identity] at this
      exact this
    · have := hg'.recovered hN hf
      rw [himage, hg'.identity, ← hg.identity] at this
      exact this
  | @new s' frames' k' hg' himage hroot hsettled hdone =>
    have hident : s'.metadata.identity = t.identity := by rw [hroot.identity, hg.identity]
    refine .inr ⟨s', ?_, hdone, hroot, ?_⟩
    · have := hg'.rooted.selectIn
      rw [hident] at this
      exact this
    · have := hg'.recovered hN hsettled
      rw [himage, hg'.identity, hident] at this
      exact this

/-- **What is committed stays committed.** In every run that numbers no record `u64::MAX`, whatever
fails in it: the bodies committed at some time are the first ones committed at any later time; all
are recovered while no group is in flight; and a reopen adds nothing but a beginning of that group. -/
theorem commits_survive (hN : N.Lawful) (hZ : N.NoZero) {emptyDraws logDraws : Draws}
    {identity : CompatibilityIdentity} {storeId : StoreId} {st : Store} (hv4 : storeId.isV4 = true)
    (hseg : logDraws.segment ≠ zeroDigest)
    (hcreate : Store.create N emptyDraws logDraws identity storeId = some st) {as bs : List Action} {t t' : Traced}
    (hrun : run (Traced.stepBelow N) (.initial st) as = some t)
    (hmore : run (Traced.stepBelow N) t bs = some t') :
    t.log <+: t'.log ∧ (t'.inflight = [] → Recovered N t'.store.dir t'.identity t'.log t'.image) ∧
      ∃ j, (t'.step N .reopen).log = t'.log ++ t'.inflight.take j := by
  have ht := run_held hN hrun ⟨_, _, _, _, _, good_initial hZ hv4 hseg hcreate⟩
  obtain ⟨hheld, hlog⟩ := run_invariant (I := fun u => Held N u ∧ t.log <+: u.log)
    (fun hs hu => ⟨step_held hN hs hu.1, hu.2.trans (step_log hN hs hu.1)⟩) hmore ⟨ht, List.prefix_rfl⟩
  refine ⟨hlog, fun hf => ?_, reopen_log hN hheld⟩
  obtain ⟨s, frames, inflight, cut, k, hg⟩ := hheld
  exact hg.recovered hN hf

/-! ## A sample store -/

namespace Sample

def uuid (k : UInt8) : Uuid := ⟨List.replicate 15 0 ++ [k], rfl⟩
def digest (k : UInt8) : Digest := ⟨List.replicate 31 0 ++ [k], rfl⟩
def drawn (k : UInt8) : Draws := ⟨uuid k, uuid (k + 1), uuid (k + 2), digest (k + 3)⟩
def identity : CompatibilityIdentity := ⟨"p", 1, digest 7, (17, 0, 0), "binary", 1⟩
def storeId : StoreId := LogicalWal.sampleBase.store

abbrev native : Native := LogicalWal.sampleNative

theorem native_lawful : native.Lawful := sampleNative_lawful

theorem native_noZero : native.NoZero := fun _ h =>
  absurd (congrArg (·.val.head?) h) (show some (1 : UInt8) ≠ some 0 by decide)

theorem created_isSome : (Store.create native (drawn 1) (drawn 11) identity storeId).isSome = true := by decide +kernel

@[irreducible] def created : Store := (Store.create native (drawn 1) (drawn 11) identity storeId).get created_isSome

theorem create_eq : Store.create native (drawn 1) (drawn 11) identity storeId = some created := by
  unfold created
  exact (Option.some_get created_isSome).symm

/-- The generation of the selected root. -/
def selectedGeneration (d : Dir) : Option UInt64 :=
  match selectIn native d identity with
  | .ok s => some s.metadata.generation
  | .error _ => none

/-- Three bodies, with a checkpoint behind the second. -/
def history : List Action :=
  [.commit [[7], [8]] .raw 16 LogicalWal.calm, .checkpoint (drawn 21) none [1, 2] 5 [],
    .commit [[9]] .raw 16 LogicalWal.calm]

/-- A rotation with these faults. -/
def rotation (fs : List Fault) : Action := .checkpoint (drawn 31) none [3] 6 fs

/-- A rotation dies before it replaces `CURRENT`; the store is reopened, and goes on. -/
def resumption : List Action :=
  [rotation (List.replicate 20 .ok ++ [.crash 0]), .reopen, .commit [[10]] .raw 16 LogicalWal.calm]

def rotations : List Action := history ++ [rotation [], .checkpoint (drawn 41) none [4] 7 []]

/-- What a rotation leaves that dies when it has just replaced `CURRENT`. -/
def interrupted (t : Traced) : Dir :=
  (t.store.checkpoint native (drawn 31) none [3] 6 (List.replicate 23 .ok ++ [.crash 1])).2.dir

end Sample

open Sample in
/-- A rotation behind three bodies dies when it has just replaced `CURRENT`: the new root is selected,
and it recovers the new image. -/
theorem checkpoint_atomic_sample : ∃ t, run (Traced.stepBelow native) (.initial created) history = some t ∧
    selectedGeneration t.store.dir = some 3 ∧ selectedGeneration (interrupted t) = some 4 ∧
    Recovered native (interrupted t) identity [[7], [8], [9]] (some ([3], 3)) := by
  have hrun : (run (Traced.stepBelow native) (.initial created) history).map (fun t => (t.log, t.identity,
      selectedGeneration t.store.dir, selectedGeneration (interrupted t))) =
        some ([[7], [8], [9]], identity, some 3, some 4) := by decide +kernel
  obtain ⟨t, ht, hvalues⟩ := Option.map_eq_some_iff.1 hrun
  simp only [Prod.mk.injEq] at hvalues
  obtain ⟨hlog, hident, hold, hnew⟩ := hvalues
  refine ⟨t, ht, hold, hnew, ?_⟩
  obtain ⟨s, hs, h | ⟨s', -, -, -, h⟩, -⟩ := checkpoint_atomic native_lawful native_noZero (by decide) (by decide) create_eq
    ht (drawn 31) none [3] 6 (List.replicate 23 .ok ++ [.crash 1])
  · -- the two selections differ
    have hboth := h.1
    rw [hident] at hs hboth
    have hsame : selectedGeneration (interrupted t) = selectedGeneration t.store.dir := by
      rw [selectedGeneration, selectedGeneration, hs, interrupted, hboth]
    rw [hold, hnew] at hsame
    cases hsame
  · rw [hident, hlog] at h
    exact h

open Sample in
theorem commits_survive_sample : ∃ t t', run (Traced.stepBelow native) (.initial created) history = some t ∧
    run (Traced.stepBelow native) t resumption = some t' ∧ t'.log = [[7], [8], [9], [10]] ∧
    Recovered native t'.store.dir t'.identity t'.log t'.image := by
  have hrun : ((run (Traced.stepBelow native) (.initial created) history).bind fun t =>
      (run (Traced.stepBelow native) t resumption).map fun t' => (t'.log, t'.inflight)) =
        some ([[7], [8], [9], [10]], []) := by decide +kernel
  obtain ⟨t, ht, hmore⟩ := Option.bind_eq_some_iff.1 hrun
  obtain ⟨t', ht', hvalues⟩ := Option.map_eq_some_iff.1 hmore
  obtain ⟨hlog, hflight⟩ := Prod.mk.inj hvalues
  have h := commits_survive native_lawful native_noZero (by decide) (by decide) create_eq ht ht'
  exact ⟨t, t', ht, ht', hlog, h.2.1 hflight⟩

open Sample Prune in
/-- Behind two rotations the first root is obsolete. A prune dies when it has removed two of its files,
and the next one removes the others. -/
theorem prune_keeps_needed_sample : ∃ t p current,
    run (Traced.stepBelow native) (.initial created) rotations = some t ∧
    plan native t.store.dir [] t.store.selected = .ok (p, current) ∧
    (pending t.store.dir p).map ArtifactBytes.name =
      [.snapshot 3, .firstLog, .manifest 1, .manifest 2, .manifest 3] ∧
    ∃ report d', prune native [] t.store.selected (prune native [] t.store.selected t.store.dir
        (List.replicate 13 .ok ++ [.crash 0])).2.1 [] = (.done report, d', []) ∧
      ∀ n ∈ (pending t.store.dir p).map ArtifactBytes.name, n ∉ d' := by
  have hrun : ((run (Traced.stepBelow native) (.initial created) rotations).bind fun t =>
      (plan native t.store.dir [] t.store.selected).toOption.map fun q =>
        (pending t.store.dir q.1).map ArtifactBytes.name) =
          some [.snapshot 3, .firstLog, .manifest 1, .manifest 2, .manifest 3] := by decide +kernel
  obtain ⟨t, ht, hplan⟩ := Option.bind_eq_some_iff.1 hrun
  obtain ⟨⟨p, current⟩, hp, hpending⟩ := Option.map_eq_some_iff.1 hplan
  have hp' := toOption_eq_some.1 hp
  obtain ⟨report, d', hprune, -, hgone⟩ := ((prune_keeps_needed native t.store.dir [] t.store.selected
    (List.replicate 13 .ok ++ [.crash 0])).2 p current hp').2.2 [] fun _ h => by cases h
  exact ⟨t, p, current, ht, hp', hpending, report, d', hprune, hgone⟩

/-! ## The last sequence number -/

namespace Sample

/-- The end of a sealed segment: record `u64::MAX - 1`. -/
def lastBoundary : Position := ⟨storeId, 1, digest 50, 0xfffffffffffffffe, 201, digest 51⟩

def bytesOf {ε : Type} : Except ε Bytes → Bytes
  | .ok bytes => bytes
  | .error _ => []

def lastSnapshot : Bytes := bytesOf (Snapshot.encode native [1, 2, 3] ⟨lastBoundary, 5⟩ defaultLimit)

/-- The rotation behind it; its base is a legal one. -/
def lastManifest : RotatingManifest where
  metadata := ⟨storeId, 1, 4, (2, 0), identity, some ⟨3, digest 9⟩⟩
  snapshot := describe 4 lastSnapshot ⟨lastBoundary, 5⟩
  rotation :=
    { base := { lastBoundary with segment := digest 60, offset := 0, digest := digest 60 }
      snapshotBase := { lastBoundary with sequence := 0xfffffffffffffffd, offset := 0, digest := digest 52 }
      previous := ⟨⟨storeId, 1, 3, manifestName 3, digest 9⟩, lastBoundary⟩ }

def lastBytes : Bytes := bytesOf (Control.encode native (Wire.rotatingManifest native) lastManifest rotatingMagic)

def lastSelector : CurrentSelector := .fromManifest lastManifest.metadata (native.hash lastBytes)

def lastCurrent : Bytes := bytesOf (lastSelector.encode native)

def lastRoot : Selected := lastManifest.select lastSelector

def lastDir : Dir :=
  ((((locked.insert .current lastCurrent).insert (.manifest 4) lastBytes).insert (.snapshot 4) lastSnapshot).insert
    (.log (digest 60)) [])

def lastStore : Store := ⟨lastDir, .fresh lastRoot.base (some lastRoot.base), lastRoot⟩

/-- The group with the one body `[7]`. -/
def lastCommit : Store :=
  match lastStore.wal.prepare native [[7]] .raw 16 with
  | .ok g => lastStore.withWal (lastStore.wal.commit LogicalWal.calm g).1
  | .error _ => lastStore

def acknowledged : Option UInt64 :=
  match lastStore.wal.prepare native [[7]] .raw 16 with
  | .ok g => (lastStore.wal.commit LogicalWal.calm g).2.toOption.map (·.sequence)
  | .error _ => none

def recoveredBodies (d : Dir) : Except StreamError (Bytes × List Bytes) :=
  (reopen native d identity defaultLimit).map fun r => (r.image, r.suffix)

end Sample

open Sample in
/-- **The record numbered `u64::MAX` is committed and not recovered.** The store recovers before the
commit. The commit is acknowledged. A checkpoint that dies in its first step leaves the old root
selected, and its recovery fails. -/
theorem last_record_not_recovered :
    recoveredBodies lastStore.dir = .ok ([1, 2, 3], []) ∧ acknowledged = some 0xffffffffffffffff ∧
      (lastCommit.checkpoint native (drawn 21) none [4] 6 [.crash 0]).1 = .crashed ∧
      selectedGeneration (lastCommit.checkpoint native (drawn 21) none [4] 6 [.crash 0]).2.dir = some 4 ∧
      recoveredBodies (lastCommit.checkpoint native (drawn 21) none [4] 6 [.crash 0]).2.dir =
        .error (.artifact (logText (digest 60)) (some 0) (some 0xffffffffffffffff) (.protocol "sequence exhausted")) := by
  refine ⟨?_, ?_, ?_, ?_, ?_⟩ <;> decide +kernel

end Selene.Persist
