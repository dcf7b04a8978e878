import Selene.Proof.Stages

/-!
# Runs of a store

A store is created, and then commits, checkpoints, prunes and reopens follow in any
order, each with any failure or death. `Traced` carries what has been committed along
the run: the bodies in the order of their sequence numbers, and the image of the last
selected checkpoint. `Good` says that the directory holds exactly that, and every step
keeps it as long as no record is numbered `u64::MAX` (`step_held`).
-/

namespace Selene.Persist

open Octets Disk Transition List Option CurrentSelector Name Selected Std.ExtTreeMap Std.LawfulEqCmp

variable {N : Native} {d : Dir} {s : Selected}

variable {b : Bytes} {selector : CurrentSelector} {e : Dir} {bodies : List Bytes} {w : LogicalWal}
  {n : Name}
  {r : Reopened} {st : Store} {t' : Traced} {L : ℕ}

/-! ## The system -/

/-- A store with its history. -/
structure Traced where
  store : Store
  /-- The committed bodies; the first one has sequence number 1. -/
  log : List Bytes
  /-- The bodies of a group that was neither synchronized nor rolled back. -/
  inflight : List Bytes
  /-- The image of the selected checkpoint, and the number of bodies it covers. -/
  image : Option (Bytes × ℕ)

inductive Action where
  | commit (bodies : List Bytes) (compression : Compression) (limit : ℕ)
      (env : LogicalWal.CommitEnv)
  | checkpoint (draws : Draws) (acquire : Option PersistError) (body : Bytes) (publication : UInt64)
      (faults : List Fault)
  | prune (acquire : Option PersistError) (leases : List Name) (faults : List Fault)
  | reopen

namespace Traced

/-- A created store. -/
def initial (st : Store) : Traced := ⟨st, [], [], none⟩

def identity (t : Traced) : CompatibilityIdentity := t.store.selected.metadata.identity

/-- The group's bodies go where its commit has put them. -/
def record (t : Traced) (w : LogicalWal) (bodies : List Bytes) :
    Except CommitFailure Position → Traced
  | .ok _ => { t with store := t.store.withWal w, log := t.log ++ bodies }
  | .error f =>
    match f.durability with
    | .committed => { t with store := t.store.withWal w, log := t.log ++ bodies }
    | .uncertain => { t with store := t.store.withWal w, inflight := bodies }
    | .canceled => { t with store := t.store.withWal w }

def step (N : Native) (t : Traced) : Action → Traced
  | .commit bodies compression limit env =>
    match t.store.wal.prepare N bodies compression limit with
    | .error _ => t
    | .ok g => t.record (t.store.wal.commit env g).1 bodies (t.store.wal.commit env g).2
  | .checkpoint draws acquire body publication faults =>
    let st := (t.store.checkpoint N draws acquire body publication faults).2
    { t with
      store := st
      -- a new `CURRENT` selects the new image
      image := if st.dir[Name.current]? = t.store.dir[Name.current]? then t.image
        else some (body, t.log.length) }
  | .prune acquire leases faults => { t with store := (t.store.prune N acquire leases faults).2 }
  | .reopen =>
    match reopen N t.store.dir t.identity defaultLimit with
    | .error _ => t
    | .ok r =>
      { t with
        store := ⟨t.store.dir, r.wal, r.selected⟩
        -- the image stands for what it covers, the suffix for the rest
        log := t.log.take ((t.image.map Prod.snd).getD 0) ++ r.suffix
        inflight := [] }

/-- The step numbers no record `u64::MAX`. -/
def Below (t : Traced) : Action → Prop
  | .commit bodies _ _ _ => t.log.length + bodies.length + 1 < 2 ^ 64
  | _ => True

instance (t : Traced) (a : Action) : Decidable (t.Below a) := by
  cases a <;> unfold Below <;> infer_instance

/-- The steps that number no record `u64::MAX`. -/
def stepBelow (N : Native) (t : Traced) (a : Action) : Option Traced :=
  if t.Below a then some (t.step N a) else none

end Traced

/-! ## What the directory holds -/

/-- The directory selects `s`. -/
structure Rooted (N : Native) (d : Dir) (s : Selected) : Prop where
  identity : s.metadata.identity.validate = .ok ()
  recognized : ∀ n ∈ d, n.recognized
  lock : Name.lock ∈ d
  manifestLock : Name.manifestLock ∈ d
  current : ∃ bytes, d[Name.current]? = some bytes ∧ bytes.length ≤ Dir.maxControl ∧
    decode N bytes = .ok s.selector
  manifest : ∃ bytes, d[s.manifestFile]? = some bytes ∧ bytes.length ≤ Dir.maxControl ∧
    N.hash bytes = s.selector.digest ∧ decodeRoot N bytes s.selector s.metadata.identity = .ok s

theorem readBounded_of (h : d[n]? = some b) (hl : b.length ≤ Dir.maxControl) :
    d.readBounded n = .ok b := by
  unfold Dir.readBounded
  rw [openRead_ok.2 h]
  exact if_neg (by omega)

theorem selectRoot_of {identity : CompatibilityIdentity} (h : d[selector.file]? = some b)
    (hl : b.length ≤ Dir.maxControl) (hh : N.hash b = selector.digest)
    (hdec : decodeRoot N b selector identity = .ok s) :
    selectRoot N d selector identity = .ok s := by
  unfold selectRoot
  rw [readBounded_of h hl]
  simp only [hh, ne_eq, not_true_eq_false, if_false, hdec, control]

theorem Rooted.selectIn (h : Rooted N d s) : selectIn N d s.metadata.identity = .ok s := by
  obtain ⟨cb, hcb, hcl, hcd⟩ := h.current
  obtain ⟨mb, hmb, hml, hmh, hmd⟩ := h.manifest
  exact Prune.selectIn_ok.2 ⟨h.identity, h.recognized, cb, s.selector, readBounded_of hcb hcl, hcd,
    selectRoot_of hmb hml hmh hmd⟩

theorem Rooted.current_mem (h : Rooted N d s) : Name.current ∈ d := by
  obtain ⟨b, hb, -⟩ := h.current
  exact mem_dir_iff.2 ⟨b, hb⟩

theorem Rooted.manifest_mem (h : Rooted N d s) : s.manifestFile ∈ d := by
  obtain ⟨b, hb, -⟩ := h.manifest
  exact mem_dir_iff.2 ⟨b, hb⟩

theorem Rooted.congr (h : Rooted N e s) (hrec : ∀ n ∈ d, n.recognized) (hlock : Name.lock ∈ d)
    (hmlock : Name.manifestLock ∈ d) (hcur : d[Name.current]? = e[Name.current]?)
    (hman : d[s.manifestFile]? = e[s.manifestFile]?) : Rooted N d s :=
  ⟨h.identity, hrec, hlock, hmlock, by rw [hcur]; exact h.current, by rw [hman]; exact h.manifest⟩

theorem recognized_of_isTemp (h : n.isTemp = true) : n.recognized = true := by
  cases n <;> first | rfl | cases h

theorem Upto.recognized (h : Upto e d) (he : ∀ n ∈ e, n.recognized) : ∀ n ∈ d, n.recognized := by
  intro n hn
  by_cases ht : n.isTemp = true
  · exact recognized_of_isTemp ht
  · exact he n ((h.mem (by simpa using ht)).1 hn)

/-- What every root of a run has: valid metadata, and a context that agrees with it. -/
structure Sourced (s : Selected) : Prop where
  metadata : s.metadata.validate = .ok ()
  version : s.metadata.storeId.isV4 = true
  store : s.context.store = s.metadata.storeId
  epoch : s.context.epoch = s.metadata.epoch
  based : s.context.sequence ≠ 0
  segment : s.context.segment ≠ zeroDigest
  previous : s.context.previous ≠ zeroDigest
  first : s.rotation = none → s.context.sequence = 1
  plain : s.checkpoint = none → s.rotation = none
  selector : s.selector.generation = s.metadata.generation

/-- The writer's file is the segment of `s` with the frames in it. -/
structure Linked (w : LogicalWal) (s : Selected) (frames : Frames) : Prop where
  sound : LogicalWal.Sound w
  content : w.file.content = segmentBytes frames
  synchronized : w.progress.synchronized = endPosition s.base frames

/-- The directory of a run holds its history: the segment of the selected root is the bodies from
its base on, behind them any bytes of a group in flight, and the snapshot covers what the image
stands for. -/
structure Good (N : Native) (t : Traced) (s : Selected) (frames inflight : Frames) (cut k : ℕ) :
    Prop where
  rooted : Rooted N t.store.dir s
  sourced : Sourced s
  below : t.log.length + t.inflight.length + 1 < 2 ^ 64
  base_le : s.base.sequence.toNat ≤ t.log.length
  framed : Framed N Frame.maxPayload s.base (t.log.drop s.base.sequence.toNat) frames
  flying : Framed N Frame.maxPayload (endPosition s.base frames) t.inflight inflight
  log_file : t.store.dir[s.logFile]? = some (segmentBytes frames ++ cutBytes inflight cut)
  snapshot : match s.checkpoint, t.image with
    | none, none => k = 0
    | some c, some (image, n) => n = s.base.sequence.toNat + k ∧ BoundaryAt s c frames k ∧
        ∃ file, t.store.dir[s.snapshotFile]? = some file ∧ SnapshotHolds N c file image
    | _, _ => False
  identity : t.identity = s.metadata.identity
  live : t.store.wal.fenced = false → t.store.selected = s ∧ t.inflight = [] ∧
    Linked t.store.wal s frames

variable {t : Traced} {frames inflight : Frames} {cut k : ℕ}

section

variable (h : Good N t s frames inflight cut k)
include h

theorem Good.end_sequence : (endPosition s.base frames).sequence.toNat = t.log.length := by
  rw [h.framed.end_sequence, length_drop]
  have := h.base_le
  omega

theorem Good.logHolds : LogHolds N s (t.log.drop s.base.sequence.toNat) frames :=
  ⟨h.sourced.based, h.framed, by rw [h.end_sequence]; have := h.below; omega⟩

theorem Good.covered : (s.checkpoint = none ∧ t.image = none ∧ k = 0) ∨
    ∃ c image file, s.checkpoint = some c ∧ t.image = some (image, s.base.sequence.toNat + k) ∧
      BoundaryAt s c frames k ∧ t.store.dir[s.snapshotFile]? = some file ∧
        SnapshotHolds N c file image := by
  have := h.snapshot
  rcases hc : s.checkpoint with _ | c <;> rcases hi : t.image with _ | ⟨image, n⟩ <;>
    rw [hc, hi] at this
  · exact .inl ⟨rfl, rfl, this⟩
  iterate 2 exact this.elim
  obtain ⟨rfl, hb, file, hfile, hs⟩ := this
  exact .inr ⟨c, image, file, rfl, rfl, hb, hfile, hs⟩

theorem Good.intact (hf : t.inflight = []) :
    Intact N t.store.dir s (t.image.map Prod.fst) (t.log.drop s.base.sequence.toNat) frames k := by
  refine ⟨h.logHolds, ?_, ?_⟩
  · have hnil : inflight = [] := length_eq_zero_iff.1 (by rw [h.flying.length, hf]; rfl)
    rw [h.log_file, hnil]
    simp [cutBytes]
  · rcases h.covered with ⟨hc, hi, hk⟩ | ⟨c, image, file, hc, hi, hb, hs⟩ <;> rw [hc, hi]
    · exact hk
    · exact ⟨hb, file, hs⟩

end

/-! ## Commits -/

theorem BoundaryAt.append {c : SnapshotDescriptor} (h : BoundaryAt s c frames k) (more : Frames) :
    BoundaryAt s c (frames ++ more) k := by
  unfold BoundaryAt at h ⊢
  split
  · rename_i hr
    rwa [if_pos hr] at h
  · rename_i hr
    rw [if_neg hr] at h
    refine ⟨by rw [length_append]; omega, ?_⟩
    rw [take_append_of_le_length h.1]
    exact h.2

theorem withWal_getElem? (hn : n ≠ st.selected.logFile) :
    (st.withWal w).dir[n]? = st.dir[n]? := getElem?_modify_ne _ _ (Ne.symm hn)

theorem withWal_log (h : st.selected.logFile ∈ st.dir) :
    (st.withWal w).dir[st.selected.logFile]? = some w.file.content := by
  obtain ⟨b, hb⟩ := mem_dir_iff.1 h
  show (st.dir.modify _ _)[_]? = _
  rw [getElem?_modify_self, hb]
  rfl

theorem logFile_ne (s : Selected) (n : Name) (h : ∀ x, n ≠ .log x := by simp)
    (h' : n ≠ .firstLog := by simp) : n ≠ s.logFile := by
  unfold logFile
  split
  · exact h'
  · exact h _

theorem logFile_isTemp (s : Selected) : s.logFile.isTemp = false := by
  unfold logFile
  split <;> rfl

theorem withWal_mem : n ∈ (st.withWal w).dir ↔ n ∈ st.dir := mem_modify

theorem Good.written (h : Good N t s frames inflight cut k) (hlive : t.store.wal.fenced = false)
    {log flight : List Bytes} {more inflight' : Frames} (cut' : ℕ)
    (hmore : Framed N Frame.maxPayload (endPosition s.base frames) log more)
    (hflight : Framed N Frame.maxPayload (endPosition s.base (frames ++ more)) flight inflight')
    (hcontent : w.file.content = segmentBytes (frames ++ more) ++ cutBytes inflight' cut')
    (hbelow : t.log.length + (log.length + flight.length) + 1 < 2 ^ 64)
    (hw : w.fenced = false → flight = [] ∧ Linked w s (frames ++ more)) :
    Good N { t with store := t.store.withWal w, log := t.log ++ log, inflight := flight } s
      (frames ++ more) inflight' cut' k := by
  obtain ⟨hsel, -, -⟩ := h.live hlive
  have hmem : t.store.selected.logFile ∈ t.store.dir := by
    rw [hsel]
    exact mem_dir_iff.2 ⟨_, h.log_file⟩
  have hne : ∀ n : Name, (∀ x, n ≠ .log x) → n ≠ .firstLog → n ≠ t.store.selected.logFile :=
    fun n h₁ h2 => logFile_ne _ n h₁ h2
  refine ⟨?_, h.sourced, ?_, ?_, ?_, hflight, ?_, ?_, h.identity, fun hf => ⟨hsel, hw hf⟩⟩
  · exact h.rooted.congr (fun n hn => h.rooted.recognized n (withWal_mem.1 hn))
      (withWal_mem.2 h.rooted.lock)
      (withWal_mem.2 h.rooted.manifestLock) (withWal_getElem? (hne _ (by simp) (by simp)))
      (withWal_getElem? (hne _ (by simp [manifestFile, file])
        (by simp [manifestFile, file])))
  · show (t.log ++ log).length + flight.length + 1 < 2 ^ 64
    rw [length_append]; omega
  · rw [length_append]; have := h.base_le; omega
  · rw [drop_append_of_le_length h.base_le]
    exact (h.framed.append hmore).1
  · rw [← hsel, withWal_log hmem, hcontent]
  · rcases h.covered with ⟨hc, hi, hk⟩ | ⟨c, image, file, hc, hi, hb, hfile, hs⟩ <;>
      simp only [hc, hi]
    · exact hk
    · rw [withWal_getElem? (hne _ (by simp [snapshotFile]) (by simp [snapshotFile]))]
      exact ⟨trivial, hb.append more, file, hfile, hs⟩

theorem prepare_limit {compression : Compression} {limit : ℕ} {g : PreparedGroup}
    (h : w.prepare N bodies compression limit = .ok g) :
    limit ≤ Frame.maxPayload := by
  obtain ⟨hf, -, -⟩ := framed_of_prepare (le_refl limit) h
  unfold LogicalWal.prepare at h
  split at h
  · cases h
  split at h
  · cases h
  rename_i hb
  split at h
  · cases h
  rename_i frames hfr
  cases bodies with
  | nil => exact absurd (.inl rfl) hb
  | cons body bodies =>
    obtain ⟨_, _, _, _, -, -, henc, -, -⟩ := LogicalWal.prepareFrames_cons N hfr
    obtain ⟨_, _, hE⟩ := Frame.encode_spec henc
    exact hE.limit_le

/-- **A commit keeps the history**, however it ends. -/
theorem Good.commit (h : Good N t s frames inflight cut k) (bodies : List Bytes)
    (compression : Compression) (limit : ℕ) (env : LogicalWal.CommitEnv)
    (hbelow : t.log.length + bodies.length + 1 < 2 ^ 64) :
    ∃ more inflight cut, Good N (t.step N (.commit bodies compression limit env)) s
      (frames ++ more) inflight cut k := by
  rw [Traced.step]
  cases hg : t.store.wal.prepare N bodies compression limit with
  | error e => exact ⟨[], inflight, cut, by rw [append_nil]; exact h⟩
  | ok g =>
    obtain ⟨hfr, -, hlive⟩ := framed_of_prepare (prepare_limit hg) hg
    obtain ⟨hsel, hnil, hlink⟩ := h.live hlive
    have hold : t.store.wal.synchronizedBytes = segmentBytes frames := by
      rw [← hlink.sound.content_eq hlive, hlink.content]
    rw [hlink.synchronized] at hfr
    have hlen := hfr.length
    have hout := LogicalWal.commit_outcome env hlink.sound g
    have hsound := LogicalWal.commit_sound env hlink.sound g
    have hall : segmentBytes (frames ++ g.frames) = segmentBytes frames ++ g.bytes := by
      unfold segmentBytes PreparedGroup.bytes
      rw [map_append, flatten_append]
    have hend : endPosition s.base (frames ++ g.frames) = g.candidate := by
      rw [LogicalWal.candidate_eq g (endPosition s.base frames), (h.framed.append hfr).2]
    simp only
    generalize (t.store.wal.commit env g).1 = w, (t.store.wal.commit env g).2 = r at hout hsound ⊢
    -- nothing of the group stays, all of it stays, or a part of it stays in flight
    have hnone : w.file.content = segmentBytes frames → (w.fenced = false → Linked w s frames) →
        Good N { t with store := t.store.withWal w } s (frames ++ []) [] 0 k := by
      intro hc hl
      have := h.written hlive 0 (.nil _) (.nil _) (by simpa [cutBytes] using hc)
        (by have := h.below; simp; omega) fun hf => ⟨rfl, by simpa using hl hf⟩
      simpa [hnil] using this
    have hkept : w.file.content = segmentBytes frames ++ g.bytes →
        (w.fenced = false → w.progress.synchronized = g.candidate) →
        Good N { t with store := t.store.withWal w, log := t.log ++ bodies } s (frames ++ g.frames)
        [] 0 k := by
      intro hc hl
      have := h.written hlive 0 hfr (.nil _) (w := w) (by rw [hall, hc]; simp [cutBytes])
        (by simp; omega) fun hf => ⟨rfl, hsound, by rw [hall, hc], by rw [hend]; exact hl hf⟩
      simpa [hnil] using this
    rcases hout with ⟨f, hp, hd⟩ | ⟨_, f, hp, hd, hl, hb, hf, hc, hdur, hs, hwr⟩ |
      ⟨_, f, hp, hd, hl, hb, hf, ⟨j, hc⟩, hdur, hs⟩ | ⟨_, f, hp, hd, hl, hb, hf, hc, hdur, hs⟩ |
      ⟨_, hl, hb, hf, hat, hc, hdur, hs⟩
    · simp only [Traced.record, hd]
      exact ⟨[], [], 0, hnone hlink.content fun _ => hlink⟩
    · simp only [Traced.record, hd]
      exact ⟨[], [], 0, hnone (hc.trans hold) fun h => absurd h (by simp [hf])⟩
    · simp only [Traced.record, hd]
      refine ⟨[], g.frames, j, ?_⟩
      have := h.written hlive j (.nil _) (by rw [append_nil]; exact hfr) (w := w)
        (by rw [append_nil, hc, hold]; rfl) (by simp; omega) fun h => absurd h (by simp [hf])
      simpa using this
    · simp only [Traced.record, hd]
      exact ⟨_, [], 0, hkept (by rw [hc, hold]) fun h => absurd h (by simp [hf])⟩
    · simp only [Traced.record]
      exact ⟨_, [], 0, hkept (by rw [hc, hold]) fun _ => by rw [hs]⟩

/-! ## Steps that leave the root alone -/

/-- The files the selected root and its history rest on. -/
def Holds (s : Selected) (n : Name) : Prop :=
  n = .current ∨ n = .lock ∨ n = .manifestLock ∨ n ∈ Prune.dependencies s

section

variable (h : Good N t s frames inflight cut k)
include h

theorem Good.keep {d : Dir}
    (hsame : ∀ n, Holds s n → d[n]? = t.store.dir[n]?) (hrec : ∀ n ∈ d, n.recognized)
    (hw : w.fenced = false → w = t.store.wal) :
    Good N { t with store := ⟨d, w, t.store.selected⟩ } s frames inflight cut k := by
  have hdep : ∀ n ∈ Prune.dependencies s, d[n]? = t.store.dir[n]? :=
    fun n hn => hsame n (.inr (.inr (.inr hn)))
  refine ⟨?_, h.sourced, h.below, h.base_le, h.framed, h.flying, ?_, ?_, h.identity, fun hf => ?_⟩
  · exact h.rooted.congr hrec ((mem_dir_congr (hsame _ (.inr (.inl rfl)))).2 h.rooted.lock)
      ((mem_dir_congr (hsame _ (.inr (.inr (.inl rfl))))).2 h.rooted.manifestLock)
        (hsame _ (.inl rfl))
      (hdep _ (Prune.manifest_mem s))
  · exact (hdep _ (Prune.log_mem s)).trans h.log_file
  · rcases h.covered with ⟨hc, hi, hk⟩ | ⟨c, image, file, hc, hi, hb, hfile, hs⟩ <;>
      simp only [hc, hi]
    · exact hk
    · exact ⟨trivial, hb, file, (hdep _ (Prune.snapshot_mem (by rw [hc]; rfl))).trans hfile, hs⟩
  · obtain rfl := hw hf
    exact h.live hf

theorem Good.unlinks (hlive : t.store.wal.fenced = false) (leases : List Name) (fs : List Fault) :
    (Prune.prune N leases t.store.selected t.store.dir fs).2.1 = t.store.dir ∨ ∃ p roots history,
      Prune.Planned N t.store.dir leases s p s roots history ∧
        Prune.Thinned t.store.dir p (Prune.prune N leases t.store.selected t.store.dir fs).2.1 := by
  obtain ⟨hsel, -, -⟩ := h.live hlive
  rcases Prune.prune_unlinks (N := N) t.store.dir leases t.store.selected fs
    with heq | ⟨p, current, j, hplan, heq⟩
  · exact .inl heq
  · obtain ⟨roots, history, hp⟩ := Prune.planned_of_plan hplan
    have hcur : current = s := by
      have := hp.select
      rw [hsel, h.rooted.selectIn] at this
      cases this
      rfl
    subst hcur
    exact .inr ⟨p, roots, history, hsel ▸ hp, heq ▸ Prune.unlinked_thinned j⟩

/-- **A prune keeps the history**, wherever it stops. -/
theorem Good.prune (acquire : Option PersistError) (leases : List Name)
    (fs : List Fault) : Good N (t.step N (.prune acquire leases fs)) s frames inflight cut k := by
  have hself : Good N { t with store := t.store } s frames inflight cut k := h
  rw [Traced.step]
  unfold Store.prune
  split
  · exact hself
  rename_i hlive
  split
  · exact hself
  have hd' : (∀ n, Holds s n → (Prune.prune N leases t.store.selected t.store.dir fs).2.1[n]? =
    t.store.dir[n]?) ∧
      ∀ n ∈ (Prune.prune N leases t.store.selected t.store.dir fs).2.1, n.recognized := by
    rcases h.unlinks (by simpa using hlive) leases fs with heq | ⟨p, roots, history, hp, ht⟩
    · rw [heq]; exact ⟨fun _ _ => rfl, h.rooted.recognized⟩
    · refine ⟨fun n hn => ht.same ?_, fun n hn => h.rooted.recognized n (ht.mem hn).1⟩
      rcases hn with rfl | rfl | rfl | hn
      · exact (hp.kept_iff _).2 (.inl (.inl rfl))
      · exact (hp.kept_iff _).2 (.inl (.inr (.inl rfl)))
      · exact (hp.kept_iff _).2 (.inl (.inr (.inr rfl)))
      · exact hp.current_kept n hn
  rcases hr : Prune.prune N leases t.store.selected t.store.dir fs with ⟨_ | _ | _, d', fs'⟩ <;>
    rw [hr] at hd'
  · exact h.keep hd'.1 hd'.2 fun _ => rfl
  · exact h.keep hd'.1 hd'.2 fun _ => rfl
  · exact h.keep hd'.1 hd'.2 fun hf => by cases hf

/-! ## Reopening -/

omit h in
theorem reopen_inv {identity : CompatibilityIdentity} {limit : ℕ} {content : Bytes}
    (h : reopen N d identity limit = .ok r) (hsel : selectIn N d identity = .ok s)
    (hlog : d[s.logFile]? = some content) :
    s.checkpoint.isSome ∧ ∃ reader v v' bodies fuel,
      LogicalReader.fromSelection content s.context s.logName limit = .ok reader ∧
        v.reader = reader ∧
        v.complete = false ∧ RecoveryReader.drain N fuel v = .ok (v', bodies) := by
  unfold reopen at h
  split at h
  · cases h
  rename_i v hv
  simp only at h
  split at h
  · cases h
  split at h
  · cases h
  rename_i v' suffix hdrain
  unfold RecoveryReader.openIn openReader at hv
  split at hv
  · cases hv
  split at hv
  · cases hv
  rename_i reader s' hopen
  split at hopen
  · cases hopen
  split at hopen
  · cases hopen
  rw [hsel] at hopen
  simp only [openRead_ok.2 hlog] at hopen
  split at hopen
  swap
  · cases hopen
  rename_i file _ hfile _
  cases hfile
  cases hf : LogicalReader.fromSelection content s.context s.logName limit with
  | error e => rw [hf] at hopen; cases hopen
  | ok reader' =>
    rw [hf] at hopen
    cases hopen
    unfold RecoveryReader.fromReader at hv
    split at hv
    · cases hv
    rename_i c hc
    cases hv
    exact ⟨by rw [hc]; rfl, reader, _, v', suffix, _, rfl, rfl, rfl, hdrain⟩

omit h in
theorem untorn_of_reads {r : LogicalReader} {torn : Bool} {m : ℕ}
    (h : LogicalReader.Recovers N r bodies torn)
    (hlast : (LogicalReader.reads N m r).1.getLast? = some (.ok none))
    (hinc : (LogicalReader.reads N m r).2.incomplete = false) : torn = false := by
  obtain ⟨h₁, h2⟩ := h m
  by_cases hm : bodies.length < m
  · rw [← h2 hm]; exact hinc
  · exfalso
    rw [h₁, Nat.sub_eq_zero_of_le (by omega), replicate_zero, append_nil, getLast?_map] at hlast
    cases hl : (bodies.take m).getLast? with
    | none | some b => rw [hl] at hlast; cases hlast

omit h in
/-- What a reopen finds: some whole frames of the group in flight, and nothing behind them. -/
theorem Good.settled (hN : N.Lawful) (h : Good N t s frames inflight cut k)
    (hr : reopen N t.store.dir t.identity defaultLimit = .ok r) :
    ∃ j, t.store.dir[s.logFile]? = some (segmentBytes (frames ++ inflight.take j)) := by
  have hsel := h.rooted.selectIn
  rw [← h.identity] at hsel
  obtain ⟨-, reader, v, v', bodies, fuel, hreader, rfl, hcomplete, hdrain⟩ :=
    reopen_inv hr hsel h.log_file
  obtain ⟨m, hv', hlast, hinc⟩ := RecoveryReader.drain_reads hdrain hcomplete
  rw [hv'] at hinc
  -- the file is a cut of all frames
  have hfile : segmentBytes frames ++ cutBytes inflight cut =
      cutBytes (frames ++ inflight) ((segmentBytes frames).length + cut) := by
    unfold cutBytes segmentBytes
    rw [map_append, flatten_append, take_length_add_append]
  obtain ⟨hall, -⟩ := h.framed.append h.flying
  have hwf := wholeFrames_append (frames.map Prod.fst) (inflight.map Prod.fst) cut
  obtain ⟨reader', hreader', hat⟩ :=
    LogicalReader.at_fromSelection (segmentBytes frames ++ cutBytes inflight cut) s.logName
    (le_refl Frame.maxPayload) h.sourced.based
  have heq : reader' = v.reader := by
    have : defaultLimit = Frame.maxPayload := rfl
    rw [this, hreader'] at hreader
    cases hreader
    rfl
  subst heq
  rw [hfile] at hat
  have hiff := recovers_iff hN (le_refl _) hall hat
  have hrec := hiff.2 (by
    have hlen := (wholeFrames_spec (inflight.map Prod.fst) cut).1
    have hl1 := h.framed.length
    have hl2 := h.flying.length
    have := h.below
    have := h.base_le
    rw [length_drop] at hl1
    rw [length_map] at hlen
    rw [map_append]
    show _ + wholeFrames _ ((frames.map Prod.fst).flatten.length + cut) + 1 < _
    rw [hwf.1, length_map]
    omega)
  have htorn := untorn_of_reads hrec hlast hinc
  rw [map_append] at htorn
  have htorn : tornAt (inflight.map Prod.fst) cut = false := hwf.2.symm.trans htorn
  have hex : ∃ j, ((inflight.map Prod.fst).take j).flatten =
      (inflight.map Prod.fst).flatten.take cut := by
    by_contra hno
    rw [(tornAt_iff _ _).2 hno] at htorn
    cases htorn
  obtain ⟨j, hj⟩ := hex
  refine ⟨j, ?_⟩
  rw [h.log_file]
  unfold cutBytes segmentBytes
  rw [← hj, map_append, flatten_append, map_take]

/-- The whole frames in flight count as committed when they are all that is there. -/
theorem Good.absorb {j : ℕ}
    (hfile : t.store.dir[s.logFile]? = some (segmentBytes (frames ++ inflight.take j)))
    (hw : w = .established (endPosition s.base (frames ++ inflight.take j))
      (segmentBytes (frames ++ inflight.take j))) :
    Good N ⟨⟨t.store.dir, w, s⟩, t.log ++ t.inflight.take j, [],
      t.image⟩ s (frames ++ inflight.take j) [] 0 k := by
  obtain ⟨hfly, -⟩ := h.flying.split j
  obtain ⟨hall, hend⟩ := h.framed.append hfly
  have hle := h.base_le
  refine ⟨h.rooted, h.sourced, ?_, ?_, ?_, .nil _, ?_, ?_, rfl, fun _ => ⟨rfl, rfl, ?_⟩⟩
  · have := h.below
    simp only [length_append, length_take, length_nil]
    omega
  · rw [length_append]; omega
  · rw [drop_append_of_le_length hle]
    exact hall
  · rw [hfile]
    simp [cutBytes]
  · rcases h.covered with ⟨hc, hi, hk⟩ | ⟨c, image, file, hc, hi, hb, hs⟩ <;> simp only [hc, hi]
    · exact hk
    · exact ⟨trivial, hb.append _, file, hs⟩
  · subst hw
    have hoff : (segmentBytes (frames ++ inflight.take j)).length =
        (endPosition s.base (frames ++ inflight.take j)).offset.toNat := by
      rw [hall.end_offset]; exact (Nat.zero_add _).symm
    refine ⟨⟨hoff.ge, ?_, fun _ => ⟨hoff, hoff.symm, rfl⟩⟩, rfl, rfl⟩
    exact (LogicalWal.synchronizedBytes_of_length
      (w := .established (endPosition s.base (frames ++ inflight.take j))
        (segmentBytes (frames ++ inflight.take j))) hoff).symm

theorem Good.boundary_le : s.base.sequence.toNat + k ≤ t.log.length := by
  have hle := h.base_le
  have hlen := h.framed.length
  rw [length_drop] at hlen
  rcases h.covered with ⟨-, -, rfl⟩ | ⟨c, -, -, -, -, hb, -⟩
  · omega
  · unfold BoundaryAt at hb
    split at hb <;> omega

end

/-- **A reopening that succeeds** establishes a writer behind what it has read. -/
theorem Good.reopened (hN : N.Lawful) (h : Good N t s frames inflight cut k)
    (hr : Persist.reopen N t.store.dir t.identity defaultLimit = .ok r) :
    ∃ more, Good N (t.step N .reopen) s (frames ++ more) [] 0 k ∧
      (∃ j, (t.step N .reopen).log = t.log ++ t.inflight.take j) ∧ s.checkpoint.isSome ∧
      (t.step N .reopen).store = ⟨t.store.dir,
        .established (endPosition s.base (frames ++ more)) (segmentBytes (frames ++ more)), s⟩ := by
  have hsel := h.rooted.selectIn
  rw [← h.identity] at hsel
  obtain ⟨j, hfile⟩ := h.settled hN hr
  obtain ⟨hsome, -⟩ := reopen_inv hr hsel h.log_file
  have hgood := h.absorb hfile rfl
  have hintact := hgood.intact rfl
  obtain ⟨image, himage⟩ : ∃ image, t.image = some (image, s.base.sequence.toNat + k) := by
    rcases h.covered with ⟨hc, -⟩ | ⟨c, image, -, -, hi, -⟩
    · rw [hc] at hsome
      cases hsome
    · exact ⟨image, hi⟩
  simp only [himage, map_some] at hintact
  have hreopen := hintact.reopen hN hsel h.rooted.current_mem h.rooted.lock h.rooted.manifestLock
    h.rooted.manifest_mem
  have hlog : t.log.take ((t.image.map Prod.snd).getD 0) ++
      ((t.log ++ t.inflight.take j).drop s.base.sequence.toNat).drop k = t.log ++
      t.inflight.take j := by
    have hle := h.boundary_le
    rw [himage, drop_drop]
    show t.log.take (s.base.sequence.toNat + k) ++ _ = _
    have htake : (t.log ++ t.inflight.take j).take (s.base.sequence.toNat + k) =
        t.log.take (s.base.sequence.toNat + k) :=
      take_append_of_le_length hle
    rw [← htake, take_append_drop]
  refine ⟨inflight.take j, ?_, ⟨j, ?_⟩, hsome, ?_⟩ <;> rw [Traced.step, hreopen]
  · simp only [hlog]
    exact hgood
  · exact hlog

/-- **A reopen keeps the history**, whether it succeeds or not. -/
theorem Good.reopen (hN : N.Lawful) (h : Good N t s frames inflight cut k) :
    ∃ more inflight cut, Good N (t.step N .reopen) s (frames ++ more) inflight cut k := by
  cases hr : Persist.reopen N t.store.dir t.identity defaultLimit with
  | error e =>
    refine ⟨[], inflight, cut, ?_⟩
    rw [Traced.step, hr, append_nil]
    exact h
  | ok r =>
    obtain ⟨more, hg, -⟩ := h.reopened hN hr
    exact ⟨more, _, _, hg⟩

/-! ## Checkpoints: what is written is read -/

theorem CurrentSelector.decode_encode {bytes : Bytes} (h : selector.encode N = .ok bytes) :
    decode N bytes = .ok selector ∧ bytes.length ≤ Dir.maxControl := by
  unfold encode at h
  split at h
  · cases h
  rename_i hv
  obtain ⟨hdec, -, hlen⟩ := Control.decode_encode h
  refine ⟨?_, hlen⟩
  unfold decode checked
  rw [hdec]
  simp only [hv]

theorem matchSelector_self (m : EmptyManifest) (digest : Digest) :
    matchSelector m (.fromManifest m digest) m.identity = .ok () := by
  unfold matchSelector fromManifest
  simp

theorem checked_of {α : Type} {x : Except ControlError α} {check : α → Except ControlError Unit}
    {a : α} (h : x = .ok a) (hc : check a = .ok ()) : checked x check = .ok a := by
  unfold checked
  rw [h]
  simp only [hc]

variable {draws : Draws} {previous s' : Selected} {c : SnapshotContext} {generation : UInt64}
  {file bytes body : Bytes}

theorem Rotated.decodes (h : Rotated N draws previous c generation file bytes s') :
    decodeRoot N bytes s'.selector s'.metadata.identity = .ok s' := by
  obtain ⟨hdec, htake, -⟩ := Control.decode_encode h.encoded
  unfold decodeRoot RotatingManifest.decodeSelected RotatingManifest.decode
  rw [htake, if_neg (by decide), if_pos rfl, checked_of (checked_of hdec h.valid)]
  · simp only [h.successor.selector]
    rw [← h.selected]
  · rw [h.successor.selector, h.successor.metadata]
    exact matchSelector_self _ _

theorem Checkpointed.decodes (h : Checkpointed N previous c generation file bytes s')
    (hv : (dataManifest previous generation (describe generation file c)).validate = .ok ()) :
    decodeRoot N bytes s'.selector s'.metadata.identity = .ok s' := by
  obtain ⟨hdec, htake, -⟩ := Control.decode_encode h.encoded
  unfold decodeRoot DataManifest.decodeSelected DataManifest.decode
  rw [htake, if_pos rfl, checked_of (checked_of hdec hv)]
  · simp only [h.successor.selector]
    rw [← h.selected]
  · rw [h.successor.selector, h.successor.metadata]
    exact matchSelector_self _ _

theorem nextGeneration_ok {g g' : UInt64} (h : nextGeneration g = .ok g') :
    g'.toNat = g.toNat + 1 := by
  unfold nextGeneration at h
  split at h
  · cases h
  · cases h
    exact checkedAdd_eq_some.1 ‹_›

theorem nextGeneration_ne {g g' : UInt64} (h : nextGeneration g = .ok g') : g' ≠ 0 ∧ g' ≠ g := by
  have := nextGeneration_ok h
  constructor
  · rintro rfl; simp at this
  · rintro rfl; omega

theorem validate_ok {m : EmptyManifest} (h : m.validate = .ok ()) :
    m.format = (2, 0) ∧ (¬ m.storeId.isZero ∧ m.epoch ≠ 0 ∧ m.generation ≠ 0) ∧
      m.identity.validate = .ok () ∧
      ∀ parent, m.parent = some parent → checkedAdd parent.generation 1 = some m.generation := by
  unfold EmptyManifest.validate at h
  split at h
  · cases h
  rename_i hfmt
  split at h
  · cases h
  rename_i hid
  push Not at hfmt hid
  cases hp : m.parent with
  | none =>
    rw [hp] at h
    dsimp only at h
    split at h
    · exact ⟨hfmt, by simpa using hid, h, fun parent he => by cases he⟩
    · cases h
  | some parent =>
    rw [hp] at h
    dsimp only at h
    split at h
    · next hparent => exact ⟨hfmt, by simpa using hid, h, fun _ he => by cases he; exact hparent.2⟩
    · cases h

theorem validate_successor (hs : Sourced previous)
    (h : nextGeneration previous.metadata.generation = .ok generation) :
    (successor previous generation).validate = .ok () := by
  obtain ⟨hfmt, hid, hident, -⟩ := validate_ok hs.metadata
  unfold EmptyManifest.validate successor
  simp only
  rw [if_neg (not_not.2 hfmt), if_neg, if_pos]
  · exact hident
  · refine ⟨hid.2.2, ?_⟩
    rw [checkedAdd_eq_some]
    exact nextGeneration_ok h
  · push Not
    exact ⟨by simpa using hid.1, hid.2.1, (nextGeneration_ne h).1⟩

theorem Published.rooted (hrec : ∀ n ∈ e, n.recognized) (hlock : Name.lock ∈ e)
    (hmlock : Name.manifestLock ∈ e) (hsel : s.selector = .fromManifest s.metadata (N.hash bytes))
    (hgen : s.metadata.generation ≠ 0) (hvalid : s.metadata.identity.validate = .ok ())
    (hdec : decodeRoot N bytes s.selector s.metadata.identity = .ok s)
    (hlen : bytes.length ≤ Dir.maxControl) (hpub : Published N e bytes s.selector d) :
    Rooted N d s := by
  obtain ⟨current, henc, -, hup⟩ := hpub
  obtain ⟨hcdec, hclen⟩ := decode_encode henc
  have hfile : s.selector.file = .manifest s.metadata.generation := by rw [hsel]; rfl
  have hman : s.manifestFile = .manifest s.metadata.generation := hfile
  have hother : ∀ n : Name, n.isTemp = false → n ≠ .current → n ≠ .manifest s.metadata.generation →
      d[n]? = e[n]? := by
    intro n hn h₁ h2
    rw [hup n hn, getElem?_insert_ne _ _ (Ne.symm h₁), getElem?_insert_ne _ _ (hfile ▸ Ne.symm h2)]
  refine ⟨hvalid, ?_, ?_, ?_, ⟨current, ?_, hclen, hcdec⟩, ⟨bytes, ?_, hlen, ?_, hdec⟩⟩
  · intro n hn
    by_cases ht : n.isTemp = true
    · exact recognized_of_isTemp ht
    by_cases h₁ : n = .current
    · rw [h₁]; rfl
    by_cases h2 : n = .manifest s.metadata.generation
    · rw [h2]
      simpa [recognized] using hgen
    · exact hrec n ((mem_dir_congr (hother n (by simpa using ht) h₁ h2)).1 hn)
  · exact (mem_dir_congr (hother _ rfl (by simp) (by simp))).2 hlock
  · exact (mem_dir_congr (hother _ rfl (by simp) (by simp))).2 hmlock
  · rw [hup _ rfl, getElem?_insert_self]
  · rw [hup _ rfl, getElem?_insert_ne _ _ (by rw [hman]; simp), hfile, hman, getElem?_insert_self]
  · rw [hsel]; rfl

theorem Published.rooted_successor (h : Rooted N e previous)
    (hsucc : Successor N previous c generation file bytes s')
    (hdec : decodeRoot N bytes s'.selector s'.metadata.identity = .ok s')
    (hlen : bytes.length ≤ Dir.maxControl)
    (hpub : Published N e bytes s'.selector d) : Rooted N d s' := by
  refine Published.rooted h.recognized h.lock h.manifestLock
    (by rw [hsucc.selector, hsucc.metadata]) ?_ ?_ hdec hlen hpub
  · rw [hsucc.metadata]; exact (nextGeneration_ne hsucc.next).1
  · rw [hsucc.metadata]; exact h.identity

theorem Framed.end_kept {p : Position} (h : Framed N L p bodies frames) :
    (endPosition p frames).store = p.store ∧ (endPosition p frames).epoch = p.epoch ∧
      (endPosition p frames).segment = p.segment := by
  induction h with
  | nil => exact ⟨rfl, rfl, rfl⟩
  | cons _ _ _ hq _ ih =>
    rw [endPosition_cons]
    obtain ⟨_, -, hq⟩ := bind_eq_some_iff.1 hq
    obtain ⟨_, -, rfl⟩ := map_eq_some_iff.1 hq
    exact ih

theorem Framed.end_zero {p : Position} (h : Framed N L p bodies frames)
    (hz : (endPosition p frames).offset = 0) : frames = [] := by
  have hoff := h.end_offset
  rw [hz, show (0 : UInt64).toNat = 0 from rfl] at hoff
  have := h.length_le
  exact length_eq_zero_iff.1 (by omega)

section

variable (h : Snapshot.encode N body c defaultLimit = .ok file)
include h

theorem snapshotHolds_describe (hv : c.boundary.store.isV4 = true)
    (he : c.boundary.epoch ≠ 0) : SnapshotHolds N (describe generation file c) file body := by
  refine ⟨h, ?_, rfl, hv, he⟩
  have hlen := Snapshot.encode_length h
  obtain ⟨-, -, hle, -⟩ := Snapshot.encode_spec h
  show (UInt64.ofNat file.length).toNat = file.length
  have hmax : defaultLimit + Snapshot.overhead < 2 ^ 64 := by decide
  rw [UInt64.toNat_ofNat', Nat.mod_eq_of_lt (by omega)]

theorem sized_describe : (describe generation file c).sized := by
  have hlen := Snapshot.encode_length h
  obtain ⟨-, -, hle, -⟩ := Snapshot.encode_spec h
  have hmax : defaultLimit + Snapshot.overhead < 2 ^ 64 := by decide
  have hb : (describe generation file c).bytes.toNat = file.length := by
    show (UInt64.ofNat file.length).toNat = file.length
    rw [UInt64.toNat_ofNat', Nat.mod_eq_of_lt (by omega)]
  unfold SnapshotDescriptor.sized
  rw [hb]
  omega

theorem validateContext_ok : c.boundary.segment ≠ zeroDigest ∧ c.boundary.digest ≠ zeroDigest ∧
      (c.boundary.sequence = 0 → c.boundary.offset = 0) := by
  obtain ⟨hv, -, -, -⟩ := Snapshot.encode_spec h
  unfold Snapshot.validateContext at hv
  split at hv
  · cases hv
  · rename_i hn
    push Not at hn
    exact hn

end

theorem epoch_ne_zero (hs : Sourced previous) : previous.metadata.epoch ≠ 0 :=
  (validate_ok hs.metadata).2.1.2.1

theorem validate_dataManifest (hs : Sourced previous) (hplain : previous.rotation = none)
    (hnext : nextGeneration previous.metadata.generation = .ok generation)
    (hf : Framed N L previous.base bodies frames)
    (hb : c.boundary = endPosition previous.base frames)
    (henc : Snapshot.encode N body c defaultLimit = .ok file) :
    (dataManifest previous generation (describe generation file c)).validate = .ok () := by
  obtain ⟨hstore, hepoch, hseg⟩ := hf.end_kept
  obtain ⟨hseg0, hdig0, hzero⟩ := validateContext_ok henc
  have h1 := hs.first hplain
  have hbase0 : previous.base.sequence = 0 := by
    show previous.context.sequence - 1 = 0
    rw [h1]; rfl
  have hstart : c.boundary.sequence = 0 → frames = [] := by
    intro h0
    have := hf.end_sequence
    rw [← hb, h0, hbase0] at this
    exact length_eq_zero_iff.1 (by rw [hf.length]; simpa using this.symm)
  have hoff : c.boundary.offset = 0 → c.boundary.sequence = 0 := by
    intro h0
    rw [hb] at h0
    rw [hb, hf.end_zero h0]
    exact hbase0
  unfold DataManifest.validate
  rw [show (dataManifest previous generation (describe generation file c)).metadata =
    successor previous generation from rfl,
    validate_successor hs hnext]
  simp only
  rw [if_neg]
  push Not
  have hst : (describe generation file c).boundary.store = previous.metadata.storeId := by
    show c.boundary.store = _
    rw [hb, hstore]
    exact hs.store
  have hep : (describe generation file c).boundary.epoch = previous.metadata.epoch := by
    show c.boundary.epoch = _
    rw [hb, hepoch]
    exact hs.epoch
  refine ⟨?_, ?_, hst, hep, ?_, hseg0, hs.previous, hdig0, ⟨hzero, hoff⟩, fun h0 => ?_, rfl,
    sized_describe henc⟩
  · exact (congrArg StoreId.isV4 hst).trans hs.version
  · exact fun h0 => epoch_ne_zero hs (hep.symm.trans h0)
  · show c.boundary.segment = previous.context.segment
    rw [hb, hseg]; rfl
  · show c.boundary.digest = previous.context.previous
    rw [hb, hstart h0]; rfl

/-! ## Checkpoints: the new root -/

section

variable (h : Rotated N draws previous c generation file bytes s')
include h

theorem wellFormed_of :
    (rotatingManifest previous generation (describe generation file c) c.boundary
      draws.segment).wellFormed :=
  (rotating_lineage h.valid).1

theorem Rotated.sourced (hs : Sourced previous) : Sourced s' := by
  obtain ⟨hstore, hepoch, -, -, -, -, -, -, -, -, -, -, -, -, -, hmax, -, hseg, -⟩ :=
    wellFormed_of h
  have hsel := h.selected
  refine ⟨?_, ?_, ?_, ?_, ?_, ?_, ?_, ?_, ?_, ?_⟩
  · rw [h.successor.metadata]; exact validate_successor hs h.successor.next
  · rw [h.successor.metadata]; exact hs.version
  · rw [h.successor.metadata, hsel]; exact hstore
  · rw [h.successor.metadata, hsel]; exact hepoch
  · rw [hsel]
    intro h0
    apply hmax
    show c.boundary.sequence = _
    have h0 : c.boundary.sequence + 1 = 0 := h0
    have := congrArg UInt64.toNat h0
    rw [UInt64.toNat_add] at this
    apply UInt64.toNat_inj.1
    have hlt := c.boundary.sequence.toNat_lt
    simp at this ⊢
    omega
  · rw [hsel]; exact hseg
  · rw [hsel]; exact hseg
  · rw [hsel]; intro h0; cases h0
  · rw [h.successor.checkpoint]; intro h0; cases h0
  · rw [h.successor.selector, h.successor.metadata]; rfl

theorem Rotated.base :
    s'.base =
      { c.boundary with segment := draws.segment, offset := 0, digest := draws.segment } := by
  rw [h.selected]
  show Context.base _ = _
  unfold Context.base RotatingManifest.select rotatingManifest
  simp

end

section

variable (h : Checkpointed N previous c generation file bytes s') (hs : Sourced previous)
include h hs

theorem Checkpointed.sourced (hf : Framed N L previous.base bodies frames)
    (hb : c.boundary = endPosition previous.base frames) : Sourced s' := by
  obtain ⟨hstore, hepoch, -⟩ := hf.end_kept
  have hsel := h.selected
  refine ⟨?_, ?_, ?_, ?_, ?_, ?_, ?_, ?_, ?_, ?_⟩
  · rw [h.successor.metadata]; exact validate_successor hs h.successor.next
  · rw [h.successor.metadata]; exact hs.version
  · rw [h.successor.metadata, hsel]
    show c.boundary.store = previous.metadata.storeId
    rw [hb, hstore]; exact hs.store
  · rw [h.successor.metadata, hsel]
    show c.boundary.epoch = previous.metadata.epoch
    rw [hb, hepoch]; exact hs.epoch
  · rw [hsel]; intro h0; cases h0
  · rw [hsel]; exact hs.segment
  · rw [hsel]; exact hs.previous
  · rw [hsel]; intro _; rfl
  · rw [hsel]; intro _; rfl
  · rw [h.successor.selector, h.successor.metadata]; rfl

theorem Checkpointed.base (hplain : previous.rotation = none)
    (hf : Framed N L previous.base bodies frames)
    (hb : c.boundary = endPosition previous.base frames) : s'.base = previous.base := by
  obtain ⟨hstore, hepoch, -⟩ := hf.end_kept
  have h1 := hs.first hplain
  rw [h.selected]
  show Context.base _ = Context.base _
  unfold Context.base DataManifest.select dataManifest
  simp only [h1]
  congr 1
  · show c.boundary.store = _
    rw [hb, hstore]; rfl
  · show c.boundary.epoch = _
    rw [hb, hepoch]; rfl

end

theorem ne_of_mem {m : Name} (hm : m ∈ e) (hn : n ∉ e) : n ≠ m := by
  rintro rfl
  exact hn hm

theorem Rooted.insert (h : Rooted N e s) (hn : n ∉ e) (hr : n.recognized = true) :
    Rooted N (e.insert n b) s := by
  have hsame : ∀ m ∈ e, (e.insert n b)[m]? = e[m]? :=
    fun m hm => getElem?_insert_ne _ _ (ne_of_mem hm hn)
  refine h.congr (fun m hm => ?_) (mem_insert.2 (.inr h.lock))
    (mem_insert.2 (.inr h.manifestLock)) (hsame _ h.current_mem) (hsame _ h.manifest_mem)
  rcases mem_insert.1 hm with hc | hm
  · rw [← eq_of_compare hc]; exact hr
  · exact h.recognized m hm

theorem log_recognized (s : Selected) : s.logFile.recognized = true := by
  unfold logFile
  split <;> rfl

theorem snapshot_recognized (h : nextGeneration previous.metadata.generation = .ok generation) :
    (Name.snapshot generation).recognized = true := by
  simpa [recognized] using (nextGeneration_ne h).1

/-- The boundary of a checkpoint that a writer of the run takes. -/
structure Taken (t : Traced) (s : Selected) (frames : Frames) (c : SnapshotContext) : Prop where
  boundary : c.boundary = endPosition s.base frames
  settled : t.inflight = []

section

variable (h : Good N t s frames inflight cut k)
include h

theorem Good.boundary_sequence (hc : Taken t s frames c) :
    c.boundary.sequence.toNat = t.log.length := by rw [hc.boundary, h.end_sequence]

theorem Good.boundary_valid (hc : Taken t s frames c) :
    c.boundary.store.isV4 = true ∧ c.boundary.epoch ≠ 0 := by
  obtain ⟨hstore, hepoch, -⟩ := h.framed.end_kept
  rw [hc.boundary, hstore, hepoch]
  exact ⟨by rw [show s.base.store = _ from h.sourced.store]; exact h.sourced.version,
    by rw [show s.base.epoch = _ from h.sourced.epoch]; exact epoch_ne_zero h.sourced⟩

omit h in
theorem Published.elsewhere (h : Published N e bytes s'.selector d)
    (hs : Successor N previous c generation file bytes s') {n : Name} (hn : n.isTemp = false)
    (hcurrent : n ≠ .current) (hmanifest : n ≠ .manifest generation) :
    d[n]? = e[n]? := by
  obtain ⟨current, -, -, hup⟩ := h
  have hfile : s'.selector.file = .manifest generation := by rw [hs.selector]; rfl
  rw [hup n hn, getElem?_insert_ne _ _ hcurrent.symm,
    getElem?_insert_ne _ _ (hfile ▸ hmanifest.symm)]

/-- **The new root of a rotation** holds the history behind the new image. -/
theorem Good.rotated (hc : Taken t s frames c)
    (hroot : Rotated N draws s c generation file bytes s')
    (henc : Snapshot.encode N body c defaultLimit = .ok file)
    (hfree : Name.snapshot generation ∉ t.store.dir) (hlog : s'.logFile ∉ t.store.dir)
    (hpub : Published N (rotationBase t.store.dir generation file s') bytes s'.selector d)
    {selected : Selected} (hident : selected.metadata.identity = s.metadata.identity)
    (hw : w.fenced = false → selected = s' ∧ w = ⟨.empty, { t.store.wal.progress with
      written := s'.base, synchronized := s'.base, published := some s'.base }, false⟩) :
    Good N { t with store := ⟨d, w, selected⟩, image := some (body, t.log.length) } s' []
    [] 0 0 := by
  have hseq := h.boundary_sequence hc
  obtain ⟨hv4, hep⟩ := h.boundary_valid hc
  have hbase := hroot.base
  have hbs : s'.base.sequence = c.boundary.sequence := by rw [hbase]
  have hident' : s'.metadata.identity = s.metadata.identity := by rw [hroot.successor.metadata]; rfl
  have hlogne : s'.logFile ≠ .snapshot generation := (logFile_ne s' _).symm
  have hrooted : Rooted N (rotationBase t.store.dir generation file s') s := by
    refine (h.rooted.insert hfree (snapshot_recognized hroot.successor.next)).insert ?_
      (log_recognized s')
    intro hm
    rcases mem_insert.1 hm with hcmp | hm
    · exact hlogne (eq_of_compare hcmp).symm
    · exact hlog hm
  have hlogtemp := logFile_isTemp s'
  -- the new root starts an empty segment at the end of the log
  refine ⟨?_, hroot.sourced h.sourced, ?_, ?_, ?_, ?_, ?_, ?_, hident.trans hident'.symm,
    fun hf => ?_⟩
  · exact Published.rooted_successor hrooted hroot.successor hroot.decodes
      (Control.decode_encode hroot.encoded).2.2 hpub
  · exact h.below
  · rw [hbs, hseq]
  · rw [hbs, hseq, drop_length]
    exact .nil _
  · rw [hc.settled]
    exact .nil _
  · rw [hpub.elsewhere hroot.successor hlogtemp (logFile_ne s' _).symm (logFile_ne s' _).symm]
    exact getElem?_insert_self _ _ _
  · simp only [hroot.successor.checkpoint]
    refine ⟨by rw [hbs, hseq]; rfl, ?_, file, ?_, snapshotHolds_describe henc hv4 hep⟩
    · unfold BoundaryAt
      rw [if_pos (by rw [hroot.selected]; rfl)]
      exact ⟨hbs.symm, rfl⟩
    · have hsn : s'.snapshotFile = .snapshot generation := by
        unfold snapshotFile
        rw [hroot.successor.metadata]; rfl
      rw [hsn, hpub.elsewhere hroot.successor rfl (by simp) (by simp)]
      unfold rotationBase
      rw [getElem?_insert_ne _ _ hlogne, getElem?_insert_self]
  · obtain ⟨hsel, rfl⟩ := hw hf
    have h0 : s'.base.offset = 0 := rfl
    refine ⟨hsel, hc.settled, ⟨⟨?_, ?_, fun _ => ⟨?_, rfl, rfl⟩⟩, rfl, rfl⟩⟩
    · exact Nat.zero_le _
    · simp [LogicalWal.synchronizedBytes, File.empty]
    · rw [h0]; rfl

/-- **The new root of a first checkpoint** holds the same segment, behind the new image. -/
theorem Good.checkpointed (hc : Taken t s frames c) (hplain : s.rotation = none)
    (hroot : Checkpointed N s c generation file bytes s')
    (henc : Snapshot.encode N body c defaultLimit = .ok file)
    (hfree : Name.snapshot generation ∉ t.store.dir)
    (hpub : Published N (t.store.dir.insert (.snapshot generation) file) bytes s'.selector d)
    {selected : Selected} (hident : selected.metadata.identity = s.metadata.identity)
    (hw : w.fenced = false → selected = s' ∧ w = t.store.wal) :
    Good N { t with store := ⟨d, w, selected⟩, image := some (body, t.log.length) } s' frames
      [] 0 frames.length := by
  have hseq := h.boundary_sequence hc
  obtain ⟨hv4, hep⟩ := h.boundary_valid hc
  have hbase := hroot.base h.sourced hplain h.framed hc.boundary
  have hident' : s'.metadata.identity = s.metadata.identity := by rw [hroot.successor.metadata]; rfl
  have hrot : s'.rotation = none := by rw [hroot.selected]; rfl
  have hlogf : s'.logFile = s.logFile := by unfold logFile; rw [hrot, hplain]
  have hrooted : Rooted N (t.store.dir.insert (.snapshot generation) file) s :=
    h.rooted.insert hfree (snapshot_recognized hroot.successor.next)
  have hlogtemp := logFile_isTemp s
  refine ⟨?_, hroot.sourced h.sourced h.framed hc.boundary, h.below, ?_, ?_, ?_, ?_, ?_,
    hident.trans hident'.symm,
    fun hf => ?_⟩
  · exact Published.rooted_successor hrooted hroot.successor
      (hroot.decodes (validate_dataManifest h.sourced hplain hroot.successor.next h.framed
        hc.boundary henc))
      (Control.decode_encode hroot.encoded).2.2 hpub
  · rw [hbase]; exact h.base_le
  · rw [hbase]; exact h.framed
  · rw [hc.settled]
    exact .nil _
  · rw [hlogf, hpub.elsewhere hroot.successor hlogtemp (logFile_ne s _).symm (logFile_ne s _).symm,
      getElem?_insert_ne _ _ (logFile_ne s _)]
    have := (h.intact hc.settled).log_file
    rw [this]
    simp [cutBytes]
  · simp only [hroot.successor.checkpoint]
    refine ⟨?_, ?_, file, ?_, snapshotHolds_describe henc hv4 hep⟩
    · rw [hbase, ← hseq, hc.boundary, h.framed.end_sequence, h.framed.length]
    · unfold BoundaryAt
      rw [if_neg (by rw [hrot]; decide)]
      refine ⟨le_refl _, ?_⟩
      rw [take_length, hbase]
      exact hc.boundary
    · have hsn : s'.snapshotFile = .snapshot generation := by
        unfold snapshotFile
        rw [hroot.successor.metadata]; rfl
      rw [hsn, hpub.elsewhere hroot.successor rfl (by simp) (by simp), getElem?_insert_self]
  · obtain ⟨hsel, rfl⟩ := hw hf
    obtain ⟨-, -, hlink⟩ := h.live hf
    exact ⟨hsel, hc.settled, hlink.sound, hlink.content, by rw [hbase]; exact hlink.synchronized⟩

omit h in
theorem Holds.not_temp (h : Holds s n) : n.isTemp = false := by
  rcases h with rfl | rfl | rfl | h
  · rfl
  · rfl
  · rfl
  rcases Prune.mem_dependencies.1 h with rfl | rfl | ⟨-, rfl⟩
  · rfl
  · exact logFile_isTemp s
  · rfl

theorem Good.holds_mem (hn : Holds s n) : n ∈ t.store.dir := by
  rcases hn with rfl | rfl | rfl | hn
  · exact h.rooted.current_mem
  · exact h.rooted.lock
  · exact h.rooted.manifestLock
  rcases Prune.mem_dependencies.1 hn with rfl | rfl | ⟨hc, rfl⟩
  · exact h.rooted.manifest_mem
  · exact mem_dir_iff.2 ⟨_, h.log_file⟩
  · rcases h.covered with ⟨hnone, -⟩ | ⟨-, -, file, -, -, -, hfile, -⟩
    · rw [hnone] at hc
      cases hc
    · exact mem_dir_iff.2 ⟨file, hfile⟩

end

/-- Nothing the old root rests on has changed. -/
structure Kept (t : Traced) (s : Selected) (e : Dir) : Prop where
  same : ∀ n, Holds s n → e[n]? = t.store.dir[n]?
  recognized : ∀ n ∈ e, n.recognized

theorem Kept.insert (h : Kept t s e) (hn : ¬ Holds s n) (hr : n.recognized = true) :
    Kept t s (e.insert n b) := by
  refine ⟨fun m hm => ?_, fun m hm => ?_⟩
  · have hne : n ≠ m := by
      rintro rfl
      exact hn hm
    rw [getElem?_insert_ne _ _ hne]
    exact h.same m hm
  · rcases mem_insert.1 hm with hc | hm
    · rw [← eq_of_compare hc]; exact hr
    · exact h.recognized m hm

theorem Kept.upto (h : Kept t s e) (hup : Upto e d) : Kept t s d :=
  ⟨fun n hn => (hup n hn.not_temp).trans (h.same n hn), hup.recognized h.recognized⟩

section

variable (h : Good N t s frames inflight cut k)
include h

theorem Good.kept : Kept t s t.store.dir := ⟨fun _ _ => rfl, h.rooted.recognized⟩

theorem Good.kept_insert (he : Kept t s e)
    (hn : n ∉ t.store.dir) (hr : n.recognized = true) : Kept t s (e.insert n b) :=
  he.insert (fun hh => hn (h.holds_mem hh)) hr

theorem Good.kept_manifest (he : Kept t s e)
    (hnext : nextGeneration s.metadata.generation = .ok generation) :
    Kept t s (e.insert (.manifest generation) b) := by
  refine he.insert (fun hh => ?_) (by simpa [recognized] using (nextGeneration_ne hnext).1)
  rcases hh with hh | hh | hh | hh
  · cases hh
  · cases hh
  · cases hh
  · have := Prune.notManifest_deps hh rfl
    unfold manifestFile file at this
    rw [h.sourced.selector] at this
    exact (nextGeneration_ne hnext).2 (by injection this)

end

/-! ## Checkpoints: every way they may end -/

/-- What a checkpoint leaves: the old root with its files, or the new root and the new image. -/
inductive Left (N : Native) (t : Traced) (s : Selected) (frames : Frames) (body : Bytes)
    (d : Dir) : Prop where
  | old (kept : Kept t s d)
  | rotated {draws : Draws} {c : SnapshotContext} {generation : UInt64} {file bytes : Bytes}
      {s' : Selected}
      (taken : Taken t s frames c) (later : s.checkpoint.isSome)
      (root : Rotated N draws s c generation file bytes s')
      (encoded : Snapshot.encode N body c defaultLimit = .ok file)
      (free : Name.snapshot generation ∉ t.store.dir) (freeLog : s'.logFile ∉ t.store.dir)
      (published : Published N (rotationBase t.store.dir generation file s') bytes s'.selector d)
  | checkpointed {c : SnapshotContext} {generation : UInt64} {file bytes : Bytes} {s' : Selected}
      (taken : Taken t s frames c) (first : s.checkpoint = none)
      (root : Checkpointed N s c generation file bytes s')
      (encoded : Snapshot.encode N body c defaultLimit = .ok file)
      (free : Name.snapshot generation ∉ t.store.dir)
      (published : Published N (t.store.dir.insert (.snapshot generation) file) bytes s'.selector d)

section

variable (h : Good N t s frames inflight cut k) (hc : Taken t s frames c)
include h hc

theorem Good.left_rotating
    (hlater : s.checkpoint.isSome) (hr : Rotating draws s body c N t.store.dir d) :
    Left N t s frames body d := by
  cases hr with
  | before hup => exact .old (h.kept.upto hup)
  | snapped hnext hs =>
    exact .old ((h.kept_insert h.kept hs.2.1 (snapshot_recognized hnext)).upto hs.2.2)
  | @publishing g file bytes s' root henc hfree hlog hp =>
    have hbase : Kept t s (rotationBase t.store.dir g file s') :=
      h.kept_insert (h.kept_insert h.kept hfree (snapshot_recognized root.successor.next)) hlog
        (log_recognized s')
    rcases hp with (hup | ⟨-, hup⟩) | hpub
    · exact .old (hbase.upto hup)
    · rw [root.successor.selector] at hup
      exact .old ((h.kept_manifest hbase root.successor.next).upto hup)
    · exact .rotated hc hlater root henc hfree hlog hpub

theorem Good.left_checkpointing (hfirst : s.checkpoint = none)
    (hr : Checkpointing s body c N t.store.dir d) : Left N t s frames body d := by
  cases hr with
  | before hup => exact .old (h.kept.upto hup)
  | snapped hnext hs =>
    exact .old ((h.kept_insert h.kept hs.2.1 (snapshot_recognized hnext)).upto hs.2.2)
  | @publishing g file bytes s' root henc hfree hp =>
    have hbase : Kept t s (t.store.dir.insert (.snapshot g) file) :=
      h.kept_insert h.kept hfree (snapshot_recognized root.successor.next)
    rcases hp with (hup | ⟨-, hup⟩) | hpub
    · exact .old (hbase.upto hup)
    · rw [root.successor.selector] at hup
      exact .old ((h.kept_manifest hbase root.successor.next).upto hup)
    · exact .checkpointed hc hfirst root henc hfree hpub

end

/-- The root that a checkpoint of `s` publishes. -/
structure NewRoot (s s' : Selected) (log : List Bytes) : Prop where
  next : nextGeneration s.metadata.generation = .ok s'.metadata.generation
  parent : s'.metadata.parent = some ⟨s.metadata.generation, s.selector.digest⟩
  identity : s'.metadata.identity = s.metadata.identity
  /-- The numbering goes on where the old segment ends. -/
  rotated : s.checkpoint.isSome → s'.rotation.isSome ∧ s'.context.sequence.toNat = log.length + 1 ∧
    s'.rotation.any (fun r => decide (r.previous.selector = s.selector)) = true
  plain : s.checkpoint = none → s'.logFile = s.logFile ∧ s'.context.sequence.toNat = 1

/-- What is left of a checkpoint of `t`: the old root under the old image, or the new root under
the new one. -/
inductive Outcome (N : Native) (t t' : Traced) (s : Selected) (frames inflight : Frames) (cut k : ℕ)
    (body : Bytes) (result : Ending StreamError Selected) : Prop where
  | old (good : Good N t' s frames inflight cut k) (image : t'.image = t.image)
      (failed : ∀ r, result ≠ .done r)
  | new {s' : Selected} {frames' : Frames} {k' : ℕ} (good : Good N t' s' frames' [] 0 k')
      (image : t'.image = some (body, t.log.length)) (root : NewRoot s s' t.log)
      (settled : t.inflight = []) (done : ∀ r, result = .done r → r = s')
      (segment : frames' = if s.checkpoint.isSome then [] else frames)

theorem Good.current_changed (h : Good N t s frames inflight cut k) {frames' inflight' : Frames}
    {cut' k' : ℕ} (h' : Good N t' s' frames' inflight' cut' k')
    (hnext : nextGeneration s.metadata.generation = .ok s'.metadata.generation) :
    t'.store.dir[Name.current]? ≠ t.store.dir[Name.current]? := by
  obtain ⟨b, hb, -, hdec⟩ := h.rooted.current
  obtain ⟨b', hb', -, hdec'⟩ := h'.rooted.current
  intro heq
  rw [hb, hb'] at heq
  cases heq
  have heq : s.selector = s'.selector := Except.ok.inj (hdec.symm.trans hdec')
  have h₁ := h.sourced.selector
  rw [heq, h'.sourced.selector] at h₁
  exact (nextGeneration_ne hnext).2 h₁

theorem Good.newRoot_rotated (h : Good N t s frames inflight cut k) (hc : Taken t s frames c)
    (hsome : s.checkpoint.isSome) (hroot : Rotated N draws s c generation file bytes s') :
    NewRoot s s' t.log := by
  refine ⟨by rw [hroot.successor.metadata]; exact hroot.successor.next,
    by rw [hroot.successor.metadata]; rfl,
    by rw [hroot.successor.metadata]; rfl,
    fun _ => ⟨by rw [hroot.selected]; rfl, ?_,
      by rw [hroot.selected]; simp [RotatingManifest.select, rotatingManifest]⟩,
    fun hn => by rw [hn] at hsome; cases hsome⟩
  have hb := h.boundary_sequence hc
  have := h.below
  have hb' : s'.context.base.sequence.toNat = t.log.length := by
    show s'.base.sequence.toNat = _
    rw [hroot.base, ← hb]
  rw [Context.sequence_of_base (by rw [hb']; omega), hb']

theorem newRoot_checkpointed (hplain : s.rotation = none) (hnone : s.checkpoint = none)
    (hroot : Checkpointed N s c generation file bytes s') (log : List Bytes) :
    NewRoot s s' log := by
  refine ⟨by rw [hroot.successor.metadata]; exact hroot.successor.next,
    by rw [hroot.successor.metadata]; rfl,
    by rw [hroot.successor.metadata]; rfl,
    fun hs => (by rw [hnone] at hs; cases hs), fun _ => ⟨?_, by rw [hroot.selected]; rfl⟩⟩
  have hrot : s'.rotation = none := by rw [hroot.selected]; rfl
  unfold logFile
  rw [hrot, hplain]

theorem checkpointReady_live (h : w.checkpointReady = .ok ()) : w.fenced = false := by
  unfold LogicalWal.checkpointReady at h
  split at h
  · cases h
  · rename_i hn
    push Not at hn
    simpa using hn.1

/-- **Whatever fails in a checkpoint, one of two roots is selected**, and the history is there. -/
theorem Good.checkpoint (h : Good N t s frames inflight cut k) (draws : Draws)
    (acquire : Option PersistError) (body : Bytes) (publication : UInt64) (fs : List Fault) :
    Outcome N t (t.step N (.checkpoint draws acquire body publication fs)) s frames inflight cut k
      body
      (t.store.checkpoint N draws acquire body publication fs).1 := by
  rw [Traced.step]
  unfold Store.checkpoint
  -- refused before anything happens
  have hsame : ∀ e : StreamError, Outcome N t { t with
      store := t.store
      image := if t.store.dir[Name.current]? = t.store.dir[Name.current]? then t.image
        else some (body, t.log.length) }
      s frames inflight cut k body (.error e) := by
    intro e
    rw [if_pos rfl]
    exact .old h rfl fun _ => by simp
  split
  · exact hsame _
  rename_i hready
  split
  · exact hsame _
  obtain ⟨hsel, hnil, hlink⟩ := h.live (checkpointReady_live hready)
  set c : SnapshotContext := ⟨t.store.wal.progress.synchronized, publication⟩ with hcdef
  have hc : Taken t s frames c := ⟨hlink.synchronized, hnil⟩
  -- the old root, whatever else has changed
  have hold : ∀ {d : Dir} {w : LogicalWal} {result : Ending StreamError Selected}, Kept t s d →
      (w.fenced = false → w = t.store.wal) → (∀ r, result ≠ .done r) →
      Outcome N t ⟨⟨d, w, t.store.selected⟩, t.log, t.inflight,
        if d[Name.current]? = t.store.dir[Name.current]? then t.image
        else some (body, t.log.length)⟩
        s frames inflight cut k body result := by
    intro d w result hk hw hres
    rw [if_pos (hk.same _ (.inl rfl))]
    exact .old (h.keep hk.same hk.recognized hw) rfl hres
  have hident : t.store.selected.metadata.identity = s.metadata.identity := by rw [hsel]
  have hnew : ∀ {t' : Traced} {s' : Selected} {frames' : Frames} {k' : ℕ}
      {result : Ending StreamError Selected}, Good N t' s' frames' [] 0 k' → t'.log = t.log →
        t'.inflight = t.inflight →
      t'.image = some (body, t.log.length) → NewRoot s s' t.log → (∀ r, result = .done r → r = s') →
      frames' = (if s.checkpoint.isSome then [] else frames) →
      Outcome N t ⟨t'.store, t.log, t.inflight,
      if t'.store.dir[Name.current]? = t.store.dir[Name.current]? then t.image
        else some (body, t.log.length)⟩ s frames inflight cut k body result := by
    rintro ⟨st', log', inflight', image'⟩ s' frames' k' result hg rfl rfl rfl hroot hdone hseg
    rw [if_neg (h.current_changed hg hroot.next)]
    exact .new hg rfl hroot hnil hdone hseg
  -- an error or a death
  have hleft : ∀ {d : Dir} {result : Ending StreamError Selected}, Left N t s frames body d →
    (∀ r, result ≠ .done r) →
      Outcome N t ⟨⟨d, { t.store.wal with fenced := true }, t.store.selected⟩, t.log, t.inflight,
        if d[Name.current]? = t.store.dir[Name.current]? then t.image
        else some (body, t.log.length)⟩
        s frames inflight cut k body result := by
    intro d result hl hres
    cases hl with
    | old hk => exact hold hk (fun hf => by cases hf) hres
    | rotated hc hlater root henc hfree hlog hpub =>
      exact hnew (h.rotated hc root henc hfree hlog hpub hident fun hf => by cases hf) rfl rfl rfl
        (h.newRoot_rotated hc hlater root) (fun r hr => absurd hr (hres r)) (by rw [if_pos hlater])
    | checkpointed hc hfirst root henc hfree hpub =>
      exact hnew (h.checkpointed hc (h.sourced.plain hfirst) root henc hfree hpub hident
        fun hf => by cases hf) rfl rfl rfl
        (newRoot_checkpointed (h.sourced.plain hfirst) hfirst root t.log)
          (fun r hr => absurd hr (hres r)) (by simp [hfirst])
  unfold Store.publish
  rw [hsel]
  by_cases hlater : s.checkpoint.isSome
  · rw [if_pos hlater]
    have hspec := spec_publishRotation (N := N) draws s body c t.store.dir t.store.dir fs
      (Upto.refl _)
    rcases hr : publishRotation N draws s body c t.store.dir fs with ⟨s' | e | _, d, fs'⟩ <;>
      rw [hr] at hspec
    · obtain ⟨g, file, bytes, root, henc, hfree, hlog, hpub⟩ := hspec
      have hadopt : t.store.adopt d s' = ⟨d, ⟨.empty, { t.store.wal.progress with
          written := s'.base, synchronized := s'.base, published := some s'.base }, false⟩,
            s'⟩ := by
        unfold Store.adopt
        rw [hsel, if_pos hlater]
      simp only [hadopt]
      exact hnew (h.rotated hc root henc hfree hlog hpub (by rw [root.successor.metadata]; rfl)
        fun _ => ⟨rfl, rfl⟩)
        rfl rfl rfl (h.newRoot_rotated hc hlater root)
          (fun r hr => by injection hr with hr; exact hr.symm)
        (by rw [if_pos hlater])
    · exact hsel ▸ hleft (h.left_rotating hc hlater hspec) fun r => by simp
    · exact hsel ▸ hleft (h.left_rotating hc hlater hspec) fun r => by simp
  · have hfirst : s.checkpoint = none := by simpa using hlater
    rw [if_neg hlater]
    have hspec := spec_publishCheckpoint (N := N) draws s body c t.store.dir t.store.dir fs
      (Upto.refl _)
    rcases hr : publishCheckpoint N draws s body c t.store.dir fs with ⟨s' | e | _, d, fs'⟩ <;>
      rw [hr] at hspec
    · obtain ⟨g, file, bytes, root, henc, hfree, hpub⟩ := hspec
      have hadopt : t.store.adopt d s' = ⟨d, t.store.wal, s'⟩ := by
        unfold Store.adopt
        rw [hsel, if_neg hlater]
      simp only [hadopt]
      exact hnew (h.checkpointed hc (h.sourced.plain hfirst) root henc hfree hpub
        (by rw [root.successor.metadata]; rfl)
        fun _ => ⟨rfl, rfl⟩) rfl rfl rfl (newRoot_checkpointed (h.sourced.plain hfirst) hfirst root
          t.log)
        (fun r hr => by injection hr with hr; exact hr.symm) (by rw [if_neg hlater])
    · exact hsel ▸ hleft (h.left_checkpointing hc hfirst hspec) fun r => by simp
    · exact hsel ▸ hleft (h.left_checkpointing hc hfirst hspec) fun r => by simp

/-! ## Creation -/

/-- A spec of a run that ends well. -/
abbrev Ends {α : Type} (Q : α → Dir → Prop) : Post Dir StreamError α :=
  ⟨Q, fun _ _ => True, fun _ => True⟩

theorem spec_openOrCreate (n : Name) (hn : n ∉ e) (ht : n.isTemp = false) :
    Spec (Upto e) (openOrCreate n) (Ends fun _ => Upto (e.insert n [])) := by
  refine spec_atomic (fun d _ d' hup h => ⟨?_, trivial, trivial⟩)
    (fun _ _ _ _ => trivial) fun _ _ => ⟨trivial, trivial⟩
  cases h
  rw [if_neg fun h => hn ((hup.mem ht).1 h)]
  intro m hm
  by_cases heq : n = m
  · subst heq; rw [getElem?_insert_self, getElem?_insert_self]
  · rw [getElem?_insert_ne _ _ heq, getElem?_insert_ne _ _ heq]; exact hup m hm

/-- The directory with its two lock files. -/
def locked : Dir := ((∅ : Dir).insert .lock []).insert .manifestLock []

theorem mem_locked : n ∈ locked ↔ n = .manifestLock ∨ n = .lock := by
  unfold locked
  rw [mem_insert, mem_insert]
  constructor
  · rintro (h | h | h)
    · exact .inl (eq_of_compare h).symm
    · exact .inr (eq_of_compare h).symm
    · exact absurd h not_mem_empty
  · rintro (rfl | rfl)
    · exact .inl Std.ReflCmp.compare_self
    · exact .inr (.inl Std.ReflCmp.compare_self)

variable {identity : CompatibilityIdentity} {storeId : StoreId}

/-- The metadata of an empty store. -/
def emptyManifest (identity : CompatibilityIdentity) (storeId : StoreId) : EmptyManifest :=
  ⟨storeId, 1, 1, (2, 0), identity, none⟩

theorem spec_createEmpty (draws : Draws) :
    Spec (Upto ∅) (createEmpty N draws identity storeId) (Ends fun r d =>
      r.1 = emptyManifest identity storeId ∧ (emptyManifest identity storeId).validate = .ok () ∧
        ∃ bytes, Control.encode N (Wire.manifest N)
        (emptyManifest identity storeId) emptyMagic = .ok bytes ∧
          r.2 = .fromManifest (emptyManifest identity storeId) (N.hash bytes) ∧
            Published N locked bytes r.2 d) := by
  refine spec_bind (spec_liftControl fun _ _ _ => trivial) fun _ => Spec.fact fun _ => ?_
  refine spec_bind (spec_observe fun _ _ => trivial) fun _ => ?_
  refine spec_bind (spec_openOrCreate .lock not_mem_empty rfl) fun _ => ?_
  refine spec_bind (spec_openOrCreate .manifestLock ?_ rfl) fun _ => ?_
  · intro h
    rcases mem_insert.1 h with h | h
    · have := eq_of_compare h
      cases this
    · exact not_mem_empty h
  refine spec_bind (spec_observe fun _ _ => trivial) fun _ => ?_
  refine spec_bind (spec_liftControl fun _ _ _ => trivial) fun _ => Spec.fact fun hv => ?_
  refine spec_bind (spec_liftControl fun _ _ _ => trivial) fun bytes => Spec.fact fun hbytes => ?_
  refine spec_bind (Spec.stops (spec_publishBytes draws bytes _ true) fun _ _ => trivial) fun _ =>
    ?_
  exact spec_pure fun d h => ⟨rfl, hv, bytes, hbytes, rfl, h⟩

/-- The manifest of a plain log. -/
def logManifest (control : EmptyManifest) (selector : CurrentSelector) (generation : UInt64)
    (segment : Digest) :
    LogicalManifest :=
  ⟨{ control with generation := generation, parent := some ⟨control.generation, selector.digest⟩ },
    segment⟩

/-- A created log. -/
structure Created (N : Native) (control : EmptyManifest) (selector : CurrentSelector)
    (segment : Digest)
    (generation : UInt64) (bytes : Bytes) (w : LogicalWal) (s : Selected) : Prop where
  next : nextGeneration control.generation = .ok generation
  encoded : Control.encode N (Wire.logicalManifest N)
    (logManifest control selector generation segment) logicalMagic = .ok bytes
  selected : s = (logManifest control selector generation segment).select
    (.fromManifest (logManifest control selector generation segment).metadata (N.hash bytes))
  wal : w = .fresh s.base none

theorem spec_createLog (draws : Draws) (control : EmptyManifest) (selector : CurrentSelector) :
    Spec (Upto e) (createLog N draws control selector) (Ends fun r d => firstLog ∉ e ∧
      ∃ generation bytes, Created N control selector draws.segment generation bytes r.1 r.2 ∧
        Published N (e.insert .firstLog []) bytes r.2.selector d) := by
  refine spec_bind (spec_observe fun _ _ => trivial) fun selected => ?_
  have hrest : Spec (Upto e) (do
      let generation ← liftPersist (nextGeneration control.generation)
      let manifest : LogicalManifest := logManifest control selector generation draws.segment
      let bytes ← liftControl (Control.encode N (Wire.logicalManifest N) manifest logicalMagic)
      let selector := fromManifest manifest.metadata (N.hash bytes)
      Dir.createNew persistIO .firstLog
      Dir.sync persistIO
      Dir.sync persistIO
      publishBytes N draws bytes selector false
      let s := manifest.select selector
      pure (LogicalWal.fresh s.base none, s)) (Ends fun r d => firstLog ∉ e ∧
      ∃ generation bytes, Created N control selector draws.segment generation bytes r.1 r.2 ∧
        Published N (e.insert .firstLog []) bytes r.2.selector d) := by
    refine spec_bind (spec_liftPersist fun _ _ _ => trivial) fun g => Spec.fact fun hnext => ?_
    refine spec_bind (spec_liftControl fun _ _ _ => trivial) fun bytes => Spec.fact fun hbytes => ?_
    refine spec_bind (Spec.stops (spec_createNew e .firstLog rfl) fun _ _ => trivial) fun _ =>
      Spec.fact fun hfree => ?_
    refine spec_bind (spec_syncs fun _ _ => trivial) fun _ => ?_
    refine spec_bind (spec_syncs fun _ _ => trivial) fun _ => ?_
    refine spec_bind (Spec.stops (spec_publishBytes draws bytes _ false) fun _ _ => trivial)
      fun _ => ?_
    exact spec_pure fun d h => ⟨hfree, g, bytes, ⟨hnext, hbytes, rfl, rfl⟩, h⟩
  split
  · exact spec_bind (spec_throw fun _ _ => trivial) fun _ => hrest
  · exact hrest

theorem create_spec {emptyDraws logDraws : Draws}
    (h : Store.create N emptyDraws logDraws identity storeId = some st) :
    (emptyManifest identity storeId).validate = .ok () ∧ ∃ ebytes e selector generation bytes,
      Control.encode N (Wire.manifest N) (emptyManifest identity storeId) emptyMagic = .ok ebytes ∧
      selector = .fromManifest (emptyManifest identity storeId) (N.hash ebytes) ∧
      Published N locked ebytes selector e ∧ firstLog ∉ e ∧
      Created N (emptyManifest identity storeId) selector logDraws.segment generation bytes st.wal
        st.selected ∧
      Published N (e.insert .firstLog []) bytes st.selected.selector st.dir := by
  have hspec : Spec (Upto ∅) (createEmpty N emptyDraws identity storeId >>= fun r =>
      createLog N logDraws r.1 r.2) (Ends fun r d =>
        (emptyManifest identity storeId).validate = .ok () ∧
      ∃ ebytes e selector generation bytes,
        Control.encode N (Wire.manifest N) (emptyManifest identity storeId) emptyMagic =
        .ok ebytes ∧
        selector = .fromManifest (emptyManifest identity storeId) (N.hash ebytes) ∧
        Published N locked ebytes selector e ∧ firstLog ∉ e ∧
        Created N (emptyManifest identity storeId) selector logDraws.segment generation bytes r.1
        r.2 ∧
        Published N (e.insert .firstLog []) bytes r.2.selector d) := by
    refine spec_bind (spec_createEmpty emptyDraws) fun r => ?_
    obtain ⟨control, selector⟩ := r
    refine Spec.of_eq fun d1 h₁ => ?_
    obtain ⟨hcontrol, hv, ebytes, henc, hsel, hpub⟩ := h₁
    simp only at hcontrol
    subst hcontrol
    refine Spec.mono (spec_createLog (e := d1) logDraws _ selector) (fun d hd => hd ▸ Upto.refl _)
      (fun r d hr => ?_)
      (fun _ _ _ => trivial) fun _ _ => trivial
    obtain ⟨hfree, g, bytes, hc, hp⟩ := hr
    exact ⟨hv, ebytes, d1, selector, g, bytes, henc, hsel, hpub, hfree, hc, hp⟩
  have := hspec ∅ [] (Upto.refl _)
  unfold Store.create at h
  simp only at h
  split at h
  · rename_i w s d fs hrun
    cases h
    rw [hrun] at this
    exact this
  · cases h

/-- A digest that stands for "no record" is never a content hash. -/
def Native.NoZero (N : Native) : Prop := ∀ b, N.hash b ≠ zeroDigest

theorem Created.sourced {segment : Digest}
    (h : Created N (emptyManifest identity storeId) selector segment generation bytes w s)
    (hv : (emptyManifest identity storeId).validate = .ok ()) (hv4 : storeId.isV4 = true)
    (hseg : segment ≠ zeroDigest)
    (hN : N.NoZero) : Sourced s ∧ (logManifest (emptyManifest identity storeId) selector generation
      segment).validate = .ok () := by
  have hsel := h.selected
  have hnext := nextGeneration_ok h.next
  unfold EmptyManifest.validate emptyManifest at hv
  simp only [ne_eq, not_true_eq_false, if_false] at hv
  split at hv
  · cases hv
  rename_i hid
  push Not at hid
  simp only [if_true] at hv
  have hmeta : (logManifest (emptyManifest identity storeId) selector generation
      segment).metadata.validate = .ok () := by
    unfold EmptyManifest.validate logManifest emptyManifest
    simp only [ne_eq, not_true_eq_false, if_false]
    rw [if_neg (by push Not; exact ⟨hid.1, hid.2.1, (nextGeneration_ne h.next).1⟩), if_pos]
    · exact hv
    · exact ⟨by decide, checkedAdd_eq_some.2 hnext⟩
  refine ⟨⟨?_, ?_, ?_, ?_, ?_, ?_, ?_, ?_, ?_, ?_⟩, ?_⟩
  · rw [hsel]; exact hmeta
  · rw [hsel]; exact hv4
  · rw [hsel]; rfl
  · rw [hsel]; rfl
  · rw [hsel]; intro h0; cases h0
  · rw [hsel]; exact hseg
  · rw [hsel]; exact hN bytes
  · rw [hsel]; intro _; rfl
  · rw [hsel]; intro _; rfl
  · rw [hsel]; rfl
  · unfold LogicalManifest.validate
    rw [hmeta]
    simp only
    rw [if_neg]
    push Not
    exact ⟨hv4, hseg⟩

theorem good_initial {emptyDraws logDraws : Draws} (hN : N.NoZero) (hv4 : storeId.isV4 = true)
    (hseg : logDraws.segment ≠ zeroDigest) (h : Store.create N emptyDraws logDraws identity
      storeId = some st) :
    Good N (.initial st) st.selected [] [] 0 0 := by
  obtain ⟨hv, ebytes, e, selector, generation, bytes, -, hsel, hpub, hfree, hc, hpub'⟩ :=
    create_spec h
  obtain ⟨hsrc, hlv⟩ := hc.sourced hv hv4 hseg hN
  obtain ⟨hdec, htake, hlen⟩ := Control.decode_encode hc.encoded
  have hs := hc.selected
  have hrot : st.selected.rotation = none := by rw [hs]; rfl
  have hlogf : st.selected.logFile = .firstLog := by unfold logFile; rw [hrot]
  -- the first publication leaves the locks, the empty manifest and `CURRENT`
  obtain ⟨cur, -, -, hup⟩ := hpub
  have hsfile : selector.file = .manifest 1 := by rw [hsel]; rfl
  have hmem : ∀ n : Name, n.isTemp = false → (n ∈ e ↔ n = .current ∨ n = .manifest 1 ∨
      n ∈ locked) := by
    intro n hn
    rw [hup.mem hn, mem_insert, mem_insert, hsfile]
    constructor
    · rintro (h | h | h)
      · exact .inl (eq_of_compare h).symm
      · exact .inr (.inl (eq_of_compare h).symm)
      · exact .inr (.inr h)
    · rintro (rfl | rfl | h)
      · exact .inl Std.ReflCmp.compare_self
      · exact .inr (.inl Std.ReflCmp.compare_self)
      · exact .inr (.inr h)
  have hrec : ∀ n ∈ e.insert .firstLog [], n.recognized := by
    intro n hn
    rcases mem_insert.1 hn with h | h
    · rw [← eq_of_compare h]; rfl
    by_cases ht : n.isTemp = true
    · exact recognized_of_isTemp ht
    rcases (hmem n (by simpa using ht)).1 h with rfl | rfl | h
    · rfl
    · rfl
    · rcases mem_locked.1 h with rfl | rfl <;> rfl
  have hdecode : decodeRoot N bytes st.selected.selector st.selected.metadata.identity =
      .ok st.selected := by
    unfold decodeRoot LogicalManifest.decode
    rw [htake, if_neg (by decide), if_neg (by decide), checked_of (checked_of hdec hlv)]
    · simp only
      rw [hs]
      rfl
    · rw [hs]
      exact matchSelector_self _ _
  have hup' := hpub'
  obtain ⟨cur', -, -, hup'⟩ := hup'
  have hident := (validate_ok hsrc.metadata).2.2.1
  have hrooted : Rooted N st.dir st.selected :=
    Published.rooted hrec (mem_insert.2 (.inr
      ((hmem _ rfl).2 (.inr (.inr (mem_locked.2 (.inr rfl)))))))
      (mem_insert.2 (.inr ((hmem _ rfl).2 (.inr (.inr (mem_locked.2 (.inl rfl)))))))
      (by rw [hs]; rfl) (by rw [hs]; exact (nextGeneration_ne hc.next).1) hident hdecode hlen hpub'
  have hbase0 : st.selected.base.sequence.toNat = 0 := by
    show (st.selected.context.sequence - 1).toNat = 0
    rw [hsrc.first hrot]; rfl
  refine ⟨hrooted, hsrc, by show 0 + 0 + 1 < 2 ^ 64; decide, ?_, ?_, .nil _, ?_, ?_, rfl,
    fun _ => ⟨rfl, rfl, ?_⟩⟩
  · rw [hbase0]; exact Nat.zero_le _
  · rw [hbase0]; exact .nil _
  · show st.dir[st.selected.logFile]? = _
    have hne : st.selected.selector.file ≠ .firstLog := by rw [hs]; simp [file]
    rw [hlogf, hup' _ rfl, getElem?_insert_ne _ _ (by simp), getElem?_insert_ne _ _ hne,
      getElem?_insert_self]
    rfl
  · have : st.selected.checkpoint = none := by rw [hs]; rfl
    rw [this]
    rfl
  · show Linked st.wal st.selected []
    rw [hc.wal]
    exact ⟨LogicalWal.sound_fresh rfl _, rfl, rfl⟩

/-! ## Every run -/

/-- The directory holds the history of the run. -/
def Held (N : Native) (t : Traced) : Prop :=
  ∃ s frames inflight cut k, Good N t s frames inflight cut k

theorem step_held (hN : N.Lawful) {t : Traced} {a : Action} (h : t.stepBelow N a = some t')
    (ht : Held N t) :
    Held N t' := by
  unfold Traced.stepBelow at h
  split at h
  swap
  · cases h
  rename_i hbelow
  cases h
  obtain ⟨s, frames, inflight, cut, k, hg⟩ := ht
  cases a with
  | commit bodies compression limit env =>
    obtain ⟨_, _, _, hg'⟩ := hg.commit bodies compression limit env hbelow
    exact ⟨s, _, _, _, k, hg'⟩
  | checkpoint draws acquire body publication fs =>
    cases hg.checkpoint draws acquire body publication fs with
    | old hg' | new hg' => exact ⟨_, _, _, _, _, hg'⟩
  | prune acquire leases fs => exact ⟨s, frames, inflight, cut, k, hg.prune acquire leases fs⟩
  | reopen =>
    obtain ⟨_, _, _, hg'⟩ := hg.reopen hN
    exact ⟨s, _, _, _, k, hg'⟩

/-- **In every run that numbers no record `u64::MAX`, the directory holds the history.** -/
theorem run_held (hN : N.Lawful) {as : List Action} {t : Traced}
    (h : run (Traced.stepBelow N) t as = some t') (ht : Held N t) : Held N t' :=
  run_invariant (fun hs => step_held hN hs) h ht

/-- A reopen adds to the history the first bodies of the group in flight, or nothing. -/
theorem reopen_log (hN : N.Lawful) (h : Held N t) :
    ∃ j, (t.step N .reopen).log = t.log ++ t.inflight.take j := by
  obtain ⟨s, frames, inflight, cut, k, hg⟩ := h
  cases hr : reopen N t.store.dir t.identity defaultLimit with
  | error e => exact ⟨0, by rw [Traced.step, hr, take_zero, append_nil]⟩
  | ok r =>
    obtain ⟨-, -, hlog, -⟩ := hg.reopened hN hr
    exact hlog

theorem step_log (hN : N.Lawful) {a : Action} (h : t.stepBelow N a = some t') (ht : Held N t) :
    t.log <+: t'.log := by
  unfold Traced.stepBelow at h
  split at h
  swap
  · cases h
  cases h
  cases a with
  | commit bodies compression limit env =>
    rw [Traced.step]
    split
    · exact prefix_rfl
    · unfold Traced.record
      repeat' split
      all_goals first | exact prefix_rfl | exact prefix_append _ _
  | checkpoint | prune => exact prefix_rfl
  | reopen =>
    obtain ⟨j, hlog⟩ := reopen_log hN ht
    exact hlog ▸ prefix_append _ _

end Selene.Persist
