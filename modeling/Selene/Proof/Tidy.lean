import Selene.Proof.StoreRun

/-!
# What interrupted checkpoints and prunes leave behind

A checkpoint of generation `g` writes `SNAPSHOT-(g+1)`, its segment and `MANIFEST-(g+1)`, in this
order. `Orphaned`: the snapshot is there and the manifest is not. Nothing ever removes such a
snapshot, and no checkpoint replaces it (`Good.stuck`).

`Tidy` is the other case: every manifest of the directory is readable, what is there of its
root's files is right, and the files of the next generation are there with their manifest or not
at all. From a tidy directory a prune removes what an interrupted checkpoint has left.
-/

namespace Selene.Persist

open Octets Disk Transition List Option Prune Selected

variable {N : Native} {t : Traced} {s : Selected} {frames inflight : Frames} {cut k : ℕ} {d e : Dir}

variable {selector : CurrentSelector} {d' : Dir} {bodies : List Bytes} {leases : List Name}
  {roots : List Prune.Root} {image : Option Bytes} {history : Option Selected} {p : Prune.Plan}
  {root : Prune.Root} {r : Selected}

/-! ## What a step may change -/

section

variable (h : Good N t s frames inflight cut k)
include h

theorem Good.commit_dir (bodies : List Bytes) (compression : Compression)
    (limit : ℕ) (env : LogicalWal.CommitEnv) {n : Name} (hn : n ≠ s.logFile) :
    (t.step N (.commit bodies compression limit env)).store.dir[n]? = t.store.dir[n]? := by
  rw [Traced.step]
  cases hg : t.store.wal.prepare N bodies compression limit with
  | error _ => rfl
  | ok g =>
    obtain ⟨-, -, hlive⟩ := framed_of_prepare (prepare_limit hg) hg
    obtain ⟨hsel, -, -⟩ := h.live hlive
    have hwal : ∀ w, (t.store.withWal w).dir[n]? = t.store.dir[n]? :=
      fun w => withWal_getElem? (by rw [hsel]; exact hn)
    simp only
    generalize (t.store.wal.commit env g).1 = w, (t.store.wal.commit env g).2 = r
    unfold Traced.record
    cases r with
    | ok _ => exact hwal w
    | error f => cases hd : f.durability <;> simp only [hd] <;> exact hwal w

theorem Good.prune_dir (acquire : Option PersistError) (leases : List Name) (fs : List Fault) :
    (t.step N (.prune acquire leases fs)).store.dir = t.store.dir ∨ ∃ p roots history,
      Prune.Planned N t.store.dir leases s p s roots history ∧
        Prune.Thinned t.store.dir p (t.step N (.prune acquire leases fs)).store.dir := by
  rw [Traced.step]
  unfold Store.prune
  split
  · exact .inl rfl
  rename_i hlive
  split
  · exact .inl rfl
  have := h.unlinks (by simpa using hlive) leases fs
  rcases hr : Prune.prune N leases t.store.selected t.store.dir fs with ⟨_ | _ | _, d', fs'⟩ <;>
    rw [hr] at this <;>
    exact this

theorem Good.checkpoint_dir (draws : Draws) (acquire : Option PersistError) (body : Bytes)
    (publication : UInt64) (fs : List Fault) :
    Upto t.store.dir (t.store.checkpoint N draws acquire body publication fs).2.dir ∨
      t.store.selected = s ∧ ∃ c, Taken t s frames c ∧ (s.checkpoint.isSome ∧
            Rotating draws s body c N t.store.dir
              (t.store.checkpoint N draws acquire body publication fs).2.dir ∨
          s.checkpoint = none ∧
            Checkpointing s body c N t.store.dir
              (t.store.checkpoint N draws acquire body publication fs).2.dir) := by
  unfold Store.checkpoint
  split
  · exact .inl (Upto.refl _)
  rename_i hready
  split
  · exact .inl (Upto.refl _)
  obtain ⟨hsel, hnil, hlink⟩ := h.live (checkpointReady_live hready)
  refine .inr ⟨hsel, ⟨t.store.wal.progress.synchronized, publication⟩, ⟨hlink.synchronized, hnil⟩,
    ?_⟩
  unfold Store.publish
  rw [hsel]
  have hadopt : ∀ d s', (t.store.adopt d s').dir = d :=
    fun d s' => by unfold Store.adopt; split <;> rfl
  by_cases hlater : s.checkpoint.isSome
  · rw [if_pos hlater]
    have hspec := spec_publishRotation (N := N) draws s body ⟨t.store.wal.progress.synchronized,
      publication⟩
      t.store.dir t.store.dir fs (Upto.refl _)
    refine .inl ⟨hlater, ?_⟩
    rcases hr : publishRotation N draws s body ⟨t.store.wal.progress.synchronized,
      publication⟩ t.store.dir fs
      with ⟨s' | err | _, d, fs'⟩ <;> rw [hr] at hspec
    · obtain ⟨g, file, bytes, root, henc, hfree, hlog, hpub⟩ := hspec
      simp only [hadopt]
      exact .publishing root henc hfree hlog (.inr hpub)
    · exact hspec
    · exact hspec
  · rw [if_neg hlater]
    have hspec := spec_publishCheckpoint (N := N) draws s body ⟨t.store.wal.progress.synchronized,
      publication⟩
      t.store.dir t.store.dir fs (Upto.refl _)
    refine .inr ⟨by simpa using hlater, ?_⟩
    rcases hr : publishCheckpoint N draws s body ⟨t.store.wal.progress.synchronized,
      publication⟩ t.store.dir fs
      with ⟨s' | err | _, d, fs'⟩ <;> rw [hr] at hspec
    · obtain ⟨g, file, bytes, root, henc, hfree, hpub⟩ := hspec
      simp only [hadopt]
      exact .publishing root henc hfree (.inr hpub)
    · exact hspec
    · exact hspec

end

/-! ## Orphans -/

/-- The snapshot of the next generation is there without its manifest. -/
def Orphaned (d : Dir) (s : Selected) : Prop :=
  ∃ g, nextGeneration s.metadata.generation = .ok g ∧ Name.snapshot g ∈ d ∧ Name.manifest g ∉ d

instance (d : Dir) (s : Selected) : Decidable (Orphaned d s) :=
  match h : nextGeneration s.metadata.generation with
  | .error _ => .isFalse fun ⟨_, hg, _⟩ => by rw [h] at hg; cases hg
  | .ok g => decidable_of_iff (Name.snapshot g ∈ d ∧ Name.manifest g ∉ d)
      ⟨fun ho => ⟨g, h, ho⟩, fun ⟨_, hg, ho⟩ => by rw [h] at hg; cases hg; exact ho⟩

theorem Orphaned.congr (h : Orphaned e s) (hsame : ∀ n : Name, n.isTemp = false →
    (∀ x, n ≠ .log x) → n ≠ .firstLog →
    (n ∈ d ↔ n ∈ e)) : Orphaned d s := by
  obtain ⟨g, hg, hs, hm⟩ := h
  exact ⟨g, hg, (hsame _ rfl (by simp) (by simp)).2 hs,
    fun h => hm ((hsame _ rfl (by simp) (by simp)).1 h)⟩

/-- On an orphan every checkpoint fails, and leaves nothing but staged files. -/
theorem Good.orphan_checkpoint (h : Good N t s frames inflight cut k) (ho : Orphaned t.store.dir s)
    (draws : Draws) (acquire : Option PersistError) (body : Bytes) (publication : UInt64)
    (fs : List Fault) :
    (∀ r, (t.store.checkpoint N draws acquire body publication fs).1 ≠ .done r) ∧
      Upto t.store.dir (t.store.checkpoint N draws acquire body publication fs).2.dir := by
  obtain ⟨g, hg, hsnap, -⟩ := ho
  have hfree : ∀ g', nextGeneration s.metadata.generation = .ok g' →
      Name.snapshot g' ∉ t.store.dir → False := by
    intro g' hg' hn
    rw [hg] at hg'
    cases hg'
    exact hn hsnap
  have hup : Upto t.store.dir (t.store.checkpoint N draws acquire body publication fs).2.dir := by
    rcases h.checkpoint_dir draws acquire body publication fs
      with hup | ⟨-, c, -, ⟨-, hr⟩ | ⟨-, hr⟩⟩
    · exact hup
    all_goals
      cases hr with
      | before hup => exact hup
      | snapped hn hs => exact (hfree _ hn hs.2.1).elim
      | publishing root _ hf => exact (hfree _ root.successor.next hf).elim
  refine ⟨fun r hr => ?_, hup⟩
  cases h.checkpoint draws acquire body publication fs with
  | old _ _ hfailed => exact hfailed r hr
  | new hg' _ hroot =>
    -- `CURRENT` is the old one
    exact h.current_changed hg' hroot.next (hup _ rfl)

theorem snapshot_dependency {g : UInt64} (h : Name.snapshot g ∈ dependencies r) :
    r.metadata.generation = g := by
  rcases mem_dependencies.1 h with h | h | ⟨-, h⟩
  · cases h
  · exact absurd h (logFile_ne r _)
  · exact (Name.snapshot.inj h).symm

theorem Good.orphan_prune (h : Good N t s frames inflight cut k) (ho : Orphaned t.store.dir s)
    (acquire : Option PersistError) (leases : List Name) (fs : List Fault) :
    Orphaned (t.step N (.prune acquire leases fs)).store.dir s := by
  rcases h.prune_dir acquire leases fs with heq | ⟨p, roots, history, hp, ht⟩
  · rw [heq]; exact ho
  obtain ⟨g, hg, hsnap, hman⟩ := ho
  refine ⟨g, hg, ?_, fun hm => hman (ht.mem hm).1⟩
  by_contra hgone
  obtain ⟨hcand, -⟩ := ht.gone _ hsnap hgone
  obtain ⟨root, hroot, -, hdep⟩ := (hp.candidates_iff _).1 hcand
  obtain ⟨g', hg', hins⟩ := (hp.roots_iff root).1 hroot
  unfold rootDeps at hdep
  split at hdep
  · rename_i r hr
    rw [← (inspect_spec hins).root_generation hr, snapshot_dependency hdep] at hg'
    exact hman hg'
  · rw [mem_singleton] at hdep
    cases hdep

/-- **An orphan stays**, whatever is done, and no later checkpoint succeeds. -/
theorem Good.stuck (hN : N.Lawful) (h : Good N t s frames inflight cut k)
    (ho : Orphaned t.store.dir s) {a : Action} (hb : t.Below a) :
    ∃ frames inflight cut, Good N (t.step N a) s frames inflight cut k ∧
      Orphaned (t.step N a).store.dir s := by
  cases a with
  | commit bodies compression limit env =>
    obtain ⟨_, inflight', cut', hg'⟩ := h.commit bodies compression limit env hb
    exact ⟨_, inflight', cut', hg', ho.congr fun n _ h1 h2 =>
      mem_dir_congr (h.commit_dir bodies compression limit env (logFile_ne s n h1 h2))⟩
  | checkpoint draws acquire body publication fs =>
    obtain ⟨hfail, hup⟩ := h.orphan_checkpoint ho draws acquire body publication fs
    have hor : Orphaned (t.step N (.checkpoint draws acquire body publication fs)).store.dir s :=
      ho.congr fun n hn _ _ => hup.mem hn
    cases h.checkpoint draws acquire body publication fs with
    | old hg' => exact ⟨_, _, _, hg', hor⟩
    | new hg' himage hroot hset hdone =>
      -- `CURRENT` is the old one
      exact absurd (hup _ rfl) (h.current_changed hg' hroot.next)
  | prune acquire leases fs =>
    refine ⟨frames, inflight, cut, h.prune acquire leases fs, ?_⟩
    exact h.orphan_prune ho acquire leases fs
  | reopen =>
    obtain ⟨_, inflight', cut', hg'⟩ := h.reopen hN
    refine ⟨_, inflight', cut', hg', ?_⟩
    rw [Traced.step]
    cases Persist.reopen N t.store.dir t.identity defaultLimit with
    | error _ => exact ho
    | ok r => exact ho

/-! ## Tidy directories -/

/-- `r` works on the segment of the selected root: it starts at the same base, and its snapshot
ends in it. -/
structure SharesLog (r s : Selected) (frames : Frames) : Prop where
  base : r.base = s.base
  based : r.context.sequence ≠ 0
  boundary : ∀ c ∈ r.checkpoint, ∃ k, BoundaryAt r c frames k

/-- What is there of a root's files is right, and only roots from the first checkpoint on have a
snapshot. -/
structure Fine (N : Native) (d : Dir) (s : Selected) (frames : Frames) (r : Selected) : Prop where
  snapshot : Prune.SnapshotOk N d r false
  shared : r.logFile = s.logFile → SharesLog r s frames
  own : r.logFile ≠ s.logFile → ∀ file, d[r.logFile]? = some file → Prune.LogOk N r none file
  before : s.rotation = none → r.metadata.generation.toNat < s.metadata.generation.toNat →
    r.checkpoint = none
  next : s.metadata.generation.toNat < r.metadata.generation.toNat → r.checkpoint.isSome

/-- Every manifest is readable and its root is fine, the predecessor of a rotation is complete,
and the snapshot of the next generation comes with its manifest. -/
structure Tidy (N : Native) (d : Dir) (s : Selected) (frames : Frames) : Prop where
  legible : ∀ g, Name.manifest g ∈ d → ∃ root, inspect N d [] s g = .ok root ∧
    (∀ r, root.selected = some r → Fine N d s frames r) ∧
    (s.metadata.generation.toNat < g.toNat → root.selected.isSome)
  history : ∀ rot, s.rotation = some rot → ∃ prev,
    selectRoot N d rot.previous.selector s.metadata.identity = .ok prev ∧
    prev.base = rot.snapshotBase ∧ prev.logFile ≠ s.logFile ∧
    verify N d prev (some rot.previous.sealedEnd) true = .ok ()
  bounded : ∀ g, Name.manifest g ∈ d ∨ Name.snapshot g ∈ d →
    g.toNat ≤ s.metadata.generation.toNat + 1
  paired : ¬ Orphaned d s

theorem SharesLog.logHolds (h : SharesLog r s frames) (hs : LogHolds N s bodies frames) :
    LogHolds N r bodies frames :=
  ⟨h.based, h.base ▸ hs.framed, h.base ▸ hs.below⟩

theorem SharesLog.logOk (hN : N.Lawful) (h : SharesLog r s frames)
    (hs : LogHolds N s bodies frames) : Prune.LogOk N r none (segmentBytes frames) := by
  refine ⟨fun p hp => (by cases hp), ?_⟩
  obtain ⟨k, hk⟩ : ∃ k, ∀ c ∈ r.checkpoint, BoundaryAt r c frames k := by
    cases hc : r.checkpoint with
    | none => exact ⟨0, fun c h => by cases h⟩
    | some c =>
      obtain ⟨k, hk⟩ := h.boundary c hc
      exact ⟨k, fun c' h' => by cases h'; exact hk⟩
  exact (h.logHolds hs).verifySegment hN hk fun q hq => by cases hq

theorem Fine.verify (hN : N.Lawful) (h : Fine N d s frames r) (hs : LogHolds N s bodies frames)
    (hlog : d[s.logFile]? = some (segmentBytes frames)) (hman : r.manifestFile ∈ d) :
    verify N d r none false = .ok () := by
  rw [verify_ok]
  refine ⟨fun _ => hman, fun _ _ _ => hman, h.snapshot, fun hf => (by cases hf),
    fun file hfile => ?_⟩
  by_cases heq : r.logFile = s.logFile
  · rw [heq, hlog] at hfile
    cases hfile
    exact (h.shared heq).logOk hN hs
  · exact h.own heq file hfile

theorem verify_unsealed {p : Position} {required : Bool}
    (h : verify N d r (some p) required = .ok ()) : verify N d r none required = .ok () := by
  obtain ⟨h1, h2, h3, h4, h5⟩ := verify_ok.1 h
  refine verify_ok.2 ⟨h1, h2, h3, h4, fun file hfile => ⟨fun q hq => (by cases hq), ?_⟩⟩
  obtain ⟨-, hseg⟩ := h5 file hfile
  unfold verifySegment at hseg ⊢
  split at hseg
  · cases hseg
  rename_i reader hreader
  simp only at hseg ⊢
  split at hseg
  · cases hseg
  rename_i r' seen hscan
  split at hseg
  · cases hseg
  · rename_i hn
    push Not at hn
    rw [if_neg]
    push Not
    exact ⟨hn.1, hn.2.1, by simp⟩

theorem parent_generation (hs : Sourced s) {parent : Parent} (h : s.metadata.parent = some parent) :
    s.metadata.generation.toNat = parent.generation.toNat + 1 :=
  checkedAdd_eq_some.1 ((validate_ok hs.metadata).2.2.2 parent h)

theorem inspect_root
    (hr : selectRoot N d selector s.metadata.identity = .ok r)
    (hname : selector.manifestName = manifestName selector.generation) {g : UInt64}
    (hg : r.manifestFile = .manifest g) (h : inspect N d leases s g = .ok root) :
    root.selected = some r := by
  have hag := selectRoot_agrees hr
  have : g = selector.generation := by
    unfold Selected.manifestFile at hg
    rw [hag.selector_eq] at hg
    exact (Name.manifest.inj hg).symm
  subst this
  exact inspect_selected hr hname h

theorem Rooted.selects (h : Rooted N d s) : selectRoot N d s.selector s.metadata.identity = .ok s ∧
    s.selector.manifestName = manifestName s.selector.generation := by
  obtain ⟨-, -, bytes, selector, -, hdec, hs⟩ := selectIn_ok.1 h.selectIn
  have heq := (selectRoot_agrees hs).selector_eq
  rw [heq]
  exact ⟨hs, selector_of_decode hdec⟩

theorem Rooted.agrees (h : Rooted N d s) : Agrees s s.selector s.metadata.identity :=
  selectRoot_agrees h.selects.1

section

variable (h : Tidy N d s frames)
include h

theorem Tidy.historyOf (hs : Sourced s)
    (hroots : ∀ root ∈ roots, ∃ g, Name.manifest g ∈ d ∧ inspect N d [] s g = .ok root) :
    ∃ history, Prune.historyOf N d s roots = .ok history ∧
      ∀ p, history = some p → ∃ rot, s.rotation = some rot ∧
        selectRoot N d rot.previous.selector s.metadata.identity = .ok p ∧
        verify N d p (some rot.previous.sealedEnd) true = .ok () := by
  unfold Prune.historyOf
  cases hrot : s.rotation with
  | some rot =>
    obtain ⟨prev, hsel, hbase, -, hver⟩ := h.history rot hrot
    simp only [hsel, hbase, ne_eq, not_true, if_false, hver]
    exact ⟨some prev, rfl, fun p hp => by cases hp; exact ⟨rot, rfl, hsel, hver⟩⟩
  | none =>
    cases hc : s.checkpoint with
    | none => exact ⟨none, rfl, fun p hp => by cases hp⟩
    | some c =>
      cases hpar : s.metadata.parent with
      | none => exact ⟨none, rfl, fun p hp => by cases hp⟩
      | some parent =>
        refine ⟨_, rfl, fun p hp => ?_⟩
        -- a root before the first checkpoint has no snapshot
        have hmem := mem_of_find?_eq_some hp
        have hfound := find?_some hp
        simp only [decide_eq_true_eq] at hfound
        obtain ⟨root, hin, hsel⟩ := mem_filterMap.1 hmem
        obtain ⟨g, hg, hins⟩ := hroots root hin
        obtain ⟨root', hins', hfine, -⟩ := h.legible g hg
        rw [hins] at hins'
        cases hins'
        have hnone := (hfine p hsel).before hrot
          (by rw [hfound.1, parent_generation hs hpar]; omega)
        rw [hnone] at hfound
        exact absurd hfound.2.2 (by simp)

omit h in
/-- **A tidy directory can be pruned.** -/
theorem Tidy.plan (hN : N.Lawful) (h : Tidy N d s frames) (hr : Rooted N d s) (hs : Sourced s)
    (hi : Intact N d s image bodies frames k) (hsize : d.size ≤ maxArtifacts) :
    ∃ p, Prune.plan N d [] s = .ok (p, s) := by
  have hver : ∀ required, verify N d s none required = .ok () :=
    hi.verify hN hr.manifest_mem fun q hq => by cases hq
  obtain ⟨roots, hroots⟩ := mapM_complete (f := inspect N d [] s) (l := generations d)
    fun g hg => (h.legible g (mem_generations.1 hg)).imp fun _ => And.left
  have hmem : ∀ root ∈ roots, ∃ g, Name.manifest g ∈ d ∧ inspect N d [] s g = .ok root := by
    intro root hroot
    obtain ⟨g, hg, hins⟩ := ((mapM_ok hroots).2 root).1 hroot
    exact ⟨g, mem_generations.1 hg, hins⟩
  obtain ⟨history, hhist, hprev⟩ := h.historyOf hs hmem
  refine plan_complete hsize hr.selectIn rfl hroots hhist (hver true) fun root hroot r hsel => ?_
  obtain ⟨g, hg, hins⟩ := hmem root hroot
  obtain ⟨root', hins', hfine, -⟩ := h.legible g hg
  rw [hins] at hins'
  cases hins'
  have hspec := inspect_spec hins
  obtain ⟨hfile, hrs⟩ := hspec.selected r hsel
  by_cases hcur : root.file = s.manifestFile
  · have hgs : g = s.selector.generation := by
      unfold Prune.Root.file at hcur
      rw [hspec.generation] at hcur
      exact Name.manifest.inj hcur
    rw [hgs] at hins
    have hrs' := inspect_selected hr.selects.1 hr.selects.2 hins
    rw [hsel] at hrs'
    cases hrs'
    exact hver _
  by_cases hh : history.any fun p => decide (root.file = p.manifestFile)
  · cases hp : history with
    | none => rw [hp] at hh; cases hh
    | some p =>
      rw [hp] at hh
      simp only [any_some, decide_eq_true_eq] at hh
      obtain ⟨rot, hrot, hselp, hverp⟩ := hprev p hp
      have hname := (hr.agrees.parent rot hrot).1
      have hrp := inspect_root hselp (by rw [hname]) (g := g)
        (by rw [← hh]; unfold Prune.Root.file; rw [hspec.generation]) hins
      rw [hsel] at hrp
      cases hrp
      rw [reasonFor_history rfl hh]
      exact verify_unsealed hverp
  · have hreason : reasonFor s history root = none := by
      unfold reasonFor
      rw [if_neg hcur, if_neg hh, if_neg]
      rw [hspec.leased]; simp
    rw [hreason]
    exact (hfine r hsel).verify hN hi.log hi.log_file (hfile ▸ hg)

/-! ## Steps that leave the root alone -/

omit h in
theorem Fine.congr (h : Fine N d s frames r)
    (hsnap : d'[r.snapshotFile]? = d[r.snapshotFile]? ∨ d'[r.snapshotFile]? = none)
    (hlog : r.logFile ≠ s.logFile → d'[r.logFile]? = d[r.logFile]? ∨ d'[r.logFile]? = none)
    (more : Frames) : Fine N d' s (frames ++ more) r := by
  refine ⟨fun hc => ⟨fun hm => ?_, fun hf => (by cases hf)⟩, fun hl => ?_, fun hl file hfile => ?_,
    h.before, h.next⟩
  · rcases hsnap with hs | hs
    · obtain ⟨b, hb⟩ := (h.snapshot hc).1 ((mem_dir_congr hs).1 hm)
      exact ⟨b, by rw [snapshotBody_congr fun _ => hs]; exact hb⟩
    · rw [mem_dir_iff, hs] at hm
      obtain ⟨_, hb⟩ := hm
      cases hb
  · have hsh := h.shared hl
    exact ⟨hsh.base, hsh.based, fun c hc => (hsh.boundary c hc).imp fun _ hb => hb.append more⟩
  · rcases hlog hl with hs | hs
    · exact h.own hl file (hs ▸ hfile)
    · rw [hs] at hfile
      cases hfile

/-- Files other than the active segment may go, if the root's history stays and no orphan
comes up; the active segment may grow. -/
theorem Tidy.mono
    (hsame : ∀ n : Name, n ≠ s.logFile → n.isTemp = false → d'[n]? = d[n]? ∨ d'[n]? = none)
    (hhist : ∀ rot prev, s.rotation = some rot →
      selectRoot N d rot.previous.selector s.metadata.identity = .ok prev →
      ∀ n ∈ dependencies prev, n ≠ s.logFile → d'[n]? = d[n]?)
    (hpair : ¬ Orphaned d' s) (more : Frames) : Tidy N d' s (frames ++ more) := by
  have hmem : ∀ {n : Name}, n ≠ s.logFile → n.isTemp = false → n ∈ d' → n ∈ d ∧ d'[n]? = d[n]? := by
    intro n hn ht hm
    rcases hsame n hn ht with hs | hs
    · exact ⟨(mem_dir_congr hs).1 hm, hs⟩
    · rw [mem_dir_iff, hs] at hm
      obtain ⟨_, hb⟩ := hm
      cases hb
  have hman : ∀ g, Name.manifest g ≠ s.logFile := fun g => logFile_ne s _
  have hsnap : ∀ g, Name.snapshot g ≠ s.logFile := fun g => logFile_ne s _
  refine ⟨fun g hg => ?_, fun rot hrot => ?_, fun g hg => ?_, hpair⟩
  · obtain ⟨hd, heq⟩ := hmem (hman g) rfl hg
    obtain ⟨root, hins, hfine, hnext⟩ := h.legible g hd
    exact ⟨root, by rw [inspect_congr heq]; exact hins, fun r hr => (hfine r hr).congr
      (hsame _ (hsnap _) rfl) (fun hl => hsame _ hl (logFile_isTemp _)) more, hnext⟩
  · obtain ⟨prev, hsel, hbase, hlog, hver⟩ := h.history rot hrot
    have hdeps : ∀ n ∈ dependencies prev, d'[n]? = d[n]? := by
      intro n hn
      refine hhist rot prev hrot hsel n hn ?_
      rintro rfl
      rcases mem_dependencies.1 hn with hn | hn | ⟨-, hn⟩
      · exact hman _ hn.symm
      · exact hlog hn.symm
      · exact hsnap _ hn.symm
    refine ⟨prev, ?_, hbase, hlog, (verify_congr hdeps).2 hver⟩
    rw [selectRoot_congr (selectRoot_file hsel ▸ hdeps _ (manifest_mem prev))]
    exact hsel
  · exact h.bounded g (hg.imp (fun hm => (hmem (hman g) rfl hm).1) fun hm =>
      (hmem (hsnap g) rfl hm).1)

omit h in
theorem Prune.Planned.root_of_dep {current expected : Selected}
    (hp : Prune.Planned N d leases expected p current roots history) {n : Name} {g : UInt64}
    (hin : root ∈ roots) (hdep : n ∈ rootDeps root) (hn : n = .manifest g ∨ n = .snapshot g) :
    inspect N d leases current g = .ok root := by
  obtain ⟨g', -, hins⟩ := (hp.roots_iff root).1 hin
  have hspec := inspect_spec hins
  suffices g' = g by rw [← this]; exact hins
  unfold rootDeps at hdep
  split at hdep
  · rename_i r hr
    obtain ⟨hfile, hrs⟩ := hspec.selected r hr
    rcases hn with rfl | rfl
    · have := notManifest_deps hdep rfl
      rw [hfile] at this
      exact (Name.manifest.inj this).symm
    · rw [← snapshot_dependency hdep, hspec.root_generation hr]
  · rw [mem_singleton, Prune.Root.file, hspec.generation] at hdep
    rcases hn with rfl | rfl
    · exact (Name.manifest.inj hdep).symm
    · cases hdep

omit h in
theorem Prune.Planned.unkept {n : Name} {g : UInt64} {current expected : Selected}
    (hp : Prune.Planned N d leases expected p current roots history)
    (hins : inspect N d leases current g = .ok root)
    (hreason : reasonFor current history root = none)
    (hn : n = .manifest g ∨ n = .snapshot g) : n ∉ p.kept := by
  intro hk
  rcases (hp.kept_iff _).1 hk with hk | ⟨root2, hin2, hreason₂, hdep2⟩
  · rcases hn with rfl | rfl <;> simp at hk
  · have := hp.root_of_dep hin2 hdep2 hn
    rw [hins] at this
    cases this
    rw [hreason] at hreason₂
    cases hreason₂

/-- A root of the next generation whose manifest is gone has lost its snapshot before. -/
theorem Tidy.paired_thin (hp : Prune.Planned N d leases s p s roots history)
    (ht : Prune.Thinned d p d') : ¬ Orphaned d' s := by
  rintro ⟨g, hg, hsnap, hman⟩
  have hd : Name.manifest g ∈ d := by
    by_contra hd
    exact h.paired ⟨g, hg, (ht.mem hsnap).1, hd⟩
  obtain ⟨hcand, hnot⟩ := ht.gone _ hd hman
  -- the root of this generation is not retained, and its snapshot is a candidate too
  obtain ⟨root, hin, hreason, hdep⟩ := (hp.candidates_iff _).1 hcand
  have hins := hp.root_of_dep hin hdep (.inl rfl)
  obtain ⟨root', hins', hfine, hnext⟩ := h.legible g hd
  have hlease : inspect N d leases s g = .ok { root'
      with leased := decide (Name.manifest g ∈ leases) } :=
    inspect_leases hins'
  rw [hins] at hlease
  have hsel : root.selected = root'.selected := by rw [Except.ok.inj hlease]
  have hgen := nextGeneration_ok hg
  obtain ⟨r, hr⟩ := isSome_iff_exists.1 (hnext (by omega))
  have hrg := (inspect_spec hins').root_generation hr
  have hsnapdep : Name.snapshot g ∈ rootDeps root := by
    unfold rootDeps
    rw [hsel, hr]
    have := snapshot_mem ((hfine r hr).next (by rw [hrg]; omega))
    unfold snapshotFile at this
    rwa [hrg] at this
  exact ht.order g hd hman _ hsnap rfl (hp.unkept hins hreason (.inr rfl))
    ((hp.candidates_iff _).2 ⟨root, hin, hreason, hsnapdep⟩)

omit h in
theorem Tidy.upto (h : Tidy N e s frames) (hup : Upto e d) : Tidy N d s frames := by
  have := h.mono (fun n _ ht => .inl (hup n ht)) (fun rot prev hrot hsel n hn _ => hup n ?_)
    (fun ho => h.paired (ho.congr fun n hn _ _ => (hup.mem hn).symm)) []
  · rwa [append_nil] at this
  · rcases mem_dependencies.1 hn with rfl | rfl | ⟨-, rfl⟩
    · rfl
    · exact logFile_isTemp _
    · rfl

theorem Tidy.thinned
    (hp : Prune.Planned N d leases s p s roots history) (ht : Prune.Thinned d p d') :
    Tidy N d' s frames := by
  have := h.mono (fun n _ _ => ht.less n) (fun rot prev hrot hsel n hn _ => ?_)
    (h.paired_thin hp ht) []
  · rwa [append_nil] at this
  · have hhist := hp.history_eq
    unfold Prune.historyOf at hhist
    obtain ⟨prev', hsel', hbase, -, hver⟩ := h.history rot hrot
    rw [hsel] at hsel'
    cases hsel'
    simp only [hrot, hsel, hbase, ne_eq, not_true, if_false, hver] at hhist
    exact ht.same (hp.history_kept (Except.ok.inj hhist).symm n hn)

theorem Tidy.next_unretained (hr : Rooted N d s) (hs : Sourced s)
    (hp : Prune.Planned N d [] s p s roots history) {g : UInt64}
    (hg : nextGeneration s.metadata.generation = .ok g) (hins : inspect N d [] s g = .ok root) :
    reasonFor s history root = none := by
  have hgen := nextGeneration_ok hg
  have hspec := inspect_spec hins
  have hfile : root.file = .manifest g := by unfold Prune.Root.file; rw [hspec.generation]
  unfold reasonFor
  rw [if_neg, if_neg, if_neg]
  · rw [hspec.leased]; simp
  · obtain ⟨history', hhist', hprev⟩ := h.historyOf hs fun root hroot => (hp.roots_iff root).1 hroot
    rw [hp.history_eq] at hhist'
    cases hhist'
    cases hh : history with
    | none => simp
    | some prev =>
      obtain ⟨rot, hrot, hsel, -⟩ := hprev prev hh
      have hpar := parent_generation hs (hr.agrees.parent rot hrot).2
      rw [any_some, decide_eq_true_eq, hfile]
      unfold Selected.manifestFile
      rw [(selectRoot_agrees hsel).selector_eq]
      intro he
      rw [Name.manifest.inj he] at hgen
      simp only at hpar
      omega
  · rw [hfile]
    intro he
    have : g = s.metadata.generation := by rw [← hs.selector]; exact Name.manifest.inj he
    rw [this] at hgen
    omega

/-- **A prune without leases or faults removes what there is of the next generation.** -/
theorem Tidy.pruned (hr : Rooted N d s) (hs : Sourced s) (hplan : Prune.plan N d [] s = .ok (p, s))
    {g : UInt64} (hg : nextGeneration s.metadata.generation = .ok g) :
    Name.snapshot g ∉ Prune.unlinked d (Prune.pending d p) ∧
      Name.manifest g ∉ Prune.unlinked d (Prune.pending d p) := by
  obtain ⟨roots, history, hp⟩ := planned_of_plan hplan
  have hgen := nextGeneration_ok hg
  have hman : Name.manifest g ∉ Prune.unlinked d (Prune.pending d p) := by
    intro hm
    rw [mem_dir_iff, getElem?_unlinked] at hm
    obtain ⟨b, hb⟩ := hm
    split at hb
    · cases hb
    rename_i hpend
    have hd : Name.manifest g ∈ d := mem_dir_iff.2 ⟨b, hb⟩
    obtain ⟨root, hins⟩ := hp.inspected g hd
    have hin : root ∈ roots := (hp.roots_iff root).2 ⟨g, hd, hins⟩
    have hspec := inspect_spec hins
    have hreason := h.next_unretained hr hs hp hg hins
    have hdep : Name.manifest g ∈ rootDeps root := by
      unfold rootDeps
      split
      · rename_i r hr
        rw [← (hspec.selected r hr).1]
        exact manifest_mem r
      · rw [mem_singleton, Prune.Root.file, hspec.generation]
    exact hpend (mem_pending_names.2 ⟨hd, hp.unkept hins hreason (.inl rfl),
      (hp.candidates_iff _).2 ⟨root, hin, hreason, hdep⟩⟩)
  have ht := unlinked_thinned (d := d) (p := p) (Prune.pending d p).length
  rw [take_length] at ht
  exact ⟨fun hsnap => h.paired_thin hp ht ⟨g, hg, hsnap, hman⟩, hman⟩

end

/-! ## Checkpoints -/

theorem inspect_current {s' : Selected} (hi : s'.metadata.storeId = s.metadata.storeId)
    (he : s'.metadata.epoch = s.metadata.epoch) (hid : s'.metadata.identity = s.metadata.identity)
    (leases : List Name) (g : UInt64) :
    inspect N d leases s' g = inspect N d leases s g := by
  unfold inspect
  rw [hi, he, hid]

theorem inspect_of_selectRoot (hs : selectRoot N d r.selector s.metadata.identity = .ok r)
    (hname : r.selector.manifestName = manifestName r.selector.generation)
    (hi : r.metadata.storeId = s.metadata.storeId) (he : r.metadata.epoch = s.metadata.epoch)
    (leases : List Name) :
    ∃ root, inspect N d leases s r.selector.generation = .ok root ∧ root.selected = some r := by
  obtain ⟨bytes, hb, hhash, hdec⟩ := selectRoot_ok hs
  have hag := decodeRoot_agrees hdec
  have hany := decodeAny_of_decodeRoot hdec
  have hsel : CurrentSelector.fromManifest r.metadata (N.hash bytes) = r.selector := by
    have hg := hag.generation
    have hst := hag.storeId
    have hep := hag.epoch
    rcases hrs : r.selector with ⟨i, e, g, n, dg⟩
    rw [hrs] at hname hg hst hep hhash
    simp only [CurrentSelector.fromManifest, CurrentSelector.mk.injEq]
    exact ⟨hst, hep, hg, by rw [hg]; exact hname.symm, hhash⟩
  unfold inspect
  rw [show d.readBounded (Name.manifest r.selector.generation) = .ok bytes from hb]
  simp only [hany, hsel, hs]
  rw [if_neg]
  · exact ⟨_, rfl, rfl⟩
  · push Not
    exact ⟨hi, he, hag.identity, hag.generation⟩

/-- No root that can be read works on the segment of `s'`, unless `s` does. -/
def Unshared (N : Native) (d : Dir) (s s' : Selected) : Prop :=
  ∀ selector r, selectRoot N d selector s.metadata.identity = .ok r →
    selector.manifestName = manifestName selector.generation → r.logFile = s'.logFile →
    s'.logFile = s.logFile

/-- The new root `s'` is in place next to the files of `e`. -/
structure Placed (N : Native) (e d : Dir) (s s' : Selected) (frames : Frames) : Prop where
  next : nextGeneration s.metadata.generation = .ok s'.metadata.generation
  metadata : s'.metadata = successor s s'.metadata.generation
  grown : ∀ n : Name, n.isTemp = false → n ≠ .current → n ≠ s'.manifestFile → n ≠ s'.snapshotFile →
    (n = s'.logFile → n = s.logFile) → d[n]? = e[n]?
  fresh : s'.manifestFile ∉ e
  selects : selectRoot N d s'.selector s'.metadata.identity = .ok s'
  name : s'.selector.manifestName = manifestName s'.selector.generation
  checkpoint : s'.checkpoint.isSome
  snapshot : Prune.SnapshotOk N d s' false
  shared : s'.logFile = s.logFile → s.checkpoint = none ∧ SharesLog s' s frames ∧ s'.rotation = none
  own : s'.logFile ≠ s.logFile → ∀ file, d[s'.logFile]? = some file → Prune.LogOk N s' none file

/-- The segment of the new root: the old one, or a fresh one behind the sealed old one. -/
def Continues (s s' : Selected) (frames frames' : Frames) : Prop :=
  s.checkpoint = none ∧ s.rotation = none ∧ s'.logFile = s.logFile ∧ s'.base = s.base ∧
    s'.rotation = none ∧ frames' = frames ∨
    s'.logFile ≠ s.logFile ∧ ∃ rot, s'.rotation = some rot ∧
    rot.previous = ⟨s.selector, endPosition s.base frames⟩ ∧
      rot.snapshotBase = s.base

namespace Placed

variable {s' : Selected} (h : Placed N e d s s' frames)
include h

theorem generation : s'.metadata.generation.toNat = s.metadata.generation.toNat + 1 :=
  nextGeneration_ok h.next

theorem selects_generation : s'.selector.generation = s'.metadata.generation :=
  (selectRoot_agrees h.selects).generation.symm

theorem identity : s'.metadata.identity = s.metadata.identity := by rw [h.metadata]; rfl

theorem manifestFile : s'.manifestFile = .manifest s'.metadata.generation := by
  unfold Selected.manifestFile CurrentSelector.file
  rw [h.selects_generation]

theorem inspected (leases : List Name) :
    ∃ root, inspect N d leases s s'.metadata.generation = .ok root ∧ root.selected = some s' := by
  have := inspect_of_selectRoot (s := s) (h.identity ▸ h.selects) h.name (by rw [h.metadata]; rfl)
    (by rw [h.metadata]; rfl) leases
  rwa [h.selects_generation] at this

theorem manifest_same {g : UInt64} (hg : g ≠ s'.metadata.generation) :
    d[Name.manifest g]? = e[Name.manifest g]? := by
  refine h.grown _ rfl (by simp) ?_ (by simp [snapshotFile]) fun hl => absurd hl (logFile_ne s' _)
  rw [h.manifestFile]
  exact fun he => hg (Name.manifest.inj he)

section

variable (hr : selectRoot N e selector s.metadata.identity = .ok r)
  (hname : selector.manifestName = manifestName selector.generation)
include hr hname

theorem files_same (hg : r.metadata.generation ≠ s'.metadata.generation) (hu : Unshared N e s s') :
    d[r.snapshotFile]? = e[r.snapshotFile]? ∧ d[r.logFile]? = e[r.logFile]? := by
  constructor
  · refine h.grown _ rfl (by simp [snapshotFile]) (by simp [snapshotFile, h.manifestFile]) ?_
      fun hl => absurd hl (logFile_ne s' (.snapshot _))
    exact fun he => hg (Name.snapshot.inj he)
  · refine h.grown _ (logFile_isTemp _) (logFile_ne r _).symm
      (h.manifestFile ▸ (logFile_ne r _).symm) (logFile_ne r (.snapshot _)).symm ?_
    exact fun hl => hl.trans (hu selector r hr hname hl)

theorem earlier_same (hg : r.metadata.generation.toNat ≤ s.metadata.generation.toNat)
    (hu : Unshared N e s s') :
    ∀ n ∈ dependencies r, d[n]? = e[n]? := by
  have hne : r.metadata.generation ≠ s'.metadata.generation := by
    intro he
    rw [he, h.generation] at hg
    omega
  obtain ⟨hsnap, hlog⟩ := h.files_same hr hname hne hu
  intro n hn
  rcases mem_dependencies.1 hn with rfl | rfl | ⟨-, rfl⟩
  · refine h.manifest_same ?_
    rw [(selectRoot_agrees hr).selector_eq, ← (selectRoot_agrees hr).generation]
    exact hne
  · exact hlog
  · exact hsnap

end

theorem manifest_cases {g : UInt64} (hg : Name.manifest g ∈ d) :
    g = s'.metadata.generation ∨ g ≠ s'.metadata.generation ∧ Name.manifest g ∈ e ∧
      ∀ leases, inspect N d leases s g = inspect N e leases s g := by
  by_cases he : g = s'.metadata.generation
  · exact .inl he
  · have hsame := h.manifest_same he
    exact .inr ⟨he, (mem_dir_congr hsame).1 hg, fun _ => inspect_congr hsame⟩

theorem snapshot_cases {g : UInt64} (hg : Name.snapshot g ∈ d) :
    g = s'.metadata.generation ∨ Name.snapshot g ∈ e := by
  by_cases he : g = s'.metadata.generation
  · exact .inl he
  · refine .inr ((mem_dir_congr (h.grown _ rfl (by simp) (by simp [h.manifestFile]) (fun hs =>
      he ?_) fun hl => ?_)).1 hg)
    · exact Name.snapshot.inj hs
    · exact absurd hl (logFile_ne s' _)

theorem tidy_old (ht : Tidy N e s frames) (hr : Rooted N e s) (hs : Sourced s)
    (hu : Unshared N e s s') :
    Tidy N d s frames := by
  have hgen := h.generation
  refine ⟨fun g hg => ?_, fun rot hrot => ?_, fun g hg => ?_, ?_⟩
  · rcases h.manifest_cases hg with rfl | ⟨hne, hold, hins⟩
    · obtain ⟨root, hins, hsel⟩ := h.inspected []
      refine ⟨root, hins, fun r hr => ?_, fun _ => by rw [hsel]; rfl⟩
      rw [hsel] at hr
      cases hr
      exact ⟨h.snapshot, fun hl => (h.shared hl).2.1, h.own, fun _ hlt => (by omega),
        fun _ => h.checkpoint⟩
    · obtain ⟨root, hroot, hfine, hnext⟩ := ht.legible g hold
      refine ⟨root, by rw [hins]; exact hroot, fun r hr => ?_, hnext⟩
      obtain ⟨-, hrs⟩ := (inspect_spec hroot).selected r hr
      have hrg := (inspect_spec hroot).root_generation hr
      obtain ⟨hsnap, hlog⟩ := h.files_same hrs ((inspect_spec hroot).named r hr) (hrg ▸ hne) hu
      simpa using (hfine r hr).congr (.inl hsnap) (fun _ => .inl hlog) []
  · obtain ⟨prev, hsel, hbase, hlog, hver⟩ := ht.history rot hrot
    have hpar := parent_generation hs (hr.agrees.parent rot hrot).2
    have hpg : prev.metadata.generation.toNat ≤ s.metadata.generation.toNat := by
      rw [(selectRoot_agrees hsel).generation, hpar]
      exact Nat.le_succ _
    have hdeps := h.earlier_same hsel (by rw [(hr.agrees.parent rot hrot).1]) hpg hu
    exact ⟨prev, (selectRoot_congr (selectRoot_file hsel ▸ hdeps _ (manifest_mem prev))).trans hsel,
      hbase, hlog, (verify_congr hdeps).2 hver⟩
  · rcases hg with hg | hg
    · rcases h.manifest_cases hg with rfl | ⟨-, hold, -⟩
      · omega
      · exact ht.bounded g (.inl hold)
    · rcases h.snapshot_cases hg with rfl | hold
      · omega
      · exact ht.bounded g (.inr hold)
  · rintro ⟨g, hg, -, hm⟩
    rw [h.next] at hg
    cases hg
    exact hm (h.manifestFile ▸ selectRoot_mem h.selects)

theorem fine_old (hN : N.Lawful) {frames' : Frames} (hi : Intact N e s image bodies frames k)
    (hu : Unshared N e s s') (hk : Continues s s' frames frames')
    (hrs : selectRoot N e selector s.metadata.identity = .ok r)
    (hname : selector.manifestName = manifestName selector.generation) (hf : Fine N e s frames r)
    (hg : r.metadata.generation.toNat ≤ s.metadata.generation.toNat)
    (heq : r.metadata.generation = s.metadata.generation → r = s) : Fine N d s' frames' r := by
  have hgen := h.generation
  have hne : r.metadata.generation ≠ s'.metadata.generation := by
    intro he
    rw [he] at hg
    omega
  obtain ⟨hsnap, hlog⟩ := h.files_same hrs hname hne hu
  have hf' : Fine N d s frames r := by simpa using hf.congr (.inl hsnap) (fun _ => .inl hlog) []
  rcases hk with ⟨hc, hrot, hl, hb, hrot', rfl⟩ | ⟨hl, rot, hrot, -⟩
  · refine ⟨hf'.snapshot, fun hrl => ?_, fun hrl => hf'.own (hl ▸ hrl), fun _ _ => ?_,
      fun hlt => (by omega)⟩
    · obtain ⟨h1, h2, h3⟩ := hf'.shared (hrl.trans hl)
      exact ⟨h1.trans hb.symm, h2, h3⟩
    · rcases Nat.lt_or_ge r.metadata.generation.toNat s.metadata.generation.toNat with hlt | hge
      · exact hf'.before hrot hlt
      · rw [heq (UInt64.toNat_inj.1 (by omega))]
        exact hc
  · refine ⟨hf'.snapshot, fun hrl => absurd (hu selector r hrs hname hrl) hl,
      fun _ file hfile => ?_,
      fun hn => (by rw [hrot] at hn; cases hn), fun hlt => (by omega)⟩
    by_cases hrl : r.logFile = s.logFile
    · rw [hlog, hrl, hi.log_file] at hfile
      cases hfile
      exact (hf.shared hrl).logOk hN hi.log
    · exact hf'.own hrl file hfile

theorem tidy_new (hN : N.Lawful) (ht : Tidy N e s frames) (hr : Rooted N e s) (hs : Sourced s)
    (hu : Unshared N e s s') {frames' : Frames} (hi : Intact N e s image bodies frames k)
    (hk : Continues s s' frames frames') (hself : Fine N d s' frames' s') :
    Tidy N d s' frames' := by
  have hgen := h.generation
  have hins : ∀ g, inspect N d [] s' g = inspect N d [] s g :=
    fun g => inspect_current (by rw [h.metadata]; rfl) (by rw [h.metadata]; rfl) h.identity [] g
  refine ⟨fun g hg => ?_, fun rot hrot => ?_, fun g hg => ?_, ?_⟩
  · rw [hins]
    rcases h.manifest_cases hg with rfl | ⟨hne, hold, hins⟩
    · obtain ⟨root, hins, hsel⟩ := h.inspected []
      refine ⟨root, hins, fun r hr => ?_, fun hlt => (by omega)⟩
      rw [hsel] at hr
      cases hr
      exact hself
    · obtain ⟨root, hroot, hfine, -⟩ := ht.legible g hold
      have hle := ht.bounded g (.inl hold)
      have hlt : g.toNat ≤ s.metadata.generation.toNat := by
        have : g.toNat ≠ s'.metadata.generation.toNat := fun he => hne (UInt64.toNat_inj.1 he)
        omega
      refine ⟨root, by rw [hins]; exact hroot, fun r hr' => ?_, fun hlt' => (by omega)⟩
      obtain ⟨-, hrs⟩ := (inspect_spec hroot).selected r hr'
      have hrg := (inspect_spec hroot).root_generation hr'
      refine h.fine_old hN hi hu hk hrs ((inspect_spec hroot).named r hr') (hfine r hr')
        (hrg ▸ hlt) fun he => ?_
      have hgs : g = s.selector.generation := by rw [← hrg, he, hs.selector]
      have := inspect_selected hr.selects.1 hr.selects.2 (hgs ▸ hroot)
      rw [hr'] at this
      exact Option.some.inj this
  · rcases hk with ⟨-, -, -, -, hnone, -⟩ | ⟨hl, rot', hrot', hprev, hbase⟩
    · rw [hrot] at hnone
      cases hnone
    rw [hrot] at hrot'
    cases hrot'
    have hdeps := h.earlier_same hr.selects.1 hr.selects.2 (le_refl _) hu
    rw [hprev, h.identity]
    refine ⟨s, ?_, hbase.symm, fun he => hl he.symm, (verify_congr hdeps).2 ?_⟩
    · rw [selectRoot_congr (hdeps _ (manifest_mem s))]
      exact hr.selects.1
    · exact hi.verify hN hr.manifest_mem (fun q hq => by cases hq; rfl) true
  · rcases hg with hg | hg
    · rcases h.manifest_cases hg with rfl | ⟨-, hold, -⟩
      · omega
      · have := ht.bounded g (.inl hold)
        omega
    · rcases h.snapshot_cases hg with rfl | hold
      · omega
      · have := ht.bounded g (.inr hold)
        omega
  · rintro ⟨g, hg, hsnap, -⟩
    have hg' := nextGeneration_ok hg
    rcases h.snapshot_cases hsnap with rfl | hold
    · omega
    · have := ht.bounded g (.inr hold)
      omega

end Placed

section

variable {draws : Draws} {c : SnapshotContext} {g : UInt64} {body file bytes : Bytes}
  {s' : Selected}

section

variable (h : Successor N s c g file bytes s')
include h

theorem Successor.snapshotOk (henc : Snapshot.encode N body c defaultLimit = .ok file)
    (hv : c.boundary.store.isV4 = true) (he : c.boundary.epoch ≠ 0)
    (hfile : d[s'.snapshotFile]? = some file) :
    Prune.SnapshotOk N d s' false :=
  fun _ => ⟨fun _ => ⟨body, (snapshotHolds_describe henc hv he).body h.checkpoint hfile⟩,
    fun hf => by cases hf⟩

theorem Successor.files : s'.metadata.generation = g ∧
    s'.manifestFile = .manifest g ∧ s'.snapshotFile = .snapshot g := by
  have hg : s'.metadata.generation = g := by rw [h.metadata]; rfl
  refine ⟨hg, ?_, by unfold snapshotFile; rw [hg]⟩
  unfold Selected.manifestFile
  rw [h.selector]; rfl

theorem Successor.placed (henc : Snapshot.encode N body c defaultLimit = .ok file)
    (hv : c.boundary.store.isV4 = true) (he : c.boundary.epoch ≠ 0)
    (hdec : decodeRoot N bytes s'.selector s'.metadata.identity = .ok s')
    (hlen : bytes.length ≤ Dir.maxControl) (hman : Name.manifest g ∉ e)
    (hbytes : d[Name.manifest g]? = some bytes) (hfile : d[Name.snapshot g]? = some file)
    (hgrown : ∀ n : Name, n.isTemp = false → n ≠ .current → n ≠ .manifest g → n ≠ .snapshot g →
      (n = s'.logFile → n = s.logFile) → d[n]? = e[n]?)
    (hshared : s'.logFile = s.logFile → s.checkpoint = none ∧ SharesLog s' s frames ∧
      s'.rotation = none)
    (hown : s'.logFile ≠ s.logFile → ∀ file, d[s'.logFile]? = some file →
      Prune.LogOk N s' none file) :
    Placed N e d s s' frames := by
  obtain ⟨hg, hmf, hsf⟩ := h.files
  refine ⟨by rw [hg]; exact h.next, by rw [hg]; exact h.metadata, by rw [hmf, hsf]; exact hgrown,
    by rw [hmf]; exact hman,
    selectRoot_of (b := bytes) ?_ hlen ?_ hdec, ?_, by rw [h.checkpoint]; rfl,
    h.snapshotOk henc hv he (by rw [hsf]; exact hfile), hshared, hown⟩
  · rw [show s'.selector.file = Name.manifest g from hmf]
    exact hbytes
  · rw [h.selector]; rfl
  · rw [h.selector]; rfl

end

theorem Rotated.logFile (h : Rotated N draws s c g file bytes s') :
    s'.logFile = .log draws.segment := by
  rw [h.selected]; rfl

theorem Rotated.logOk (hN : N.Lawful) (h : Rotated N draws s c g file bytes s') (hs : Sourced s)
    (hbelow : c.boundary.sequence.toNat + 1 < 2 ^ 64) : Prune.LogOk N s' none [] := by
  have hholds : LogHolds N s' [] [] := by
    refine ⟨(h.sourced hs).based, .nil _, ?_⟩
    rw [h.base]
    exact hbelow
  refine ⟨fun p hp => (by cases hp), hholds.verifySegment hN (k := 0) (fun c' hc' => ?_) fun q hq =>
    (by cases hq)⟩
  rw [h.successor.checkpoint] at hc'
  cases hc'
  unfold BoundaryAt
  rw [if_pos (by rw [h.selected]; rfl), h.base]
  exact ⟨rfl, rfl⟩

theorem Good.placed_rotated (hN : N.Lawful) (h : Good N t s frames inflight cut k)
    (hc : Taken t s frames c) (hroot : Rotated N draws s c g file bytes s')
    (henc : Snapshot.encode N body c defaultLimit = .ok file) (hlog : s'.logFile ∉ t.store.dir)
    (hman : Name.manifest g ∉ t.store.dir)
    (hd : ∀ n : Name, n.isTemp = false → n ≠ .current →
      d[n]? = ((rotationBase t.store.dir g file s').insert (.manifest g) bytes)[n]?) :
    Placed N t.store.dir d s s' frames := by
  obtain ⟨hv, he⟩ := h.boundary_valid hc
  have hmem : s.logFile ∈ t.store.dir := mem_dir_iff.2 ⟨_, h.log_file⟩
  have hne : s'.logFile ≠ s.logFile := fun he => hlog (he ▸ hmem)
  have hlogm : s'.logFile ≠ .manifest g := (logFile_ne s' _).symm
  have hlogs : s'.logFile ≠ .snapshot g := (logFile_ne s' _).symm
  refine hroot.successor.placed henc hv he hroot.decodes
    (Control.decode_encode hroot.encoded).2.2 hman ?_ ?_ ?_
    (fun hl => absurd hl hne) fun _ file' hfile' => ?_
  · rw [hd _ rfl (by simp), getElem?_insert_self]
  · rw [hd _ rfl (by simp), getElem?_insert_ne _ _ (by simp), rotationBase,
      getElem?_insert_ne _ _ hlogs, getElem?_insert_self]
  · intro n ht h1 h2 h3 h4
    have hn : n ≠ s'.logFile := fun hn => hne (hn ▸ h4 hn)
    rw [hd n ht h1, getElem?_insert_ne _ _ h2.symm, rotationBase, getElem?_insert_ne _ _ hn.symm,
      getElem?_insert_ne _ _ h3.symm]
  · rw [hd _ (logFile_isTemp _) (logFile_ne s' _).symm,
      getElem?_insert_ne _ _ hlogm.symm, rotationBase, getElem?_insert_self] at hfile'
    cases hfile'
    refine hroot.logOk hN h.sourced ?_
    rw [h.boundary_sequence hc]
    have := h.below
    omega

theorem Good.placed_checkpointed (h : Good N t s frames inflight cut k) (hc : Taken t s frames c)
    (hfirst : s.checkpoint = none) (hroot : Checkpointed N s c g file bytes s')
    (henc : Snapshot.encode N body c defaultLimit = .ok file) (hman : Name.manifest g ∉ t.store.dir)
    (hd : ∀ n : Name, n.isTemp = false → n ≠ .current →
      d[n]? = ((t.store.dir.insert (.snapshot g) file).insert (.manifest g) bytes)[n]?) :
    Placed N t.store.dir d s s' frames := by
  obtain ⟨hv, he⟩ := h.boundary_valid hc
  have hplain := h.sourced.plain hfirst
  have hrot : s'.rotation = none := by rw [hroot.selected]; rfl
  have hl : s'.logFile = s.logFile := by unfold logFile; rw [hrot, hplain]
  refine hroot.successor.placed henc hv he
    (hroot.decodes (validate_dataManifest h.sourced hplain hroot.successor.next h.framed hc.boundary
      henc))
    (Control.decode_encode hroot.encoded).2.2 hman ?_ ?_ ?_ (fun _ => ⟨hfirst, ?_, hrot⟩) fun hn =>
      absurd hl hn
  · rw [hd _ rfl (by simp), getElem?_insert_self]
  · rw [hd _ rfl (by simp), getElem?_insert_ne _ _ (by simp), getElem?_insert_self]
  · intro n ht h1 h2 h3 _
    rw [hd n ht h1, getElem?_insert_ne _ _ h2.symm, getElem?_insert_ne _ _ h3.symm]
  · refine ⟨hroot.base h.sourced hplain h.framed hc.boundary,
      (hroot.sourced h.sourced h.framed hc.boundary).based, ?_⟩
    intro c' hc'
    rw [hroot.successor.checkpoint] at hc'
    cases hc'
    refine ⟨frames.length, ?_⟩
    unfold BoundaryAt
    rw [if_neg (by rw [hrot]; decide), take_length,
      hroot.base h.sourced hplain h.framed hc.boundary]
    exact ⟨le_refl _, hc.boundary⟩

end

/-! ## Whole runs -/

/-- No manifest of the directory names this segment. -/
def segmentFree (N : Native) (d : Dir) (s : Selected) (segment : Digest) : Bool :=
  (generations d).all fun g =>
    match inspect N d [] s g with
    | .ok root => root.selected.all fun r => decide (r.logFile ≠ .log segment)
    | .error _ => true

theorem Tidy.unshared (h : Tidy N e s frames) {s' : Selected} {segment : Digest}
    (hfree : segmentFree N e s segment) (hl : s'.logFile = .log segment) : Unshared N e s s' := by
  intro selector r hr hname hrl
  have hmem : Name.manifest selector.generation ∈ e := by
    have := selectRoot_mem hr
    unfold Selected.manifestFile CurrentSelector.file at this
    rwa [(selectRoot_agrees hr).selector_eq] at this
  obtain ⟨root, hins, -, -⟩ := h.legible _ hmem
  have hsel := inspect_selected hr hname hins
  have := all_eq_true.1 hfree _ (mem_generations.2 hmem)
  rw [hins] at this
  simp only [hsel, all_some, decide_eq_true_eq] at this
  exact absurd (hrl.trans hl) this

/-- A checkpoint that does not start on a half-pruned generation, and draws a new segment. -/
def Traced.Ready (N : Native) (t : Traced) : Action → Prop
  | .checkpoint draws _ _ _ _ =>
    (nextGeneration t.store.selected.metadata.generation).toOption.all
      (fun g => decide (Name.manifest g ∈ t.store.dir → Name.snapshot g ∈ t.store.dir)) ∧
    segmentFree N t.store.dir t.store.selected draws.segment
  | _ => True

instance (t : Traced) : (a : Action) → Decidable (t.Ready N a)
  | .checkpoint .. => inferInstanceAs (Decidable (_ ∧ _))
  | .commit .. => isTrue trivial
  | .prune .. => isTrue trivial
  | .reopen => isTrue trivial

/-- The steps that number no record `u64::MAX` and are ready. -/
def Traced.stepReady (N : Native) (t : Traced) (a : Action) : Option Traced :=
  if t.Below a ∧ t.Ready N a then some (t.step N a) else none

theorem Rooted.unique {s' : Selected} (h : Rooted N d s) (h' : Rooted N d s')
    (hid : s'.metadata.identity = s.metadata.identity) :
    s' = s := by
  have h1 := h.selectIn
  rw [← hid, h'.selectIn] at h1
  exact Except.ok.inj h1

theorem Good.fine_self (h : Good N t s frames inflight cut k) : Fine N t.store.dir s frames s := by
  have hsnap := h.snapshot
  refine ⟨fun hc => ?_, fun _ => ⟨rfl, h.sourced.based, fun c hc => ?_⟩, fun hn => absurd rfl hn,
    fun _ hlt => (by omega),
    fun hlt => (by omega)⟩
  · obtain ⟨c, hc⟩ := isSome_iff_exists.1 hc
    rw [hc] at hsnap
    cases hi : t.image with
    | none => rw [hi] at hsnap; exact hsnap.elim
    | some i =>
      rw [hi] at hsnap
      obtain ⟨-, -, file, hfile, hholds⟩ := hsnap
      exact ⟨fun _ => ⟨_, hholds.body hc hfile⟩, fun hf => by cases hf⟩
  · rw [hc] at hsnap
    cases hi : t.image with
    | none => rw [hi] at hsnap; exact hsnap.elim
    | some i => rw [hi] at hsnap; exact ⟨k, hsnap.2.1⟩

/-- The directory of a store is tidy, or has an orphan. -/
def Orderly (N : Native) (t : Traced) : Prop :=
  ∃ s frames inflight cut k, Good N t s frames inflight cut k ∧
    (Tidy N t.store.dir s frames ∨ Orphaned t.store.dir s)

section

variable {c : SnapshotContext} {g : UInt64} {body file bytes : Bytes} {s' : Selected} {t' : Traced}
  {result : Ending StreamError Selected}

theorem Outcome.old_of_current (ho : Outcome N t t' s frames inflight cut k body result)
    (h : Good N t s frames inflight cut k) (hcur : t'.store.dir[Name.current]? =
      t.store.dir[Name.current]?) : Good N t' s frames inflight cut k := by
  cases ho with
  | old hg => exact hg
  | new hg _ hroot => exact absurd hcur (h.current_changed hg hroot.next)

theorem Traced.Ready.manifest_free {draws : Draws} {acquire : Option PersistError}
    {publication : UInt64} {fs : List Fault}
    (h : t.Ready N (.checkpoint draws acquire body publication fs))
    (hnext : nextGeneration t.store.selected.metadata.generation = .ok g)
    (hfree : Name.snapshot g ∉ t.store.dir) :
    Name.manifest g ∉ t.store.dir := by
  intro hm
  have := h.1
  rw [hnext] at this
  simp only [Except.toOption, all_some, decide_eq_true_eq] at this
  exact hfree (this hm)

section

variable (hN : N.Lawful) (h : Good N t s frames inflight cut k) (ht : Tidy N t.store.dir s frames)
include hN h ht

/-- The publication of a new root's control files over the directory `B`, which has its data
files. -/
theorem Good.orderly_publishing (hset : t.inflight = []) {B : Dir}
    (hroot : Successor N s c g file bytes s')
    (hdec : decodeRoot N bytes s'.selector s'.metadata.identity = .ok s')
    (hlen : bytes.length ≤ Dir.maxControl) (hB : Rooted N B s) (hsnap : Name.snapshot g ∈ B)
    (hman : Name.manifest g ∉ B) (hcur : B[Name.current]? = t.store.dir[Name.current]?)
    (hu : Unshared N t.store.dir s s')
    (hk : Continues s s' frames (if s.checkpoint.isSome then [] else frames))
    (hplaced : ∀ d : Dir, (∀ n : Name, n.isTemp = false → n ≠ .current →
      d[n]? = (B.insert (.manifest g) bytes)[n]?) →
      Placed N t.store.dir d s s' frames)
    (ho : Outcome N t t' s frames inflight cut k body result)
    (hp : Publishing N B bytes s'.selector t'.store.dir) :
    Orderly N t' := by
  obtain ⟨hg, hmf, -⟩ := hroot.files
  have hfile : s'.selector.file = .manifest g := hmf
  rcases hp with (hup | ⟨-, hup⟩) | hpub
  · -- the manifest is not there yet
    refine ⟨s, _, _, _, _, ho.old_of_current h ((hup _ rfl).trans hcur),
      .inr ⟨g, hroot.next, ?_, ?_⟩⟩
    · exact (hup.mem rfl).2 hsnap
    · exact fun hm => hman ((hup.mem rfl).1 hm)
  · -- the manifest is there, and not selected
    rw [hfile] at hup
    have hgood := ho.old_of_current h (by rw [hup _ rfl, getElem?_insert_ne _ _ (by simp), hcur])
    exact ⟨s, _, _, _, _, hgood, .inl ((hplaced _ fun n hn _ => hup n hn).tidy_old ht h.rooted
      h.sourced hu)⟩
  · have hrooted := Published.rooted_successor hB hroot hdec hlen hpub
    have hident : s'.metadata.identity = s.metadata.identity := by rw [hroot.metadata]; rfl
    obtain ⟨current, -, -, hup⟩ := hpub
    have hpl : Placed N t.store.dir t'.store.dir s s' frames := by
      refine hplaced _ fun n hn hc => ?_
      rw [hup n hn, getElem?_insert_ne _ _ (Ne.symm hc), hfile]
    cases ho with
    | old hgood =>
      have hgen := nextGeneration_ok hroot.next
      rw [← hg, hgood.rooted.unique hrooted hident] at hgen
      omega
    | @new s1 frames1 k1 hgood _ hnew _ _ hseg =>
      have hs : s1 = s' := hrooted.unique hgood.rooted (by rw [hnew.identity, hident])
      subst hs
      rw [← hseg] at hk
      exact ⟨s1, _, _, _, _, hgood, .inl (hpl.tidy_new hN ht h.rooted h.sourced hu (h.intact hset)
        hk hgood.fine_self)⟩

theorem Good.orderly_checkpoint
    (draws : Draws) (acquire : Option PersistError) (body : Bytes) (publication : UInt64)
    (fs : List Fault) (hready : t.Ready N (.checkpoint draws acquire body publication fs)) :
    Orderly N (t.step N (.checkpoint draws acquire body publication fs)) := by
  have ho := h.checkpoint draws acquire body publication fs
  have hdir : (t.step N (.checkpoint draws acquire body publication fs)).store.dir =
      (t.store.checkpoint N draws acquire body publication fs).2.dir := rfl
  generalize t.step N (.checkpoint draws acquire body publication fs) = t' at ho hdir ⊢
  -- the snapshot alone
  have horphan : ∀ {g file c}, nextGeneration s.metadata.generation = .ok g → t.store.selected = s →
      Snapped N t.store.dir g body c file t'.store.dir → Orderly N t' := by
    rintro g file c hnext rfl ⟨-, hfree, hup⟩
    have hgood := ho.old_of_current h (by rw [hup _ rfl, getElem?_insert_ne _ _ (by simp)])
    refine ⟨_, _, _, _, _, hgood, .inr ⟨g, hnext, ?_,
      fun hm => hready.manifest_free hnext hfree ?_⟩⟩
    · exact (hup.mem rfl).2 (mem_dir_iff.2 ⟨file, getElem?_insert_self _ _ _⟩)
    · rwa [hup.mem rfl, mem_dir_congr (getElem?_insert_ne _ _ (by simp))] at hm
  rcases h.checkpoint_dir draws acquire body publication fs with hup | ⟨hsel, c, hc, hkind⟩
  · rw [← hdir] at hup
    exact ⟨s, _, _, _, _, ho.old_of_current h (hup _ rfl), .inl (ht.upto hup)⟩
  rw [← hdir] at hkind
  rcases hkind with ⟨hlater, hr⟩ | ⟨hfirst, hr⟩
  · cases hr with
    | before hup => exact ⟨s, _, _, _, _, ho.old_of_current h (hup _ rfl), .inl (ht.upto hup)⟩
    | snapped hnext hs => exact horphan hnext hsel hs
    | @publishing g file bytes s' root henc hfree hlog hp =>
      have hman := hready.manifest_free (hsel ▸ root.successor.next) hfree
      have hne : s'.logFile ≠ s.logFile := fun he => hlog (he ▸ mem_dir_iff.2 ⟨_, h.log_file⟩)
      have hother : ∀ n : Name, n ≠ .snapshot g → n ≠ s'.logFile →
          (rotationBase t.store.dir g file s')[n]? = t.store.dir[n]? := by
        intro n h1 h2
        rw [rotationBase, getElem?_insert_ne _ _ h2.symm, getElem?_insert_ne _ _ h1.symm]
      have hlogs : s'.logFile ≠ .snapshot g := (logFile_ne s' _).symm
      refine h.orderly_publishing hN ht hc.settled root.successor root.decodes
        (Control.decode_encode root.encoded).2.2
        ?_ ?_ ?_ (hother _ (by simp) (logFile_ne s' _))
        (ht.unshared (hsel ▸ hready.2) root.logFile)
          (.inr ⟨hne, _, by rw [root.selected]; rfl, ?_, rfl⟩)
        (fun d hd => h.placed_rotated hN hc root henc hlog hman hd) ho hp
      · refine (h.rooted.insert hfree (snapshot_recognized root.successor.next)).insert ?_
          (log_recognized s')
        rwa [mem_dir_congr (getElem?_insert_ne _ _ hlogs.symm)]
      · rw [mem_dir_iff, rotationBase, getElem?_insert_ne _ _ hlogs, getElem?_insert_self]
        exact ⟨file, rfl⟩
      · rwa [mem_dir_congr (hother _ (by simp) (logFile_ne s' _))]
      · rw [← hc.boundary]; rfl
  · cases hr with
    | before hup => exact ⟨s, _, _, _, _, ho.old_of_current h (hup _ rfl), .inl (ht.upto hup)⟩
    | snapped hnext hs => exact horphan hnext hsel hs
    | @publishing g file bytes s' root henc hfree hp =>
      have hman := hready.manifest_free (hsel ▸ root.successor.next) hfree
      have hplain := h.sourced.plain hfirst
      have hrot : s'.rotation = none := by rw [root.selected]; rfl
      have hl : s'.logFile = s.logFile := by unfold logFile; rw [hrot, hplain]
      refine h.orderly_publishing hN ht hc.settled root.successor
        (root.decodes (validate_dataManifest h.sourced hplain root.successor.next h.framed
          hc.boundary henc))
        (Control.decode_encode root.encoded).2.2
          (h.rooted.insert hfree (snapshot_recognized root.successor.next))
        (mem_dir_iff.2 ⟨file, getElem?_insert_self _ _ _⟩) ?_ (getElem?_insert_ne _ _ (by simp))
          (fun _ _ _ _ _ => hl)
        (.inl ⟨hfirst, hplain, hl, root.base h.sourced hplain h.framed hc.boundary,
          hrot, by simp [hfirst]⟩)
        (fun d hd => h.placed_checkpointed hc hfirst root henc hman hd) ho hp
      rwa [mem_dir_congr (getElem?_insert_ne _ _ (by simp))]

end

end

theorem step_orderly (hN : N.Lawful) {t t' : Traced} {a : Action}
    (hstep : t.stepReady N a = some t') (h : Orderly N t) :
    Orderly N t' := by
  unfold Traced.stepReady at hstep
  split at hstep
  swap
  · cases hstep
  rename_i hready
  obtain ⟨hb, hready⟩ := hready
  cases hstep
  obtain ⟨s, frames, inflight, cut, k, hg, ht | ho⟩ := h
  swap
  · obtain ⟨frames', inflight', cut', hg', ho'⟩ := hg.stuck hN ho hb
    exact ⟨s, frames', inflight', cut', k, hg', .inr ho'⟩
  cases a with
  | commit bodies compression limit env =>
    obtain ⟨more, inflight', cut', hg'⟩ := hg.commit bodies compression limit env hb
    have hdir : ∀ {n}, n ≠ s.logFile → _ := fun hn => hg.commit_dir bodies compression limit env hn
    refine ⟨s, _, _, _, _, hg', .inl (ht.mono (fun n hn _ => .inl (hdir hn)) (fun _ _ _ _ n _ hn =>
      hdir hn) ?_ more)⟩
    exact fun ho => ht.paired (ho.congr fun n _ h1 h2 =>
      (mem_dir_congr (hdir (logFile_ne s n h1 h2))).symm)
  | checkpoint draws acquire body publication fs =>
      exact hg.orderly_checkpoint hN ht draws acquire body publication fs hready
  | prune acquire leases fs =>
    refine ⟨s, _, _, _, _, hg.prune acquire leases fs, .inl ?_⟩
    rcases hg.prune_dir acquire leases fs with hdir | ⟨p, roots, history, hp, hthin⟩
    · rw [hdir]; exact ht
    · exact ht.thinned hp hthin
  | reopen =>
    obtain ⟨more, inflight', cut', hg'⟩ := hg.reopen hN
    have hdir : (t.step N .reopen).store.dir = t.store.dir := by
      rw [Traced.step]
      cases Persist.reopen N t.store.dir t.identity defaultLimit <;> rfl
    refine ⟨s, _, _, _, _, hg', .inl ?_⟩
    rw [hdir]
    exact ht.mono (fun _ _ _ => .inl rfl) (fun _ _ _ _ _ _ _ => rfl) ht.paired more

theorem run_orderly (hN : N.Lawful) {as : List Action} {t t' : Traced}
    (h : run (Traced.stepReady N) t as = some t') (ht : Orderly N t) : Orderly N t' :=
  run_invariant (fun hs => step_orderly hN hs) h ht

/-- **A created store is tidy**: it has the empty manifest and the plain log. -/
theorem tidy_initial {emptyDraws logDraws : Draws} {identity : CompatibilityIdentity}
    {storeId : StoreId} {st : Store} (hN : N.NoZero) (hv4 : storeId.isV4 = true)
    (hseg : logDraws.segment ≠ zeroDigest)
    (h : Store.create N emptyDraws logDraws identity storeId = some st) :
    Tidy N st.dir st.selected [] := by
  have hgood := good_initial hN hv4 hseg h
  have hrooted : Rooted N st.dir st.selected := hgood.rooted
  obtain ⟨hv, ebytes, e, selector, generation, bytes, henc, hsel, ⟨cur, -, -, hup⟩, -, hc,
    ⟨cur', -, -, hup'⟩⟩ := create_spec h
  have hs := hc.selected
  have hrot : st.selected.rotation = none := by rw [hs]; rfl
  have hsfile : selector.file = .manifest 1 := by rw [hsel]; rfl
  have hgen : st.selected.metadata.generation = generation := by rw [hs]; rfl
  have hgen2 : generation.toNat = 2 := nextGeneration_ok hc.next
  have hsfile' : st.selected.selector.file = .manifest generation := by rw [hs]; rfl
  -- manifests and snapshots are those of the two publications
  have hold : ∀ n : Name, n.isTemp = false → n ≠ .current → n ≠ .firstLog →
    n ≠ .manifest generation → n ≠ .manifest 1 →
      st.dir[n]? = locked[n]? := by
    intro n hn h1 h2 h3 h4
    rw [hup' n hn, getElem?_insert_ne _ _ h1.symm, hsfile', getElem?_insert_ne _ _ h3.symm,
      getElem?_insert_ne _ _ h2.symm,
      hup n hn, getElem?_insert_ne _ _ h1.symm, hsfile, getElem?_insert_ne _ _ h4.symm]
  have hman : ∀ g, Name.manifest g ∈ st.dir → g = 1 ∨ g = generation := by
    intro g hg
    by_contra hne
    push Not at hne
    rw [mem_dir_congr (hold _ rfl (by simp) (by simp) (by simpa using hne.2)
      (by simpa using hne.1)), mem_locked] at hg
    simp at hg
  have hsnap : ∀ g, Name.snapshot g ∉ st.dir := by
    intro g hg
    rw [mem_dir_congr (hold _ rfl (by simp) (by simp) (by simp) (by simp)), mem_locked] at hg
    simp at hg
  have hne1 : (1 : UInt64) ≠ generation := by
    rintro rfl
    exact absurd hgen2 (by decide)
  have hempty : st.dir[Name.manifest 1]? = some ebytes := by
    rw [hup' _ rfl, getElem?_insert_ne _ _ (by simp), hsfile',
      getElem?_insert_ne _ _ (by simpa using hne1.symm),
      getElem?_insert_ne _ _ (by simp), hup _ rfl, getElem?_insert_ne _ _ (by simp), hsfile,
      getElem?_insert_self]
  refine ⟨fun g hg => ?_, fun rot hr => (by rw [hrot] at hr; cases hr), fun g hg => ?_, ?_⟩
  · rcases hman g hg with rfl | rfl
    · obtain ⟨hdec, htake, hlen⟩ := Control.decode_encode henc
      refine ⟨⟨1, none, false⟩, ?_, fun r hr => (by cases hr), fun hlt => ?_⟩
      · unfold inspect decodeAny EmptyManifest.decode
        rw [readBounded_of hempty hlen]
        simp only [htake, if_true, checked_of hdec hv, Except.map]
        rw [if_neg]
        · simp
        · rw [hs]
          simp [logManifest, LogicalManifest.select, emptyManifest]
      · rw [hgen, hgen2] at hlt
        exact absurd hlt (by decide)
    · obtain ⟨root, hins, hr⟩ :=
        inspect_of_selectRoot hrooted.selects.1 hrooted.selects.2 rfl rfl []
      rw [hgood.sourced.selector, hgen] at hins
      refine ⟨root, hins, fun r hr' => ?_, fun _ => by rw [hr]; rfl⟩
      rw [hr] at hr'
      cases hr'
      exact hgood.fine_self
  · rcases hg with hg | hg
    · rw [hgen, hgen2]
      rcases hman g hg with rfl | rfl
      · decide
      · omega
    · exact absurd hg (hsnap g)
  · rintro ⟨g, -, hg, -⟩
    exact hsnap g hg

end Selene.Persist
