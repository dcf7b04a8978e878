import Selene.Persist.Prune

/-!
# Pruning keeps what is needed

Every function that decides about a root reads three entries of the directory: the
root's manifest, its segment and its snapshot. So the plan, and a later reopen, see the
same directory as long as these stay (`verify_congr`, `Planned.reopen_thin`). What a prune
unlinks is a part of what no retained root depends on, dependencies before manifests:
the directory after any number of unlinks still carries a manifest for every file that
is left to unlink, and the next plan contains the rest of this one (`replan`).
-/

namespace Selene.Persist

open Octets Disk List Name CurrentSelector

variable {N : Native} {d d' : Dir}

variable {required : Bool} {bytes : Bytes} {selector : CurrentSelector} {todo : List ArtifactBytes} {n : Name}
  {sealedEnd : Option Position} {root : Root} {s : Selected} {g : UInt64}

/-! ## What is read -/

theorem mem_dir_iff : n ∈ d ↔ ∃ b, d[n]? = some b := by
  rw [Std.ExtTreeMap.mem_iff_isSome_getElem?, Option.isSome_iff_exists]

theorem mem_dir_congr (h : d'[n]? = d[n]?) : n ∈ d' ↔ n ∈ d := by
  rw [mem_dir_iff, mem_dir_iff, h]

theorem openRead_congr (h : d'[n]? = d[n]?) : d'.openRead n = d.openRead n := by
  unfold Dir.openRead; rw [h]

theorem openRead_ok {b : Bytes} : d.openRead n = .ok b ↔ d[n]? = some b := by
  unfold Dir.openRead
  cases d[n]? <;> simp

theorem readBounded_congr (h : d'[n]? = d[n]?) : d'.readBounded n = d.readBounded n := by
  unfold Dir.readBounded; rw [openRead_congr h]

theorem readBounded_ok {b : Bytes} (h : d.readBounded n = .ok b) : d[n]? = some b := by
  unfold Dir.readBounded at h
  split at h
  · cases h
  rename_i b' hb
  split at h
  · cases h
  cases h
  exact openRead_ok.1 hb

theorem selectRoot_congr {expected : CompatibilityIdentity} (h : d'[selector.file]? = d[selector.file]?) :
    selectRoot N d' selector expected = selectRoot N d selector expected := by
  unfold selectRoot; rw [readBounded_congr h]

theorem checked_ok {α : Type} {x : Except ControlError α} {check : α → Except ControlError Unit} {a : α}
    (h : checked x check = .ok a) : x = .ok a ∧ check a = .ok () := by
  unfold checked at h
  split at h
  · cases h
  rename_i b
  split at h
  · cases h
  rename_i hb
  cases h
  exact ⟨rfl, hb⟩

theorem matchSelector_ok {m : EmptyManifest} {expected : CompatibilityIdentity}
    (h : matchSelector m selector expected = .ok ()) :
    m.storeId = selector.storeId ∧ m.epoch = selector.epoch ∧ m.generation = selector.generation ∧
      m.identity = expected := by
  unfold matchSelector at h
  split at h
  · cases h
  rename_i h₁
  split at h
  · cases h
  rename_i h₂
  push Not at h₁ h₂
  exact ⟨h₁.1, h₁.2.1, h₁.2.2, h₂⟩

/-- A decoded root carries its selector, and its metadata agrees with it. -/
structure Agrees (s : Selected) (selector : CurrentSelector) (expected : CompatibilityIdentity) : Prop where
  selector_eq : s.selector = selector
  storeId : s.metadata.storeId = selector.storeId
  epoch : s.metadata.epoch = selector.epoch
  generation : s.metadata.generation = selector.generation
  identity : s.metadata.identity = expected
  parent : ∀ r, s.rotation = some r → r.previous.selector =
    ⟨s.metadata.storeId, s.metadata.epoch, r.previous.selector.generation,
      manifestName r.previous.selector.generation, r.previous.selector.digest⟩ ∧
    s.metadata.parent = some ⟨r.previous.selector.generation, r.previous.selector.digest⟩

theorem rotating_lineage {m : RotatingManifest} (h : m.validate = .ok ()) :
    m.wellFormed ∧ m.rotation.previous.selector.validate = .ok () ∧ m.metadata.validate = .ok () := by
  unfold RotatingManifest.validate at h
  split at h
  · cases h
  rename_i h0
  split at h
  · cases h
  rename_i h₁
  split at h
  · exact ⟨‹_›, h₁, h0⟩
  · cases h

theorem selector_name {s : CurrentSelector} (h : s.validate = .ok ()) :
    s.manifestName = manifestName s.generation := by
  unfold validate at h
  split at h
  · cases h
  · rename_i h₁
    push Not at h₁
    exact h₁.2.2.2

variable {expected : CompatibilityIdentity}

theorem decodeRoot_agrees (h : decodeRoot N bytes selector expected = .ok s) : Agrees s selector expected := by
  unfold decodeRoot DataManifest.decodeSelected RotatingManifest.decodeSelected at h
  split at h
  · split at h
    · cases h
    rename_i m hm
    cases h
    obtain ⟨h₁, h₂, h3, h4⟩ := matchSelector_ok (checked_ok hm).2
    exact ⟨rfl, h₁, h₂, h3, h4, fun r hr => by cases hr⟩
  split at h
  · split at h
    · cases h
    rename_i m hm
    cases h
    obtain ⟨h₁, h₂, h3, h4⟩ := matchSelector_ok (checked_ok hm).2
    obtain ⟨hw, hsel, -⟩ := rotating_lineage (checked_ok (checked_ok hm).1).2
    obtain ⟨a1, a2, a3, a4, -, -, -, -, -, -, -, -, -, -, -, -, -, -, -, -, -, b1, b2, -, b3, -⟩ := hw
    refine ⟨rfl, h₁, h₂, h3, h4, fun r hr => ?_⟩
    cases hr
    refine ⟨?_, b3⟩
    rcases hp : m.rotation.previous.selector with ⟨i, e, g, n, dg⟩
    rw [hp] at b1 b2 hsel
    have hn := selector_name hsel
    simp only at b1 b2 hn
    simp only [RotatingManifest.select, mk.injEq, true_and]
    exact ⟨by rw [b1, a3, a1], by rw [b2, a4, a2], hn, trivial⟩
  · split at h
    · cases h
    rename_i m hm
    cases h
    obtain ⟨h₁, h₂, h3, h4⟩ := matchSelector_ok (checked_ok hm).2
    exact ⟨rfl, h₁, h₂, h3, h4, fun r hr => by cases hr⟩

section

variable (h : selectRoot N d selector expected = .ok s)
include h

theorem selectRoot_ok :
    ∃ bytes, d.readBounded selector.file = .ok bytes ∧ N.hash bytes = selector.digest ∧
      decodeRoot N bytes selector expected = .ok s := by
  unfold selectRoot at h
  split at h
  · cases h
  rename_i bytes hb
  split at h
  · cases h
  rename_i hh
  refine ⟨bytes, hb, by simpa using hh, ?_⟩
  unfold control at h
  split at h
  · cases h
  · rename_i hs
    cases h
    exact hs

theorem selectRoot_agrees : Agrees s selector expected := by
  obtain ⟨bytes, -, -, hs⟩ := selectRoot_ok h
  exact decodeRoot_agrees hs

theorem selectRoot_file : selector.file = s.manifestFile := by
  unfold Selected.manifestFile
  rw [(selectRoot_agrees h).selector_eq]

theorem selectRoot_mem : s.manifestFile ∈ d := by
  obtain ⟨bytes, hb, -, -⟩ := selectRoot_ok h
  rw [mem_dir_iff]
  rw [← selectRoot_file h]
  exact ⟨bytes, readBounded_ok hb⟩

end

theorem snapshotBody_congr {limit : ℕ} (h : s.checkpoint.isSome → d'[s.snapshotFile]? = d[s.snapshotFile]?) :
    snapshotBody N d' s limit = snapshotBody N d s limit := by
  unfold snapshotBody readSnapshot
  cases hc : s.checkpoint with
  | none => rfl
  | some c => rw [openRead_congr (h (by rw [hc]; rfl))]

namespace Prune

theorem mem_dependencies : n ∈ dependencies s ↔
    n = s.manifestFile ∨ n = s.logFile ∨ s.checkpoint.isSome ∧ n = s.snapshotFile := by
  unfold dependencies
  split <;> simp [*]

theorem manifest_mem (s : Selected) : s.manifestFile ∈ dependencies s := by simp [dependencies]

theorem log_mem (s : Selected) : s.logFile ∈ dependencies s := by simp [dependencies]

theorem snapshot_mem (h : s.checkpoint.isSome) : s.snapshotFile ∈ dependencies s := by
  simp [dependencies, h]

/-- What `verify` finds out about the segment's bytes alone. -/
def LogOk (N : Native) (root : Selected) (sealedEnd : Option Position) (file : Bytes) : Prop :=
  (∀ p ∈ sealedEnd, file.length = p.offset.toNat) ∧ verifySegment N root sealedEnd file = .ok ()

/-- What it finds out about the snapshot. -/
def SnapshotOk (N : Native) (d : Dir) (root : Selected) (required : Bool) : Prop :=
  root.checkpoint.isSome →
    (root.snapshotFile ∈ d → ∃ b, snapshotBody N d root Frame.maxPayload = .ok b) ∧
    (required = true → root.snapshotFile ∈ d)

theorem map_unit_ok {α : Type} {x : Except StreamError α} : x.map (fun _ => ()) = .ok () ↔ ∃ a, x = .ok a := by
  cases x <;> simp [Except.map]

variable {root : Selected}

theorem verifySnapshot_ok :
    verifySnapshot N d root required = .ok () ↔ SnapshotOk N d root required := by
  unfold verifySnapshot SnapshotOk
  cases hc : root.checkpoint with
  | none => simp
  | some c =>
    by_cases hs : root.snapshotFile ∈ d
    · simp [hs, map_unit_ok]
    · cases required <;> simp [hs]

theorem verifyLog_ok {file : Bytes} : verifyLog N d root sealedEnd required file = .ok () ↔
      root.manifestFile ∈ d ∧ SnapshotOk N d root required ∧ LogOk N root sealedEnd file := by
  have hlen : (sealedEnd.any fun p => decide (file.length ≠ p.offset.toNat)) = true ↔
      ¬ ∀ p ∈ sealedEnd, file.length = p.offset.toNat := by
    cases sealedEnd <;> simp
  unfold verifyLog LogOk
  simp only [hlen]
  by_cases hl : ∀ p ∈ sealedEnd, file.length = p.offset.toNat
  swap
  · rw [if_pos hl]
    exact ⟨fun h => (by cases h), fun h => absurd h.2.2.1 hl⟩
  rw [if_neg (not_not.2 hl), mem_dir_iff, ← verifySnapshot_ok]
  cases hm : d[root.manifestFile]? with
  | none => simp [Dir.openRead, hm]
  | some m =>
    rw [openRead_ok.2 hm]
    rcases hs : verifySnapshot N d root required with e | _
    · simp
    · simp only [Option.some.injEq, exists_eq', true_and]
      exact ⟨fun h => ⟨hl, h⟩, fun h => h.2⟩

theorem verify_ok : verify N d root sealedEnd required = .ok () ↔
      (root.logFile ∈ d → root.manifestFile ∈ d) ∧
      (root.logFile ∉ d → root.checkpoint.isSome → root.snapshotFile ∈ d → root.manifestFile ∈ d) ∧
      SnapshotOk N d root required ∧ (required = true → root.logFile ∈ d) ∧
      ∀ file, d[root.logFile]? = some file → LogOk N root sealedEnd file := by
  unfold verify
  cases hl : d[root.logFile]? with
  | some file =>
    have hmem : root.logFile ∈ d := mem_dir_iff.2 ⟨file, hl⟩
    simp only [verifyLog_ok, hmem, true_implies, not_true, false_implies, true_and,
      Option.some.injEq, forall_eq', implies_true]
  | none =>
    have hmem : root.logFile ∉ d := by rw [mem_dir_iff, hl]; simp
    simp only [hmem, false_implies, not_false_eq_true, true_implies, true_and, reduceCtorEq,
      implies_true, and_true, imp_false, Bool.not_eq_true]
    cases required with
    | true => simp
    | false =>
      simp only [Bool.false_eq_true, if_false, and_true]
      by_cases hs : root.checkpoint.isSome ∧ root.snapshotFile ∈ d
      · unfold SnapshotOk
        cases hm : d[root.manifestFile]? with
        | none =>
          have : root.manifestFile ∉ d := by rw [mem_dir_iff, hm]; simp
          simp [Dir.openRead, this, hs.1, hs.2]
        | some m =>
          have : root.manifestFile ∈ d := mem_dir_iff.2 ⟨m, hm⟩
          simp [openRead_ok.2 hm, this, hs.1, hs.2, map_unit_ok]
      · rw [if_neg hs]
        simp only [true_iff]
        exact ⟨fun h₁ h₂ => absurd ⟨h₁, h₂⟩ hs, fun h₁ => ⟨fun h₂ => absurd ⟨h₁, h₂⟩ hs, fun h => (by cases h)⟩⟩

theorem verify_congr (h : ∀ n ∈ dependencies root, d'[n]? = d[n]?) :
    verify N d' root sealedEnd required = .ok () ↔ verify N d root sealedEnd required = .ok () := by
  have hlog := h _ (log_mem root)
  have hman := h _ (manifest_mem root)
  have hsnap : root.checkpoint.isSome → d'[root.snapshotFile]? = d[root.snapshotFile]? :=
    fun hc => h _ (snapshot_mem hc)
  rw [verify_ok, verify_ok, hlog, mem_dir_congr hlog, mem_dir_congr hman]
  unfold SnapshotOk
  by_cases hc : root.checkpoint.isSome
  · rw [snapshotBody_congr hsnap, mem_dir_congr (hsnap hc)]
  · simp [hc]

/-- A root that is not required may lose files, as long as its manifest is there. -/
theorem verify_thin (hman : root.manifestFile ∈ d')
    (h : ∀ n ∈ dependencies root, d'[n]? = d[n]? ∨ d'[n]? = none)
    (hv : verify N d root none required = .ok ()) : verify N d' root none false = .ok () := by
  obtain ⟨-, -, hs, -, hlog⟩ := verify_ok.1 hv
  rw [verify_ok]
  refine ⟨fun _ => hman, fun _ _ _ => hman, fun hc => ⟨fun hmem => ?_, fun h => (by cases h)⟩,
    fun h => (by cases h), fun file hf => ?_⟩
  · have hsame : d'[root.snapshotFile]? = d[root.snapshotFile]? := by
      rcases h _ (snapshot_mem hc) with h | h
      · exact h
      · obtain ⟨b, hb⟩ := mem_dir_iff.1 hmem
        rw [h] at hb; cases hb
    rw [snapshotBody_congr fun _ => hsame]
    exact (hs hc).1 ((mem_dir_congr hsame).1 hmem)
  · rcases h _ (log_mem root) with h | h
    · exact hlog file (by rw [← h, hf])
    · rw [h] at hf; cases hf

end Prune

/-! ## What a plan says -/

namespace Prune

variable {α β ε : Type} {f : α → Except ε β} {l : List α}

theorem mapM_ok : ∀ {rs : List β},
    l.mapM f = .ok rs → (∀ a ∈ l, ∃ b, f a = .ok b) ∧ ∀ b, b ∈ rs ↔ ∃ a ∈ l, f a = .ok b := by
  induction l with
  | nil => intro rs h; cases h; simp
  | cons a l ih =>
    intro rs h
    rw [mapM_cons] at h
    cases ha : f a with
    | error e => rw [ha] at h; cases h
    | ok c =>
      rw [ha] at h
      cases hl : l.mapM f with
      | error e => rw [hl] at h; cases h
      | ok cs =>
        rw [hl] at h
        cases h
        refine ⟨forall_mem_cons.2 ⟨⟨c, ha⟩, (ih hl).1⟩, fun b => ?_⟩
        simp only [mem_cons, (ih hl).2 b, exists_eq_or_imp, ha, Except.ok.injEq]
        exact or_congr eq_comm Iff.rfl

theorem mapM_complete (h : ∀ a ∈ l, ∃ b, f a = .ok b) :
    ∃ rs, l.mapM f = .ok rs := by
  induction l with
  | nil => exact ⟨[], rfl⟩
  | cons a l ih =>
    obtain ⟨b, hb⟩ := h a (mem_cons_self ..)
    obtain ⟨bs, hbs⟩ := ih fun x hx => h x (mem_cons_of_mem _ hx)
    exact ⟨b :: bs, by rw [mapM_cons, hb, hbs]; rfl⟩

theorem mem_generations : g ∈ generations d ↔ manifest g ∈ d := by
  unfold generations
  rw [mem_filterMap]
  constructor
  · rintro ⟨n, hn, h⟩
    cases n <;> simp only [reduceCtorEq, Option.some.injEq] at h
    subst h
    exact Std.ExtTreeMap.mem_keys.1 hn
  · intro h
    exact ⟨.manifest g, Std.ExtTreeMap.mem_keys.2 h, rfl⟩

variable {leases leases' : List Name} {current expected : Selected}

/-- The files of a root: its dependencies, or an empty store's manifest alone. -/
def rootDeps (root : Root) : List Name :=
  match root.selected with
  | some s => dependencies s
  | none => [root.file]

/-- What `inspect` returns for a generation. -/
structure Inspected (N : Native) (d : Dir) (leases : List Name) (current : Selected) (g : UInt64)
    (root : Root) : Prop where
  generation : root.generation = g
  leased : root.leased = decide (manifest g ∈ leases)
  mem : manifest g ∈ d
  selected : ∀ s, root.selected = some s →
    s.manifestFile = .manifest g ∧ selectRoot N d s.selector current.metadata.identity = .ok s
  named : ∀ s, root.selected = some s → s.selector.manifestName = manifestName s.selector.generation

theorem Inspected.root_generation (h : Inspected N d leases current g root) {s : Selected}
    (hs : root.selected = some s) : s.metadata.generation = g := by
  obtain ⟨hfile, hroot⟩ := h.selected s hs
  rw [(selectRoot_agrees hroot).generation]
  exact manifest.inj hfile

theorem inspect_spec (h : inspect N d leases current g = .ok root) :
    Inspected N d leases current g root := by
  unfold inspect at h
  split at h
  · cases h
  rename_i bytes hb
  have hmem : manifest g ∈ d := mem_dir_iff.2 ⟨bytes, readBounded_ok hb⟩
  split at h
  · cases h
  rename_i metadata empty hm
  split at h
  · cases h
  rename_i hg
  push Not at hg
  simp only at h
  split at h
  · cases h
    exact ⟨rfl, rfl, hmem, fun s hs => (by cases hs), fun s hs => by cases hs⟩
  split at h
  · cases h
  rename_i s hs
  cases h
  have hsel := (selectRoot_agrees hs).selector_eq
  refine ⟨rfl, rfl, hmem, fun t ht => ?_, fun t ht => by cases ht; rw [hsel]; rfl⟩
  cases ht
  refine ⟨?_, by rw [hsel]; exact hs⟩
  unfold Selected.manifestFile
  rw [hsel]
  exact congrArg manifest hg.2.2.2

theorem inspect_congr (h : d'[manifest g]? = d[manifest g]?) :
    inspect N d' leases current g = inspect N d leases current g := by
  unfold inspect
  rw [readBounded_congr h]
  split
  · rfl
  split
  · rfl
  split
  · rfl
  rename_i bytes hb _ metadata empty hm hg
  push Not at hg
  have hfile : (fromManifest metadata (N.hash bytes)).file = manifest g :=
    congrArg manifest hg.2.2.2
  have hsel : selectRoot N d' (.fromManifest metadata (N.hash bytes)) current.metadata.identity =
      selectRoot N d (.fromManifest metadata (N.hash bytes)) current.metadata.identity :=
    selectRoot_congr (by rw [hfile]; exact h)
  simp only [hsel]

theorem inspect_leases (h : inspect N d leases current g = .ok root) :
    inspect N d leases' current g = .ok { root with leased := decide (manifest g ∈ leases') } := by
  unfold inspect at h ⊢
  split at h
  · cases h
  split at h
  · cases h
  split at h
  · cases h
  rename_i hbad
  rw [if_neg hbad]
  simp only at h ⊢
  split at h
  · cases h
    rename_i he
    rw [if_pos he]
  rename_i he
  rw [if_neg he]
  split at h
  · cases h
  · cases h; rfl

theorem mem_retain {kept : Kept} {name : Name} {reason : RetentionReason} :
    n ∈ retain kept name reason ↔ n = name ∨ n ∈ kept := by
  unfold retain
  rw [Std.ExtTreeMap.mem_alter]
  split
  · rename_i h
    have : name = n := Std.LawfulEqCmp.eq_of_compare h
    subst this
    cases kept[name]? <;> simp
  · rename_i h
    have : n ≠ name := fun he => h (by rw [he]; exact Std.ReflCmp.compare_self)
    simp [this]

theorem mem_foldl_retain {names : List Name} {reason : RetentionReason} :
    ∀ {kept : Kept}, n ∈ names.foldl (retain · · reason) kept ↔ n ∈ names ∨ n ∈ kept := by
  induction names with
  | nil => simp
  | cons a names ih =>
    intro kept
    rw [foldl_cons, ih, mem_retain, mem_cons]
    tauto

variable {history : Option Selected}

/-- A root passes the verification its retention asks for. -/
def RootVerified (N : Native) (d : Dir) (current : Selected) (history : Option Selected) (root : Root) : Prop :=
  ∀ s, root.selected = some s → verify N d s none (reasonFor current history root).isSome = .ok ()

theorem planRoot_spec {p p' : Plan} (h : planRoot N d current history p root = .ok p') :
    RootVerified N d current history root ∧
    (∀ n, n ∈ p'.kept ↔ n ∈ p.kept ∨ ((reasonFor current history root).isSome ∧ n ∈ rootDeps root)) ∧
    ∀ n, n ∈ p'.candidates ↔ n ∈ p.candidates ∨ (reasonFor current history root = none ∧ n ∈ rootDeps root) := by
  unfold planRoot at h
  unfold RootVerified rootDeps
  rcases hs : root.selected with _ | s
  · rw [hs] at h
    cases hr : reasonFor current history root with
    | none => rw [hr] at h; cases h; simp
    | some reason =>
      rw [hr] at h; cases h
      simp only [mem_retain, mem_singleton, Option.isSome_some, true_and, reduceCtorEq,
        false_and, or_false, implies_true, and_true, false_implies]
      exact fun n => or_comm
  · rw [hs] at h
    simp only at h
    split at h
    · cases h
    rename_i hv
    refine ⟨fun t ht => (by cases ht; exact hv), ?_⟩
    cases hr : reasonFor current history root with
    | none => rw [hr] at h; cases h; simp
    | some reason =>
      rw [hr] at h; cases h
      simp only [mem_foldl_retain, Option.isSome_some, true_and, reduceCtorEq,
        false_and, or_false, implies_true, and_true]
      exact fun n => or_comm

theorem planRoot_complete {p : Plan} (h : RootVerified N d current history root) :
    ∃ p', planRoot N d current history p root = .ok p' := by
  unfold planRoot
  rcases hs : root.selected with _ | s
  · exact ⟨_, rfl⟩
  · simp only [h s hs]
    exact ⟨_, rfl⟩

theorem foldPlan_spec {roots : List Root} : ∀ {p p' : Plan},
    roots.foldlM (planRoot N d current history) p = .ok p' →
    (∀ root ∈ roots, RootVerified N d current history root) ∧
    (∀ n, n ∈ p'.kept ↔ n ∈ p.kept ∨
      ∃ root ∈ roots, (reasonFor current history root).isSome ∧ n ∈ rootDeps root) ∧
    ∀ n, n ∈ p'.candidates ↔ n ∈ p.candidates ∨
      ∃ root ∈ roots, reasonFor current history root = none ∧ n ∈ rootDeps root := by
  induction roots with
  | nil => intro p p' h; cases h; simp
  | cons root roots ih =>
    intro p p' h
    rw [foldlM_cons] at h
    cases hp : planRoot N d current history p root with
    | error e => rw [hp] at h; cases h
    | ok q =>
      rw [hp] at h
      obtain ⟨h₁, h₂, h3⟩ := planRoot_spec hp
      obtain ⟨g1, g2, g3⟩ := ih h
      refine ⟨fun r hr => ?_, fun n => ?_, fun n => ?_⟩
      · rcases mem_cons.1 hr with rfl | hr
        · exact h₁
        · exact g1 r hr
      · rw [g2, h₂]; simp only [mem_cons, exists_eq_or_imp, or_assoc]
      · rw [g3, h3]; simp only [mem_cons, exists_eq_or_imp, or_assoc]

theorem foldPlan_complete {roots : List Root} (h : ∀ root ∈ roots, RootVerified N d current history root) :
    ∀ p : Plan, ∃ p', roots.foldlM (planRoot N d current history) p = .ok p' := by
  induction roots with
  | nil => exact fun p => ⟨p, rfl⟩
  | cons root roots ih =>
    intro p
    obtain ⟨q, hq⟩ := planRoot_complete (p := p) (h root (mem_cons_self ..))
    obtain ⟨p', hp'⟩ := ih (fun r hr => h r (mem_cons_of_mem _ hr)) q
    exact ⟨p', by rw [foldlM_cons, hq]; exact hp'⟩

/-- Everything a successful plan has established. -/
structure Planned (N : Native) (d : Dir) (leases : List Name) (expected : Selected) (p : Plan)
    (current : Selected) (roots : List Root) (history : Option Selected) : Prop where
  size : d.size ≤ maxArtifacts
  select : selectIn N d expected.metadata.identity = .ok current
  established : current.selector = expected.selector
  inspected : ∀ g, manifest g ∈ d → ∃ root, inspect N d leases current g = .ok root
  roots_iff : ∀ root, root ∈ roots ↔ ∃ g, manifest g ∈ d ∧ inspect N d leases current g = .ok root
  history_eq : historyOf N d current roots = .ok history
  verified : verify N d current none true = .ok ()
  root_verified : ∀ root ∈ roots, RootVerified N d current history root
  kept_iff : ∀ n, n ∈ p.kept ↔ (n = .current ∨ n = .lock ∨ n = .manifestLock) ∨
    ∃ root ∈ roots, (reasonFor current history root).isSome ∧ n ∈ rootDeps root
  candidates_iff : ∀ n, n ∈ p.candidates ↔
    ∃ root ∈ roots, reasonFor current history root = none ∧ n ∈ rootDeps root

theorem planned_of_plan {p : Plan} (h : plan N d leases expected = .ok (p, current)) :
    ∃ roots history, Planned N d leases expected p current roots history := by
  unfold plan at h
  split at h
  · cases h
  rename_i hsize
  split at h
  · cases h
  rename_i current' hsel
  split at h
  · cases h
  rename_i hsame
  split at h
  · cases h
  rename_i roots hroots
  split at h
  · cases h
  rename_i history hhist
  split at h
  · cases h
  rename_i hver
  split at h
  · cases h
  rename_i q hq
  cases h
  obtain ⟨h₁, h₂, h3⟩ := foldPlan_spec hq
  refine ⟨roots, history, Nat.le_of_not_lt hsize, hsel, by simpa using hsame, ?_, ?_, hhist, hver, h₁, ?_, ?_⟩
  · intro g hg
    exact (mapM_ok hroots).1 g (mem_generations.2 hg)
  · intro root
    rw [(mapM_ok hroots).2]
    simp only [mem_generations]
  · intro n
    simp only [mem_retain, h₂, Std.ExtTreeMap.not_mem_empty, false_or]
    tauto
  · intro n
    rw [h3]; simp

theorem plan_complete {roots : List Root} (hsize : d.size ≤ maxArtifacts)
    (hsel : selectIn N d expected.metadata.identity = .ok current)
    (hsame : current.selector = expected.selector)
    (hroots : (generations d).mapM (inspect N d leases current) = .ok roots)
    (hhist : historyOf N d current roots = .ok history) (hver : verify N d current none true = .ok ())
    (hall : ∀ root ∈ roots, RootVerified N d current history root) :
    ∃ p, plan N d leases expected = .ok (p, current) := by
  obtain ⟨q, hq⟩ := foldPlan_complete hall ⟨∅, []⟩
  unfold plan
  rw [if_neg (by omega), hsel]
  simp only [hsame, ne_eq, not_true, if_false, hroots, hhist, hver, hq]
  exact ⟨_, rfl⟩

/-! ## The retained roots -/

theorem decode_magic {α : Type} {c : Codec α} {magic : Magic} {a : α}
    (h : Control.decode N c bytes magic = .ok a) : bytes.take 4 = magic.val := by
  unfold Control.decode at h
  split at h
  · cases h
  split at h
  · cases h
  rename_i e tail henv
  split at h
  · cases h
  rename_i hm
  push Not at hm
  obtain ⟨p, rfl, htake⟩ := Codec.take_of_dec henv
  rw [← hm.2, htake]

theorem decodeAny_of_decodeRoot
    {identity : CompatibilityIdentity} (h : decodeRoot N bytes selector identity = .ok s) :
    decodeAny N bytes = .ok (s.metadata, false) := by
  have hne : emptyMagic.val ≠ dataMagic.val ∧ emptyMagic.val ≠ rotatingMagic.val ∧
      emptyMagic.val ≠ logicalMagic.val := by decide
  unfold decodeRoot DataManifest.decodeSelected RotatingManifest.decodeSelected at h
  unfold decodeAny
  by_cases h₁ : bytes.take 4 = dataMagic.val
  · rw [if_pos h₁] at h
    split at h
    · cases h
    rename_i m hm
    cases h
    rw [if_neg (by rw [h₁]; exact hne.1.symm), if_pos h₁, (checked_ok hm).1]
    rfl
  rw [if_neg h₁] at h
  by_cases h₂ : bytes.take 4 = rotatingMagic.val
  · rw [if_pos h₂] at h
    split at h
    · cases h
    rename_i m hm
    cases h
    rw [if_neg (by rw [h₂]; exact hne.2.1.symm), if_neg h₁, if_pos h₂, (checked_ok hm).1]
    rfl
  rw [if_neg h₂] at h
  split at h
  · cases h
  rename_i m hm
  cases h
  have h3 := decode_magic (checked_ok (checked_ok hm).1).1
  rw [if_neg (by rw [h3]; exact hne.2.2.symm), if_neg h₁, if_neg h₂, (checked_ok hm).1]
  rfl

theorem inspect_selected (hs : selectRoot N d selector current.metadata.identity = .ok s)
    (hname : selector.manifestName = manifestName selector.generation)
    (h : inspect N d leases current selector.generation = .ok root) : root.selected = some s := by
  obtain ⟨bytes, hb, hhash, hdec⟩ := selectRoot_ok hs
  have hag := decodeRoot_agrees hdec
  have hany := decodeAny_of_decodeRoot hdec
  have hsel : fromManifest s.metadata (N.hash bytes) = selector := by
    obtain ⟨i, e, g, n, dg⟩ := selector
    simp only [fromManifest, mk.injEq]
    exact ⟨hag.storeId, hag.epoch, hag.generation, by rw [hag.generation]; exact hname.symm, hhash⟩
  unfold inspect at h
  rw [show d.readBounded (manifest selector.generation) = .ok bytes from hb] at h
  simp only [hany, hsel, hs] at h
  split at h
  · cases h
  · cases h; rfl

theorem selectIn_ok {identity : CompatibilityIdentity} : selectIn N d identity = .ok s ↔
      identity.validate = .ok () ∧ (∀ n ∈ d, n.recognized) ∧
      ∃ bytes selector, d.readBounded .current = .ok bytes ∧ decode N bytes = .ok selector ∧
        selectRoot N d selector identity = .ok s := by
  have hkeys : d.keys.all recognized = true ↔ ∀ n ∈ d, n.recognized := by
    simp [all_eq_true]
  unfold selectIn
  rw [← hkeys]
  constructor
  · intro h
    split at h
    · cases h
    rename_i hv
    split at h
    · cases h
    rename_i hk
    split at h
    · cases h
    rename_i bytes hb
    split at h
    · cases h
    rename_i selector hs
    exact ⟨hv, by simpa using hk, bytes, selector, hb, hs, h⟩
  · rintro ⟨hv, hk, bytes, selector, hb, hs, h⟩
    simp only [hv, hk, hb, hs, not_true, if_false, h]

theorem selector_of_decode (h : decode N bytes = .ok selector) :
    selector.manifestName = manifestName selector.generation :=
  selector_name (checked_ok h).2

variable {p : Plan} {roots : List Root}

section

variable (hp : Planned N d leases expected p current roots history)

include hp

theorem Planned.kept_of_reason (hs : selectRoot N d selector current.metadata.identity = .ok s)
    (hname : selector.manifestName = manifestName selector.generation)
    (hreason : ∀ root ∈ roots, root.selected = some s → root.file = s.manifestFile →
      (reasonFor current history root).isSome) : ∀ n ∈ dependencies s, n ∈ p.kept := by
  intro n hn
  have hfile : s.manifestFile = manifest selector.generation := (selectRoot_file hs).symm
  have hmem : manifest selector.generation ∈ d := hfile ▸ selectRoot_mem hs
  obtain ⟨root, hroot⟩ := hp.inspected _ hmem
  have hsel := inspect_selected hs hname hroot
  have hin : root ∈ roots := (hp.roots_iff root).2 ⟨_, hmem, hroot⟩
  have hrf : root.file = s.manifestFile := by
    unfold Root.file; rw [(inspect_spec hroot).generation, hfile]
  refine (hp.kept_iff n).2 (.inr ⟨root, hin, hreason root hin hsel hrf, ?_⟩)
  unfold rootDeps
  rw [hsel]
  exact hn

theorem Planned.current_root :
    ∃ selector, selectRoot N d selector current.metadata.identity = .ok current ∧
      selector.manifestName = manifestName selector.generation := by
  obtain ⟨-, -, bytes, selector, -, hdec, hs⟩ := selectIn_ok.1 hp.select
  have hid := (selectRoot_agrees hs).identity
  exact ⟨selector, by rw [hid]; exact hs, selector_of_decode hdec⟩

theorem Planned.current_kept : ∀ n ∈ dependencies current, n ∈ p.kept := by
  obtain ⟨selector, hs, hname⟩ := hp.current_root
  refine hp.kept_of_reason hs hname fun root _ _ hf => ?_
  unfold reasonFor
  rw [if_pos hf]; rfl

omit hp in
theorem reasonFor_history {h : Selected} (hh : history = some h)
    (hf : root.file = h.manifestFile) : (reasonFor current history root).isSome := by
  unfold reasonFor
  split
  · rfl
  · rw [if_pos (by rw [hh]; simp [hf])]; rfl

/-- The completed root before a completed one: the root with a checkpoint that its parent link
selects. -/
def IsPredecessor (N : Native) (d : Dir) (current s : Selected) : Prop :=
  current.checkpoint.isSome ∧ ∃ parent, current.metadata.parent = some parent ∧ s.checkpoint.isSome ∧
    selectRoot N d ⟨current.metadata.storeId, current.metadata.epoch, parent.generation,
      manifestName parent.generation, parent.digest⟩ current.metadata.identity = .ok s

theorem Planned.history_kept {h : Selected}
    (hh : history = some h) : ∀ n ∈ dependencies h, n ∈ p.kept := by
  obtain ⟨selector, hcur, -⟩ := hp.current_root
  have hhist := hp.history_eq
  unfold historyOf at hhist
  cases hrot : current.rotation with
  | some r =>
    rw [hrot] at hhist
    simp only at hhist
    split at hhist
    · cases hhist
    rename_i previous hprev
    split at hhist
    · cases hhist
    split at hhist
    · cases hhist
    cases hhist
    cases hh
    obtain ⟨hsel, -⟩ := (selectRoot_agrees hcur).parent r hrot
    refine hp.kept_of_reason hprev (by rw [hsel]) fun root _ _ hf => reasonFor_history rfl hf
  | none =>
    rw [hrot] at hhist
    simp only at hhist
    split at hhist
    · cases hhist
      have hfound := mem_of_find?_eq_some hh
      obtain ⟨root, hin, hsel⟩ := mem_filterMap.1 hfound
      obtain ⟨g, hmem, hroot⟩ := (hp.roots_iff root).1 hin
      obtain ⟨hfile, -⟩ := (inspect_spec hroot).selected h hsel
      intro n hn
      refine (hp.kept_iff n).2 (.inr ⟨root, hin, reasonFor_history hh ?_, ?_⟩)
      · unfold Root.file; rw [(inspect_spec hroot).generation, hfile]
      · unfold rootDeps; rw [hsel]; exact hn
    · cases hhist; cases hh

theorem Planned.selected_unique {r : Selected}
    (hr : r ∈ roots.filterMap Root.selected) (hs : s ∈ roots.filterMap Root.selected)
    (hg : r.metadata.generation = s.metadata.generation) : r = s := by
  have key : ∀ {t : Selected}, t ∈ roots.filterMap Root.selected →
      ∃ root, inspect N d leases current t.metadata.generation = .ok root ∧ root.selected = some t := by
    intro t ht
    obtain ⟨root, hin, hsel⟩ := mem_filterMap.1 ht
    obtain ⟨g, -, hroot⟩ := (hp.roots_iff root).1 hin
    obtain ⟨hfile, hrt⟩ := (inspect_spec hroot).selected t hsel
    have : t.metadata.generation = g := by
      rw [(selectRoot_agrees hrt).generation]
      exact manifest.inj hfile
    exact ⟨root, by rw [this]; exact hroot, hsel⟩
  obtain ⟨a, ha, har⟩ := key hr
  obtain ⟨b, hb, hbs⟩ := key hs
  rw [hg, hb] at ha
  cases ha
  rw [hbs] at har
  cases har
  rfl

end

section

variable (hp : Planned N d leases expected p current roots history)
include hp

theorem Planned.mem_selected (hs : selectRoot N d selector current.metadata.identity = .ok s)
    (hname : selector.manifestName = manifestName selector.generation) :
    s ∈ roots.filterMap Root.selected := by
  have hmem : manifest selector.generation ∈ d := by
    have := selectRoot_mem hs
    rwa [← selectRoot_file hs] at this
  obtain ⟨root, hroot⟩ := hp.inspected _ hmem
  exact mem_filterMap.2 ⟨root, (hp.roots_iff root).2 ⟨_, hmem, hroot⟩, inspect_selected hs hname hroot⟩

theorem Planned.predecessor_kept
    (hs : IsPredecessor N d current s) : ∀ n ∈ dependencies s, n ∈ p.kept := by
  obtain ⟨hcc, parent, hpar, hck, hsel⟩ := hs
  obtain ⟨selector, hcur, -⟩ := hp.current_root
  have hhist := hp.history_eq
  unfold historyOf at hhist
  cases hrot : current.rotation with
  | some r =>
    -- the sealed predecessor is the one the parent link names
    obtain ⟨hprev, hparent⟩ := (selectRoot_agrees hcur).parent r hrot
    rw [hpar] at hparent
    cases hparent
    rw [hrot] at hhist
    simp only at hhist
    split at hhist
    · cases hhist
    rename_i previous hp'
    split at hhist
    · cases hhist
    split at hhist
    · cases hhist
    cases hhist
    rw [hprev, hsel] at hp'
    cases hp'
    exact hp.history_kept rfl
  | none =>
    obtain ⟨c, hc⟩ := Option.isSome_iff_exists.1 hcc
    rw [hrot, hc, hpar] at hhist
    simp only [Except.ok.injEq] at hhist
    have hin := hp.mem_selected hsel rfl
    have hag := selectRoot_agrees hsel
    have hgen : s.metadata.generation = parent.generation := hag.generation
    -- the search finds it: no other root has its generation
    cases hfind : (roots.filterMap Root.selected).find? (fun r =>
        r.metadata.generation = parent.generation ∧ r.selector.digest = parent.digest ∧ r.checkpoint.isSome) with
    | none =>
      have := find?_eq_none.1 hfind s hin
      exact absurd (by simpa [hgen, hag.selector_eq] using hck) this
    | some t =>
      have ht := find?_some hfind
      simp only [Bool.decide_and, Bool.and_eq_true, decide_eq_true_eq] at ht
      have hst := hp.selected_unique (mem_of_find?_eq_some hfind) hin (by rw [ht.1, hgen])
      subst hst
      exact hp.history_kept (by rw [← hhist, hfind])

theorem Planned.leased_kept (hs : selectRoot N d selector current.metadata.identity = .ok s)
    (hname : selector.manifestName = manifestName selector.generation) (hl : s.manifestFile ∈ leases) :
    ∀ n ∈ dependencies s, n ∈ p.kept := by
  refine hp.kept_of_reason hs hname fun root hin _ hf => ?_
  obtain ⟨g, -, hroot⟩ := (hp.roots_iff root).1 hin
  have hleased : root.leased = true := by
    have hfile : manifest g = s.manifestFile := by rw [← hf, ← (inspect_spec hroot).generation]; rfl
    rw [(inspect_spec hroot).leased, decide_eq_true_eq, hfile]
    exact hl
  unfold reasonFor
  split
  · rfl
  split <;> rfl

omit hp in
theorem required_mem (hm : s.manifestFile ∈ d)
    (h : verify N d s sealedEnd true = .ok ()) : ∀ n ∈ dependencies s, n ∈ d := by
  obtain ⟨-, -, hs, hlog, -⟩ := verify_ok.1 h
  intro n hn
  rcases mem_dependencies.1 hn with rfl | rfl | ⟨hc, rfl⟩
  · exact hm
  · exact hlog rfl
  · exact (hs hc).2 rfl

theorem Planned.kept_mem (h : n ∈ p.kept) (h₁ : n ≠ .lock) (h₂ : n ≠ .manifestLock) : n ∈ d := by
  rcases (hp.kept_iff n).1 h with (rfl | rfl | rfl) | ⟨root, hin, hreason, hn⟩
  · obtain ⟨-, -, bytes, -, hb, -⟩ := selectIn_ok.1 hp.select
    exact mem_dir_iff.2 ⟨bytes, readBounded_ok hb⟩
  · exact absurd rfl h₁
  · exact absurd rfl h₂
  · obtain ⟨g, hmem, hroot⟩ := (hp.roots_iff root).1 hin
    unfold rootDeps at hn
    split at hn
    · rename_i s hs
      have hv := hp.root_verified root hin s hs
      rw [hreason] at hv
      exact required_mem (((inspect_spec hroot).selected s hs).1 ▸ hmem) hv n hn
    · rw [mem_singleton.1 hn]
      unfold Root.file
      rw [(inspect_spec hroot).generation]
      exact hmem

end

/-! ## After some unlinks -/

/-- Some of the obsolete files are gone, no manifest before the last other file. -/
structure Thinned (d : Dir) (p : Plan) (d' : Dir) : Prop where
  size : d'.size ≤ d.size
  less : ∀ n : Name, d'[n]? = d[n]? ∨ d'[n]? = none
  gone : ∀ n ∈ d, n ∉ d' → n ∈ p.candidates ∧ n ∉ p.kept
  order : ∀ g, manifest g ∈ d → manifest g ∉ d' →
    ∀ n ∈ d', isManifest n = false → n ∉ p.kept → n ∉ p.candidates

theorem Thinned.mem (ht : Thinned d p d') (h : n ∈ d') : n ∈ d ∧ d'[n]? = d[n]? := by
  rcases ht.less n with h' | h'
  · exact ⟨(mem_dir_congr h').1 h, h'⟩
  · rw [mem_dir_iff, h'] at h
    obtain ⟨_, hb⟩ := h
    cases hb

theorem Thinned.same (ht : Thinned d p d') (h : n ∈ p.kept) : d'[n]? = d[n]? := by
  rcases ht.less n with h' | h'
  · exact h'
  by_cases hn : n ∈ d
  · have : n ∉ d' := by rw [mem_dir_iff, h']; simp
    exact absurd h (ht.gone n hn this).2
  · rw [h']
    cases hd : d[n]? with
    | none => rfl
    | some b => exact absurd (mem_dir_iff.2 ⟨b, hd⟩) hn

variable (hp : Planned N d leases expected p current roots history)

include hp in
theorem Planned.selectIn_thin
    (ht : Thinned d p d') : selectIn N d' expected.metadata.identity = .ok current := by
  obtain ⟨hv, hk, bytes, selector, hb, hdec, hs⟩ := selectIn_ok.1 hp.select
  have hcur : d'[Name.current]? = d[Name.current]? := ht.same ((hp.kept_iff _).2 (.inl (.inl rfl)))
  have hfile := selectRoot_file hs
  have hman : d'[selector.file]? = d[selector.file]? :=
    ht.same (hp.current_kept _ (hfile ▸ manifest_mem current))
  refine selectIn_ok.2 ⟨hv, fun n hn => hk n (ht.mem hn).1, bytes, selector, ?_, hdec, ?_⟩
  · rw [readBounded_congr hcur]; exact hb
  · rw [selectRoot_congr hman]; exact hs

theorem notManifest_deps (hn : n ∈ dependencies s) (hm : isManifest n) : n = s.manifestFile := by
  rcases mem_dependencies.1 hn with h | h | ⟨-, h⟩
  · exact h
  · unfold Selected.logFile at h
    split at h <;> (subst h; cases hm)
  · subst h
    cases hm

/-- Leases that were there before, or on the selected root. -/
def LeasesLater (leases leases' : List Name) (current : Selected) : Prop :=
  ∀ n ∈ leases', n ∈ leases ∨ n = current.manifestFile

theorem reasonFor_later (hl : LeasesLater leases leases' current)
    (hroot : inspect N d leases current g = .ok root)
    (h : (reasonFor current history { root with leased := decide (manifest g ∈ leases') }).isSome) :
    (reasonFor current history root).isSome := by
  have hg := (inspect_spec hroot).generation
  unfold reasonFor at h ⊢
  by_cases h₁ : root.file = current.manifestFile
  · rw [if_pos h₁]; rfl
  rw [if_neg h₁]
  rw [if_neg (show ¬ ({ root with leased := decide (manifest g ∈ leases') } : Root).file =
    current.manifestFile from h₁)] at h
  by_cases h₂ : (history.any fun q => decide (root.file = q.manifestFile)) = true
  · rw [if_pos h₂]; rfl
  rw [if_neg h₂]
  rw [if_neg (show ¬ (history.any fun q => decide (({ root with
    leased := decide (manifest g ∈ leases') } : Root).file = q.manifestFile)) = true from h₂)] at h
  by_cases h3 : manifest g ∈ leases'
  · rcases hl _ h3 with h | h
    · rw [(inspect_spec hroot).leased, if_pos (by simpa using h)]; rfl
    · exact absurd (by unfold Root.file; rw [hg]; exact h) h₁
  · simp [h3] at h

section

variable (hp : Planned N d leases expected p current roots history)
include hp

/-- The roots seen after the unlinks: those whose manifest is left, with the leases of now. -/
theorem Planned.inspect_thin (ht : Thinned d p d') (leases' : List Name) (hg : manifest g ∈ d') :
    ∃ root ∈ roots, inspect N d leases current g = .ok root ∧
      inspect N d' leases' current g = .ok { root with leased := decide (manifest g ∈ leases') } := by
  obtain ⟨hmem, hsame⟩ := ht.mem hg
  obtain ⟨root, hroot⟩ := hp.inspected g hmem
  refine ⟨root, (hp.roots_iff root).2 ⟨g, hmem, hroot⟩, hroot, ?_⟩
  rw [inspect_congr hsame]
  exact inspect_leases hroot

theorem Planned.history_thin (ht : Thinned d p d') {roots' : List Root}
    (hroots' : ∀ root, root ∈ roots' ↔ ∃ g, manifest g ∈ d' ∧ inspect N d' leases' current g = .ok root) :
    historyOf N d' current roots' = .ok history := by
  have hhist := hp.history_eq
  unfold historyOf at hhist ⊢
  cases hrot : current.rotation with
  | some r =>
    rw [hrot] at hhist
    simp only at hhist ⊢
    split at hhist
    · cases hhist
    rename_i previous hprev
    split at hhist
    · cases hhist
    rename_i hbase
    split at hhist
    · cases hhist
    rename_i hver
    cases hhist
    have hkept := hp.history_kept rfl
    have hfile := selectRoot_file hprev
    have hsel : selectRoot N d' r.previous.selector current.metadata.identity = .ok previous := by
      rw [selectRoot_congr (ht.same (hkept _ (hfile ▸ manifest_mem previous)))]
      exact hprev
    have hver' := (verify_congr fun n hn => ht.same (hkept n hn)).2 hver
    simp only [hsel, hver', if_neg hbase]
  | none =>
    rw [hrot] at hhist
    simp only at hhist ⊢
    split at hhist
    swap
    · cases hhist
      rfl
    rename_i c parent _ _
    simp only [Except.ok.injEq] at hhist ⊢
    -- a root seen now was seen before
    have hsub : ∀ s, s ∈ roots'.filterMap Root.selected → s ∈ roots.filterMap Root.selected := by
      intro s hs
      obtain ⟨root', hin, hsel⟩ := mem_filterMap.1 hs
      obtain ⟨g, hg, hroot'⟩ := (hroots' root').1 hin
      obtain ⟨root, hr, -, h₂⟩ := hp.inspect_thin ht leases' hg
      rw [h₂] at hroot'
      cases hroot'
      exact mem_filterMap.2 ⟨root, hr, hsel⟩
    cases hh : history with
    | none =>
      rw [hh] at hhist
      rw [find?_eq_none] at hhist ⊢
      exact fun s hs => hhist s (hsub s hs)
    | some h =>
      rw [hh] at hhist
      have hin : h ∈ roots'.filterMap Root.selected := by
        obtain ⟨root, hr, hsel⟩ := mem_filterMap.1 (mem_of_find?_eq_some hhist)
        obtain ⟨g, hmem, hroot⟩ := (hp.roots_iff root).1 hr
        obtain ⟨hfile, -⟩ := (inspect_spec hroot).selected h hsel
        have hkept := hp.history_kept hh _ (manifest_mem h)
        have hg : manifest g ∈ d' := (mem_dir_congr (ht.same (hfile ▸ hkept))).2 hmem
        obtain ⟨root1, -, h₁, h₂⟩ := hp.inspect_thin ht leases' hg
        rw [hroot] at h₁
        cases h₁
        exact mem_filterMap.2 ⟨_, (hroots' _).2 ⟨g, hg, h₂⟩, hsel⟩
      have hpred := find?_some hhist
      cases hfind : (roots'.filterMap Root.selected).find? (fun r =>
          r.metadata.generation = parent.generation ∧ r.selector.digest = parent.digest ∧
            r.checkpoint.isSome) with
      | none => exact absurd hpred (find?_eq_none.1 hfind h hin)
      | some t =>
        have ht' := find?_some hfind
        simp only [Bool.decide_and, Bool.and_eq_true, decide_eq_true_eq] at ht' hpred
        rw [hp.selected_unique (hsub t (mem_of_find?_eq_some hfind)) (hsub h hin)
          (by rw [ht'.1, hpred.1])]

theorem Planned.replan (ht : Thinned d p d') (hl : LeasesLater leases leases' current) :
    ∃ p', plan N d' leases' expected = .ok (p', current) ∧
      ∀ n ∈ d', n ∈ p.candidates → n ∉ p.kept → n ∈ p'.candidates ∧ n ∉ p'.kept := by
  obtain ⟨roots', hmap⟩ := mapM_complete (f := inspect N d' leases' current) (l := generations d') (by
    intro g hg
    obtain ⟨root, -, -, h⟩ := hp.inspect_thin ht leases' (mem_generations.1 hg)
    exact ⟨_, h⟩)
  have hroots' : ∀ root, root ∈ roots' ↔
      ∃ g, manifest g ∈ d' ∧ inspect N d' leases' current g = .ok root := by
    intro root
    rw [(mapM_ok hmap).2]
    simp only [mem_generations]
  -- every root seen now is an earlier one, retained then if it is retained now
  have hold : ∀ root' ∈ roots', ∃ root ∈ roots, ∃ g, manifest g ∈ d' ∧ root'.selected = root.selected ∧
      root'.file = root.file ∧ root.file = .manifest g ∧
      ((reasonFor current history root').isSome → (reasonFor current history root).isSome) := by
    intro root' hin
    obtain ⟨g, hg, hroot'⟩ := (hroots' root').1 hin
    obtain ⟨root, hr, h₁, h₂⟩ := hp.inspect_thin ht leases' hg
    rw [h₂] at hroot'
    cases hroot'
    exact ⟨root, hr, g, hg, rfl, rfl, by unfold Root.file; rw [(inspect_spec h₁).generation],
      reasonFor_later hl h₁⟩
  have hver : verify N d' current none true = .ok () :=
    (verify_congr fun n hn => ht.same (hp.current_kept n hn)).2 hp.verified
  have hall : ∀ root' ∈ roots', RootVerified N d' current history root' := by
    intro root' hin s hs
    obtain ⟨root, hr, g, hg, hsel, -, hrf, hreason⟩ := hold root' hin
    rw [hsel] at hs
    have hv := hp.root_verified root hr s hs
    cases hb : (reasonFor current history root').isSome with
    | true =>
      rw [hreason hb] at hv
      refine (verify_congr fun n hn => ht.same ((hp.kept_iff n).2 (.inr ⟨root, hr, hreason hb, ?_⟩))).2 hv
      unfold rootDeps; rw [hs]; exact hn
    | false =>
      obtain ⟨g', hmem, hroot⟩ := (hp.roots_iff root).1 hr
      have hman : s.manifestFile = manifest g := by
        rw [((inspect_spec hroot).selected s hs).1, ← hrf]
        unfold Root.file; rw [(inspect_spec hroot).generation]
      exact verify_thin (hman ▸ hg) (fun n _ => ht.less n) hv
  obtain ⟨p', hp'⟩ : ∃ p', plan N d' leases' expected = .ok (p', current) :=
    plan_complete (le_trans ht.size hp.size) (hp.selectIn_thin ht) hp.established hmap
      (hp.history_thin ht hroots') hver hall
  obtain ⟨roots1, history₁, hp1⟩ := planned_of_plan hp'
  have hroots1 : ∀ root, root ∈ roots1 ↔ root ∈ roots' := fun root => by rw [hp1.roots_iff, hroots']
  obtain rfl : history = history₁ := by
    have := hp.history_thin ht hp1.roots_iff
    rw [hp1.history_eq] at this
    exact (Except.ok.inj this).symm
  refine ⟨p', hp', fun n hn hcand hkept => ⟨?_, ?_⟩⟩
  · -- the manifest that names `n` is still there, and still obsolete
    obtain ⟨root, hr, hreason, hdep⟩ := (hp.candidates_iff n).1 hcand
    obtain ⟨g, hmem, hroot⟩ := (hp.roots_iff root).1 hr
    have hrf : root.file = .manifest g := by unfold Root.file; rw [(inspect_spec hroot).generation]
    have hg : manifest g ∈ d' := by
      by_contra hg
      by_cases hm : isManifest n
      · have hfile : n = root.file := by
          unfold rootDeps at hdep
          split at hdep
          · rename_i s hs
            rw [notManifest_deps hdep hm, ((inspect_spec hroot).selected s hs).1, hrf]
          · exact mem_singleton.1 hdep
        exact hg (hrf ▸ hfile ▸ hn)
      · exact ht.order g hmem hg n hn (by simpa using hm) hkept hcand
    obtain ⟨root1, -, h₁, h₂⟩ := hp.inspect_thin ht leases' hg
    rw [hroot] at h₁
    cases h₁
    refine (hp1.candidates_iff n).2 ⟨_, (hroots1 _).2 ((hroots' _).2 ⟨g, hg, h₂⟩), ?_, hdep⟩
    by_contra hsome
    have := reasonFor_later hl hroot (Option.isSome_iff_ne_none.2 hsome)
    rw [hreason] at this
    cases this
  · intro hk
    apply hkept
    rcases (hp1.kept_iff n).1 hk with h | ⟨root1, hin, hreason, hdep⟩
    · exact (hp.kept_iff n).2 (.inl h)
    · obtain ⟨root, hr, g, -, hsel, hfile, -, himp⟩ := hold root1 ((hroots1 _).1 hin)
      refine (hp.kept_iff n).2 (.inr ⟨root, hr, himp hreason, ?_⟩)
      unfold rootDeps at hdep ⊢
      rw [← hsel, ← hfile]
      exact hdep

end

/-! ## Unlinking -/

/-- The directory after unlinking the artifacts. -/
def unlinked (d : Dir) (todo : List ArtifactBytes) : Dir := todo.foldl (fun d a => d.erase a.name) d

theorem getElem?_unlinked : ∀ {d : Dir},
    (unlinked d todo)[n]? = if n ∈ todo.map ArtifactBytes.name then none else d[n]? := by
  induction todo with
  | nil => intro d; simp [unlinked]
  | cons a todo ih =>
    intro d
    have hcons : unlinked d (a :: todo) = unlinked (d.erase a.name) todo := rfl
    rw [hcons, ih, Std.ExtTreeMap.getElem?_erase]
    by_cases h : a.name = n
    · subst h; simp [Std.ReflCmp.compare_self]
    · have hc : cmp a.name n ≠ .eq := fun hc => h (Std.LawfulEqCmp.eq_of_compare hc)
      have : n ≠ a.name := fun he => h he.symm
      simp [hc, this]

theorem size_unlinked : ∀ {d : Dir}, (unlinked d todo).size ≤ d.size := by
  induction todo with
  | nil => intro d; exact le_refl _
  | cons a todo ih =>
    intro d
    exact le_trans ih Std.ExtTreeMap.size_erase_le

theorem mem_obsolete {a : ArtifactBytes} : a ∈ obsolete d p ↔
    ∃ b, d[a.name]? = some b ∧ a.bytes = b.length ∧ a.name ∉ p.kept ∧ a.name ∈ p.candidates := by
  unfold obsolete
  rw [mem_map]
  constructor
  · rintro ⟨⟨n, b⟩, hm, rfl⟩
    rw [mem_filter, decide_eq_true_eq] at hm
    exact ⟨b, Std.ExtTreeMap.mem_toList_iff_getElem?_eq_some.1 hm.1, rfl, hm.2.1, hm.2.2⟩
  · rintro ⟨b, hb, hl, h₁, h₂⟩
    refine ⟨(a.name, b), ?_, by simp only [← hl]⟩
    rw [mem_filter, decide_eq_true_eq]
    exact ⟨Std.ExtTreeMap.mem_toList_iff_getElem?_eq_some.2 hb, h₁, h₂⟩

theorem pending_perm : (pending d p).Perm (obsolete d p) :=
  perm_append_comm.trans (filter_append_perm (fun a : ArtifactBytes => isManifest a.name) _)

theorem mem_pending_names : n ∈ (pending d p).map ArtifactBytes.name ↔
    n ∈ d ∧ n ∉ p.kept ∧ n ∈ p.candidates := by
  rw [(pending_perm.map _).mem_iff, mem_map]
  constructor
  · rintro ⟨a, ha, rfl⟩
    obtain ⟨b, hb, -, h₁, h₂⟩ := mem_obsolete.1 ha
    exact ⟨mem_dir_iff.2 ⟨b, hb⟩, h₁, h₂⟩
  · rintro ⟨hd, h₁, h₂⟩
    obtain ⟨b, hb⟩ := mem_dir_iff.1 hd
    exact ⟨⟨n, b.length⟩, mem_obsolete.2 ⟨b, hb, rfl, h₁, h₂⟩, rfl⟩

theorem nodup_pending : ((pending d p).map ArtifactBytes.name).Nodup := by
  rw [(pending_perm.map _).nodup_iff]
  have hkeys : (d.toList.map Prod.fst).Nodup := by
    rw [Std.ExtTreeMap.map_fst_toList_eq_keys]
    exact Std.ExtTreeMap.nodup_keys
  unfold obsolete
  rw [map_map]
  exact List.Nodup.sublist (List.Sublist.map _ filter_sublist) hkeys

theorem unlinked_thinned (k : ℕ) : Thinned d p (unlinked d ((pending d p).take k)) := by
  have hmem : ∀ {n : Name}, n ∈ ((pending d p).take k).map ArtifactBytes.name →
      n ∈ (pending d p).map ArtifactBytes.name := by
    intro n hn
    obtain ⟨a, ha, rfl⟩ := mem_map.1 hn
    exact mem_map.2 ⟨a, mem_of_mem_take ha, rfl⟩
  have hget : ∀ n : Name, (unlinked d ((pending d p).take k))[n]? =
      if n ∈ ((pending d p).take k).map ArtifactBytes.name then none else d[n]? := fun n => getElem?_unlinked
  have hgone : ∀ {n : Name}, n ∈ d → n ∉ unlinked d ((pending d p).take k) →
      n ∈ ((pending d p).take k).map ArtifactBytes.name := by
    intro n hd hn
    by_contra hno
    apply hn
    obtain ⟨b, hb⟩ := mem_dir_iff.1 hd
    exact mem_dir_iff.2 ⟨b, by rw [hget, if_neg hno, hb]⟩
  refine ⟨size_unlinked, fun n => ?_, fun n hd hn => ?_, fun g hg hg' n hn hm hk hc => ?_⟩
  · rw [hget]
    split
    · exact .inr rfl
    · exact .inl rfl
  · have := mem_pending_names.1 (hmem (hgone hd hn))
    exact ⟨this.2.2, this.2.1⟩
  · -- a manifest was unlinked, so every other file before it was
    obtain ⟨b, hb⟩ := mem_dir_iff.1 hn
    rw [hget] at hb
    split at hb
    · cases hb
    rename_i hno
    apply hno
    have hfirst : (obsolete d p).filter (fun a => !isManifest a.name) <+: (pending d p).take k := by
      unfold pending
      by_cases hlen : k ≤ ((obsolete d p).filter fun a => !isManifest a.name).length
      · exfalso
        obtain ⟨a, ha, he⟩ := mem_map.1 (hgone hg hg')
        unfold pending at ha
        rw [take_append_of_le_length hlen] at ha
        have := (mem_filter.1 (mem_of_mem_take ha)).2
        rw [he] at this
        cases this
      · rw [take_append, take_of_length_le (by omega)]
        exact prefix_append _ _
    refine mem_map.2 ⟨⟨n, b.length⟩, hfirst.subset (mem_filter.2 ⟨mem_obsolete.2 ⟨b, hb, rfl, hk, hc⟩, ?_⟩), rfl⟩
    simp [hm]

theorem spec_sync {I : Dir → Prop} : Spec I (Dir.sync StreamError.persist) (.always I) :=
  spec_look (fun _ _ h _ => h) (fun _ _ h => h) fun _ h => h

theorem spec_establish {I : Dir → Prop} (names : List Name) : Spec I (establish names) (.always I) := by
  induction names with
  | nil => exact spec_sync
  | cons n names ih =>
    exact spec_bind (spec_look (fun _ _ h _ => h) (fun _ _ h => h) fun _ h => h)
      fun _ => spec_bind spec_sync fun _ => ih

theorem spec_remove (d : Dir) (n : Name) : Spec (· = d) (Dir.remove StreamError.persist n)
      ⟨fun _ s => s = d.erase n, fun _ s => s = d ∨ s = d.erase n, fun s => s = d ∨ s = d.erase n⟩ := by
  refine spec_atomic (fun s a s' hs h => ?_) (fun s e hs _ => .inl hs) fun s hs => ⟨.inl hs, .inl hs⟩
  subst hs
  split at h
  · cases h; exact ⟨rfl, .inr rfl, .inr rfl⟩
  · cases h

theorem spec_unlink_deferred {I : Dir → Prop} :
    ∀ {report : PruneReport} {e : StreamError}, report.cleanupError = some e →
      Spec I (unlink todo report) (.always I) := by
  induction todo with
  | nil => intro report _ _; exact spec_pure fun _ h => h
  | cons a todo ih =>
    intro report e he
    unfold unlink
    rw [he]
    exact ih rfl

/-- Whatever fails, the loop has unlinked the artifacts up to some point. -/
theorem spec_unlink : ∀ (report : PruneReport) (d : Dir), report.cleanupError = none →
    Spec (· = d) (unlink todo report) (.always fun s => ∃ k, s = unlinked d (todo.take k)) := by
  induction todo with
  | nil => intro report d _; exact spec_pure fun s hs => ⟨0, hs⟩
  | cons a todo ih =>
    intro report d he
    have hone : ∀ s, s = d ∨ s = d.erase a.name → ∃ k, s = unlinked d ((a :: todo).take k) := by
      rintro s (rfl | rfl)
      · exact ⟨0, rfl⟩
      · exact ⟨1, rfl⟩
    unfold unlink
    rw [he]
    simp only
    have hstep : Spec (· = d) (Prog.attempt (do Dir.remove StreamError.persist a.name; Dir.sync StreamError.persist))
        ⟨Settled (fun _ s => s = d.erase a.name) (fun _ s => s = d ∨ s = d.erase a.name),
          fun _ s => ∃ k, s = unlinked d ((a :: todo).take k), fun s => ∃ k, s = unlinked d ((a :: todo).take k)⟩ := by
      have hremove : Spec (· = d) (Dir.remove StreamError.persist a.name) ⟨fun _ s => s = d.erase a.name,
          fun _ s => s = d ∨ s = d.erase a.name, fun s => ∃ k, s = unlinked d ((a :: todo).take k)⟩ :=
        Spec.mono (spec_remove d a.name) (fun _ h => h) (fun _ _ h => h) (fun _ _ h => h) hone
      refine spec_attempt (spec_bind hremove fun _ => ?_)
      exact spec_look (fun _ _ h _ => h) (fun _ _ h => .inr h) fun s h => hone s (.inr h)
    refine spec_bind hstep fun r => ?_
    cases r with
    | ok u =>
      refine Spec.mono (ih _ (d.erase a.name) rfl) (fun _ h => h) (fun _ s h => ?_) (fun _ s h => ?_) (fun s h => ?_)
      all_goals
        obtain ⟨k, rfl⟩ := h
        exact ⟨k + 1, rfl⟩
    | error e =>
      exact Spec.mono (spec_unlink_deferred (I := fun s => s = d ∨ s = d.erase a.name) rfl) (fun _ h => h)
        (fun _ s h => hone s h) (fun _ s h => hone s h) (fun s h => hone s h)

/-- Whatever fails, a prune has unlinked the pending artifacts of its plan up to some point. -/
theorem prune_unlinks (d : Dir) (leases : List Name) (expected : Selected) (fs : List Fault) :
    (prune N leases expected d fs).2.1 = d ∨
      ∃ p current k, plan N d leases expected = .ok (p, current) ∧
        (prune N leases expected d fs).2.1 = unlinked d ((pending d p).take k) := by
  have hspec : Spec (· = d) (prune N leases expected) (.always fun s => s = d ∨
      ∃ p current k, plan N d leases expected = .ok (p, current) ∧ s = unlinked d ((pending d p).take k)) := by
    refine spec_bind (spec_look (Q := fun r s => s = d ∧ ∃ p current, plan N d leases expected = .ok (p, current) ∧
      r = (current, pending d p, retained d p)) (fun s r hs h => ?_) (fun s _ hs => .inl hs) fun s hs => .inl hs) ?_
    · subst hs
      cases hp : plan N s leases expected with
      | error e => rw [hp] at h; cases h
      | ok q => rw [hp] at h; cases h; exact ⟨rfl, q.1, q.2, rfl, rfl⟩
    · rintro ⟨current, todo, kept⟩
      refine Spec.of_eq fun s hs => ?_
      obtain ⟨rfl, p, current', hp, hr⟩ := hs
      cases hr
      refine spec_bind (Spec.stops (spec_establish (I := (· = s)) _) fun _ h => .inl h) fun _ => ?_
      refine Spec.mono (spec_unlink _ s rfl) (fun _ h => h) (fun _ t h => ?_) (fun _ t h => ?_) fun t h => ?_
      all_goals
        obtain ⟨k, hk⟩ := h
        exact .inr ⟨p, current, k, hp, hk⟩
  exact Post.holds_always.1 (hspec d fs rfl)

theorem runs_establish {names : List Name} (h : ∀ n ∈ names, n ∈ d) : Runs (establish names) d () d := by
  have hsync : Runs (Dir.sync StreamError.persist) d () d := runs_look rfl
  induction names with
  | nil => exact hsync
  | cons n names ih =>
    obtain ⟨b, hb⟩ := mem_dir_iff.1 (h n (mem_cons_self ..))
    refine Runs.bind (a := ()) (runs_look ?_) (Runs.bind hsync (ih fun m hm => h m (mem_cons_of_mem _ hm)))
    rw [openRead_ok.2 hb]

theorem runs_unlink : ∀ (report : PruneReport) {d : Dir},
    report.cleanupError = none → (todo.map ArtifactBytes.name).Nodup → (∀ a ∈ todo, a.name ∈ d) →
    Runs (unlink todo report) d { report with removed := report.removed ++ todo } (unlinked d todo) := by
  induction todo with
  | nil => intro report d _ _ _; simpa [unlink, unlinked] using runs_pure report d
  | cons a todo ih =>
    intro report d he hnd hmem
    rw [map_cons, nodup_cons] at hnd
    unfold unlink
    rw [he]
    have hstep : Runs (Prog.attempt (do Dir.remove StreamError.persist a.name; Dir.sync StreamError.persist))
        d (.ok ()) (d.erase a.name) :=
      Runs.attempt (Runs.bind (a := ()) (runs_op (by rw [if_pos (hmem a (mem_cons_self ..))])) (runs_look rfl))
    refine Runs.bind hstep ?_
    have hrest : ∀ b ∈ todo, b.name ∈ d.erase a.name := by
      intro b hb
      have hne : a.name ≠ b.name := fun h => hnd.1 (h ▸ mem_map.2 ⟨b, hb, rfl⟩)
      rw [Std.ExtTreeMap.mem_erase]
      exact ⟨fun h => hne (Std.LawfulEqCmp.eq_of_compare h), hmem b (mem_cons_of_mem _ hb)⟩
    have := ih { report with removed := report.removed ++ [a] } he hnd.2 hrest
    have hcons : unlinked d (a :: todo) = unlinked (d.erase a.name) todo := rfl
    rw [hcons]
    simpa [append_assoc, he] using this

theorem runs_prune (h : plan N d leases expected = .ok (p, current)) :
    ∃ report, Runs (prune N leases expected) d report (unlinked d (pending d p)) ∧
      report.cleanupError = none ∧ report.removed = pending d p := by
  obtain ⟨roots, history, hp⟩ := planned_of_plan h
  refine ⟨_, Runs.bind (a := (current, pending d p, retained d p)) (runs_look ?_) (Runs.bind (runs_establish ?_)
    (runs_unlink _ rfl nodup_pending ?_)), rfl, rfl⟩
  · rw [h]; rfl
  · intro n hn
    rcases mem_append.1 hn with hn | hn
    · exact required_mem (by obtain ⟨_, hs, _⟩ := hp.current_root; exact selectRoot_mem hs) hp.verified n hn
    · rw [mem_singleton.1 hn]
      exact hp.kept_mem ((hp.kept_iff _).2 (.inl (.inl rfl))) (by simp) (by simp)
  · intro a ha
    exact (mem_pending_names.1 (mem_map.2 ⟨a, ha, rfl⟩)).1

/-! ## The theorem -/

/-- The artifacts that have to stay: `CURRENT`, what the selected root and its predecessor depend
on, what a leased root depends on, and a leased manifest itself. -/
inductive Needed (N : Native) (d : Dir) (leases : List Name) (current : Selected) : Name → Prop where
  | current : Needed N d leases current .current
  | selected {n : Name} (h : n ∈ dependencies current) : Needed N d leases current n
  | predecessor {n : Name} {s : Selected} (hs : IsPredecessor N d current s) (h : n ∈ dependencies s) :
      Needed N d leases current n
  | leased {n : Name} {selector : CurrentSelector} {s : Selected}
      (hs : selectRoot N d selector current.metadata.identity = .ok s)
      (hname : selector.manifestName = manifestName selector.generation) (hl : s.manifestFile ∈ leases)
      (h : n ∈ dependencies s) : Needed N d leases current n
  | lease {g : UInt64} (hl : manifest g ∈ leases) (hd : manifest g ∈ d) :
      Needed N d leases current (.manifest g)

theorem dependencies_ne_lock (h : n ∈ dependencies s) : n ≠ .lock ∧ n ≠ .manifestLock := by
  rcases mem_dependencies.1 h with rfl | rfl | ⟨-, rfl⟩
  · exact ⟨Name.noConfusion, Name.noConfusion⟩
  · unfold Selected.logFile
    cases s.rotation <;> exact ⟨by simp, by simp⟩
  · exact ⟨Name.noConfusion, Name.noConfusion⟩

include hp in
theorem Planned.needed_kept
    (h : Needed N d leases current n) : n ∈ p.kept ∧ n ≠ .lock ∧ n ≠ .manifestLock := by
  cases h with
  | current => exact ⟨(hp.kept_iff _).2 (.inl (.inl rfl)), by simp, by simp⟩
  | selected h => exact ⟨hp.current_kept n h, dependencies_ne_lock h⟩
  | predecessor hs h => exact ⟨hp.predecessor_kept hs n h, dependencies_ne_lock h⟩
  | leased hs hname hl h => exact ⟨hp.leased_kept hs hname hl n h, dependencies_ne_lock h⟩
  | @lease g hl hd =>
    refine ⟨?_, by simp, by simp⟩
    obtain ⟨root, hroot⟩ := hp.inspected g hd
    have hrf : root.file = .manifest g := by unfold Root.file; rw [(inspect_spec hroot).generation]
    refine (hp.kept_iff _).2 (.inr ⟨root, (hp.roots_iff root).2 ⟨g, hd, hroot⟩, ?_, ?_⟩)
    · unfold reasonFor
      rw [(inspect_spec hroot).leased, decide_eq_true hl]
      split
      · rfl
      split <;> rfl
    · unfold rootDeps
      split
      · rename_i s hs
        rw [← ((inspect_spec hroot).selected s hs).1]
        exact manifest_mem s
      · rw [hrf]; exact mem_singleton.2 rfl

include hp in
theorem Planned.reopen_thin (ht : Thinned d p d')
    (limit : ℕ) : reopen N d' expected.metadata.identity limit = reopen N d expected.metadata.identity limit := by
  have hkept : ∀ n, n = Name.current ∨ n = .lock ∨ n = .manifestLock → d'[n]? = d[n]? :=
    fun n hn => ht.same ((hp.kept_iff n).2 (.inl hn))
  have hcur := mem_dir_congr (hkept .current (.inl rfl))
  have hmem : Name.current ∈ d := hp.kept_mem ((hp.kept_iff _).2 (.inl (.inl rfl))) (by simp) (by simp)
  have hinit : RecoveryReader.checkInitialized d' = RecoveryReader.checkInitialized d := by
    unfold RecoveryReader.checkInitialized
    rw [if_neg (not_not.2 (hcur.2 hmem)), if_neg (not_not.2 hmem)]
    simp only [mem_dir_congr (hkept .lock (.inr (.inl rfl))), mem_dir_congr (hkept .manifestLock (.inr (.inr rfl)))]
  have hdep : ∀ n ∈ dependencies current, d'[n]? = d[n]? := fun n hn => ht.same (hp.current_kept n hn)
  have hopen : openReader N d' expected.metadata.identity limit = openReader N d expected.metadata.identity limit := by
    unfold openReader
    rw [hp.select, hp.selectIn_thin ht]
    simp only [mem_dir_congr (hkept .manifestLock (.inr (.inr rfl))), openRead_congr (hdep _ (log_mem current)),
      openRead_congr (hdep _ (manifest_mem current))]
  unfold reopen RecoveryReader.openIn
  rw [hinit, hopen]
  cases hi : RecoveryReader.checkInitialized d with
  | error e => rfl
  | ok u =>
    cases ho : openReader N d expected.metadata.identity limit with
    | error e => rfl
    | ok rs =>
      obtain ⟨r, s⟩ := rs
      -- the reader is on the selected root
      obtain rfl : s = current := by
        unfold openReader at ho
        rw [hp.select] at ho
        split at ho
        · cases ho
        split at ho
        · cases ho
        simp only at ho
        split at ho
        · cases hf : LogicalReader.fromSelection _ current.context current.logName limit with
          | error e => rw [hf] at ho; cases ho
          | ok r' => rw [hf] at ho; cases ho; rfl
        · cases ho
      simp only
      cases hr : RecoveryReader.fromReader r s with
      | error e => rfl
      | ok rr =>
        obtain rfl : rr.selected = s := by
          unfold RecoveryReader.fromReader at hr
          split at hr
          · cases hr
          · cases hr; rfl
        simp only
        rw [snapshotBody_congr fun hc => hdep _ (snapshot_mem hc), openRead_congr (hdep _ (log_mem rr.selected))]

include hp in
/-- What a prune means to remove: the files of a root that is neither selected nor the predecessor nor
leased, unless a root that is depends on them. -/
theorem Planned.mem_pending : n ∈ (pending d p).map ArtifactBytes.name ↔
    n ∈ d ∧ ¬ ((n = .current ∨ n = .lock ∨ n = .manifestLock) ∨
        ∃ root ∈ roots, (reasonFor current history root).isSome ∧ n ∈ rootDeps root) ∧
      ∃ root ∈ roots, reasonFor current history root = none ∧ n ∈ rootDeps root := by
  rw [mem_pending_names, hp.kept_iff, hp.candidates_iff]

/-- **Pruning never removes needed history.** A prune whose plan fails changes nothing. Otherwise,
after any failure or death: every needed artifact is there with its bytes, a reopen gives what it
gave before, and a following prune that nothing disturbs, under the leases that are left, ends
without an error and leaves none of the artifacts that this one meant to remove (`Planned.mem_pending`). -/
theorem prune_keeps_needed (N : Native) (d : Dir) (leases : List Name) (expected : Selected) (fs : List Fault) :
    (∀ e, plan N d leases expected = .error e → (prune N leases expected d fs).2.1 = d) ∧
    ∀ p current, plan N d leases expected = .ok (p, current) →
      (∀ n, Needed N d leases current n →
        n ∈ d ∧ (prune N leases expected d fs).2.1[n]? = d[n]?) ∧
      (∀ limit, reopen N (prune N leases expected d fs).2.1 expected.metadata.identity limit =
        reopen N d expected.metadata.identity limit) ∧
      ∀ leases', LeasesLater leases leases' current → ∃ report d',
        prune N leases' expected (prune N leases expected d fs).2.1 [] = (.done report, d', []) ∧
        report.cleanupError = none ∧ ∀ n ∈ (pending d p).map ArtifactBytes.name, n ∉ d' := by
  have hun := prune_unlinks (N := N) d leases expected fs
  refine ⟨fun e he => ?_, fun p current hplan => ?_⟩
  · rcases hun with h | ⟨p, current, k, hp, -⟩
    · exact h
    · rw [he] at hp; cases hp
  obtain ⟨roots, history, hp⟩ := planned_of_plan hplan
  have ht : Thinned d p (prune N leases expected d fs).2.1 := by
    rcases hun with h | ⟨p', current', k, hp', h⟩
    · rw [h]; simpa [unlinked] using unlinked_thinned (d := d) (p := p) 0
    · rw [hplan] at hp'
      cases hp'
      rw [h]; exact unlinked_thinned k
  refine ⟨fun n hn => ?_, fun limit => hp.reopen_thin ht limit, fun leases' hl => ?_⟩
  · obtain ⟨hk, h₁, h₂⟩ := hp.needed_kept hn
    exact ⟨hp.kept_mem hk h₁ h₂, ht.same hk⟩
  · obtain ⟨p', hp', hrest⟩ := hp.replan ht hl
    obtain ⟨report, hruns, herr, -⟩ := runs_prune hp'
    refine ⟨report, _, hruns, herr, fun n hn hmem => ?_⟩
    obtain ⟨-, hk, hc⟩ := mem_pending_names.1 hn
    obtain ⟨b, hb⟩ := mem_dir_iff.1 hmem
    rw [getElem?_unlinked] at hb
    split at hb
    · cases hb
    rename_i hno
    have hin : n ∈ (prune N leases expected d fs).2.1 := mem_dir_iff.2 ⟨b, hb⟩
    obtain ⟨hc', hk'⟩ := hrest n hin hc hk
    exact hno (mem_pending_names.2 ⟨hin, hk', hc'⟩)

end Prune

end Selene.Persist
