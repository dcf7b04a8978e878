import Selene.Persist.Wal

/-!
# A commit reports what it did

`Sound w`: the durable image is the synchronized prefix of the file, and a writer that
is not fenced has nothing behind it. Every commit keeps this, whatever fails
(`commit_sound`), and its answer tells the truth about the file (`commit_truthful`).

An already fenced writer answers every commit with `Canceled` and touches nothing, so
there `Canceled` is about the call, not about the file: after an uncertain failure the
tail of the file is still there (`canceled_with_tail`).
-/

namespace Selene.Persist.LogicalWal

open Octets Transition List Option

variable {w : LogicalWal} {g : PreparedGroup} {env : CommitEnv}

/-- The bytes up to the synchronized position. -/
def synchronizedBytes (w : LogicalWal) : Bytes := w.file.content.take w.progress.synchronized.offset.toNat

structure Sound (w : LogicalWal) : Prop where
  offset_le : w.progress.synchronized.offset.toNat ≤ w.file.content.length
  durable : w.file.durable = w.synchronizedBytes
  live : w.fenced = false → w.file.content.length = w.progress.synchronized.offset.toNat ∧
    w.file.AtEnd ∧ w.progress.written = w.progress.synchronized

theorem synchronizedBytes_of_length (h : w.file.content.length = w.progress.synchronized.offset.toNat) :
    w.synchronizedBytes = w.file.content := by
  unfold synchronizedBytes
  rw [← h, take_length]

theorem Sound.content_eq (hw : Sound w) (hf : w.fenced = false) : w.file.content = w.synchronizedBytes :=
  (synchronizedBytes_of_length (hw.live hf).1).symm

/-! ## The group's positions -/

theorem after_offset {p q : Position} {bytes : Bytes} (h : p.after bytes = some q) :
    q.offset.toNat = p.offset.toNat + bytes.length := by
  obtain ⟨s, -, h⟩ := bind_eq_some_iff.1 h
  obtain ⟨o, ho, rfl⟩ := map_eq_some_iff.1 h
  exact checkedAdd_eq_some.1 ho

theorem chained_offset : ∀ {frames : Frames} {base : Position} (hne : frames ≠ []),
    Chained base frames →
      (frames.getLast hne).2.offset.toNat = base.offset.toNat + (frames.map Prod.fst).flatten.length := by
  intro frames
  induction frames with
  | nil => intro base hne; exact absurd rfl hne
  | cons f frames ih =>
    intro base hne h
    obtain ⟨bytes, p⟩ := f
    have hp := after_offset h.1
    by_cases hf : frames = []
    · subst hf; simpa using hp
    · rw [getLast_cons hf, ih hf h.2, hp]
      simp only [map_cons, flatten_cons, length_append]
      omega

theorem candidate_offset (g : PreparedGroup) :
    g.candidate.offset.toNat = g.base.offset.toNat + g.bytes.length :=
  chained_offset g.nonempty g.chained

/-! ## What each stage does -/

/-- `w'` is `w` after appending `bytes`: nothing else moved but the written position. -/
structure Appended (w w' : LogicalWal) (bytes : Bytes) : Prop where
  atEnd : w'.file.AtEnd
  content : w'.file.content = w.file.content ++ bytes
  durable : w'.file.durable = w.file.durable
  progress : w'.progress = { w.progress with written := w'.progress.written }
  fenced : w'.fenced = w.fenced

theorem appended_write (hend : w.file.AtEnd) (bytes : Bytes) (written : Position) :
    Appended w { w with file := w.file.write bytes, progress := { w.progress with written := written } }
      bytes :=
  ⟨File.write_atEnd hend _, File.write_content hend _, rfl, rfl, rfl⟩

theorem Appended.trans {w₁ w2 : LogicalWal} {a b : Bytes} (h : Appended w w₁ a) (h' : Appended w₁ w2 b) :
    Appended w w2 (a ++ b) where
  atEnd := h'.atEnd
  content := by rw [h'.content, h.content, append_assoc]
  durable := h'.durable.trans h.durable
  progress := by rw [h'.progress, h.progress]
  fenced := h'.fenced.trans h.fenced

theorem appendFrames_spec (env : CommitEnv) : ∀ (frames : Frames) (w : LogicalWal) (i : ℕ),
    w.file.AtEnd →
      ∃ k, Appended w (appendFrames env w i frames).1 ((frames.map Prod.fst).flatten.take k) ∧
        ((appendFrames env w i frames).2 = true →
          (frames.map Prod.fst).flatten.take k = (frames.map Prod.fst).flatten ∧
            (appendFrames env w i frames).1.progress.written =
              (frames.getLast?.map Prod.snd).getD w.progress.written) := by
  intro frames
  induction frames with
  | nil =>
    intro w i hend
    exact ⟨0, ⟨hend, by simp [appendFrames], rfl, rfl, rfl⟩, fun _ => ⟨rfl, rfl⟩⟩
  | cons f frames ih =>
    obtain ⟨bytes, p⟩ := f
    intro w i hend
    rw [appendFrames]
    cases ha : env.append i with
    | some k =>
      refine ⟨min k bytes.length, ?_, fun h => absurd h (by simp [File.writeAll])⟩
      have := appended_write hend (bytes.take k) w.progress.written
      rw [map_cons, flatten_cons, take_append_of_le_length (min_le_right _ _), ← take_eq_take_min]
      exact this
    | none =>
      simp only [File.writeAll]
      have h1 := appended_write hend bytes p
      obtain ⟨k, hk, hok⟩ := ih _ (i + 1) h1.atEnd
      refine ⟨bytes.length + k, ?_, fun h => ?_⟩
      · rw [map_cons, flatten_cons, take_length_add_append]
        exact h1.trans hk
      · obtain ⟨h2, h3⟩ := hok h
        refine ⟨by rw [map_cons, flatten_cons, take_length_add_append, h2], ?_⟩
        rw [h3]
        cases frames with
        | nil => rfl
        | cons f fs => rw [getLast?_cons_cons, getLast?_eq_some_getLast (cons_ne_nil f fs)]; rfl

/-- From the synchronize stage on the file is fixed: a failure leaves the group committed and the
writer fenced, success acknowledges it. -/
theorem publishStage_spec (env : CommitEnv) (w : LogicalWal) (c : Position) (hf : w.fenced = true) :
    (publishStage env w c).synchronized = true ∧ (publishStage env w c).wal.file = w.file ∧
      (publishStage env w c).wal.progress.synchronized = w.progress.synchronized ∧
      (publishStage env w c).wal.progress.written = w.progress.written ∧
      (publishStage env w c).phase ≠ .prepare ∧
      ((publishStage env w c).result = .ok () → (publishStage env w c).wal.fenced = false ∧
        (publishStage env w c).wal.progress.published = some c ∧
        (publishStage env w c).wal.progress.acknowledged = some c) ∧
      (∀ e, (publishStage env w c).result = .error e → (publishStage env w c).wal.fenced = true) := by
  unfold publishStage
  cases env.afterSync with
  | panics => simp [hf]
  | yes => simp [hf]
  | no =>
    set w₁ : LogicalWal := if env.publish.marks then
      { w with progress := { w.progress with published := some c } } else w with hw1
    have h1 : w₁.file = w.file ∧ w₁.progress.synchronized = w.progress.synchronized ∧
        w₁.progress.written = w.progress.written ∧ w₁.fenced = true := by
      rw [hw1]; split <;> simp [hf]
    rcases env.publish.result with _ | e | u
    · simp [h1]
    · simp [h1]
    · by_cases hp : w₁.progress.published = some c
      · simp only [hp, ne_eq, not_true_eq_false, if_false, acknowledgeStage]
        cases env.afterPublish <;> simp [h1, hp]
      · simp [h1, hp]

/-- What one commit can do, with `old` the synchronized bytes before it. -/
inductive Outcome (w : LogicalWal) (g : PreparedGroup) : LogicalWal → Except CommitFailure Position → Prop where
  /-- Refused before any byte. -/
  | refused (f : CommitFailure) (hp : f.phase = .prepare) (hd : f.durability = .canceled) :
      Outcome w g w (.error f)
  /-- Appended in part, rolled back and synchronized. -/
  | rolledBack (w' : LogicalWal) (f : CommitFailure) (hp : f.phase ≠ .prepare) (hd : f.durability = .canceled)
      (hlive : w.fenced = false) (hbase : g.base = w.progress.synchronized) (hf : w'.fenced = true)
      (hc : w'.file.content = w.synchronizedBytes) (hdur : w'.file.durable = w.synchronizedBytes)
      (hs : w'.progress.synchronized = w.progress.synchronized)
      (hw : w'.progress.written = w.progress.synchronized) : Outcome w g w' (.error f)
  /-- Appended in part and the rollback is not known to be durable. -/
  | uncertain (w' : LogicalWal) (f : CommitFailure) (hp : f.phase ≠ .prepare) (hd : f.durability = .uncertain)
      (hlive : w.fenced = false) (hbase : g.base = w.progress.synchronized) (hf : w'.fenced = true)
      (hc : ∃ k, w'.file.content = w.synchronizedBytes ++ g.bytes.take k)
      (hdur : w'.file.durable = w.synchronizedBytes)
      (hs : w'.progress.synchronized = w.progress.synchronized) : Outcome w g w' (.error f)
  /-- Synchronized, then not published or not acknowledged. -/
  | committed (w' : LogicalWal) (f : CommitFailure) (hp : f.phase ≠ .prepare) (hd : f.durability = .committed)
      (hlive : w.fenced = false) (hbase : g.base = w.progress.synchronized) (hf : w'.fenced = true)
      (hc : w'.file.content = w.synchronizedBytes ++ g.bytes)
      (hdur : w'.file.durable = w.synchronizedBytes ++ g.bytes)
      (hs : w'.progress.synchronized = g.candidate) (hw : w'.progress.written = g.candidate) :
      Outcome w g w' (.error f)
  | acknowledged (w' : LogicalWal)
      (hlive : w.fenced = false) (hbase : g.base = w.progress.synchronized) (hf : w'.fenced = false)
      (hend : w'.file.AtEnd) (hc : w'.file.content = w.synchronizedBytes ++ g.bytes)
      (hdur : w'.file.durable = w.synchronizedBytes ++ g.bytes)
      (hs : w'.progress = ⟨g.candidate, g.candidate, some g.candidate, some g.candidate⟩) :
      Outcome w g w' (.ok g.candidate)

section

variable (env : CommitEnv) (hw : Sound w) (hlive : w.fenced = false) {w₁ : LogicalWal} {k : ℕ}
  (h : Appended { w with fenced := true } w₁ (g.bytes.take k)) (hbase : g.base = w.progress.synchronized)
include hw hlive h hbase

theorem rollback_spec : ((rollback env w₁ g.base).1.fenced = true ∧
      (rollback env w₁ g.base).1.file.durable = w.synchronizedBytes ∧
      (rollback env w₁ g.base).1.progress.synchronized = w.progress.synchronized) ∧
    ((rollback env w₁ g.base).2 = none → (rollback env w₁ g.base).1.file.content = w.synchronizedBytes ∧
      (rollback env w₁ g.base).1.progress.written = w.progress.synchronized) ∧
    ∃ j, (rollback env w₁ g.base).1.file.content = w.synchronizedBytes ++ g.bytes.take j := by
  have hc : w₁.file.content = w.synchronizedBytes ++ g.bytes.take k := by
    rw [h.content, ← hw.content_eq hlive]
  have hs : w₁.progress.synchronized = w.progress.synchronized := by rw [h.progress]
  have hd : w₁.file.durable = w.synchronizedBytes := h.durable.trans hw.durable
  have hlen : w.synchronizedBytes.length = g.base.offset.toNat := by
    rw [← hw.content_eq hlive, (hw.live hlive).1, hbase]
  have hcut : (w₁.file.setLen g.base.offset.toNat).content = w.synchronizedBytes := by
    rw [File.setLen_content (by rw [hc, length_append, hlen]; omega), hc, ← hlen, take_left']
    rfl
  unfold rollback
  rw [if_neg (by rw [hs, hbase]; exact not_not.2 rfl)]
  cases env.setLen with
  | false => exact ⟨⟨h.fenced, hd, hs⟩, fun h => by simp at h, k, hc⟩
  | true =>
    cases env.seek with
    | false => exact ⟨⟨h.fenced, hd, hs⟩, fun h => by simp at h, 0, by simpa using hcut⟩
    | true =>
      cases env.cleanupSync with
      | false => exact ⟨⟨h.fenced, hd, hs⟩, fun h => by simp at h, 0, by simpa [File.seek] using hcut⟩
      | true =>
        exact ⟨⟨h.fenced, hcut, hs⟩, fun _ => ⟨hcut, hbase⟩, 0, by simpa [File.seek, File.sync] using hcut⟩

theorem settle_rollback
    (phase : CommitPhase) (hphase : phase ≠ .prepare) (r : Except StreamError Unit) (e : StreamError) :
    Outcome w g (settle env ⟨w₁, phase, false, r⟩ g e).1 (.error (settle env ⟨w₁, phase, false, r⟩ g e).2) := by
  obtain ⟨⟨hf, hd, hs⟩, hok, j, hj⟩ := rollback_spec env hw hlive h hbase
  unfold settle
  simp only [Bool.false_eq_true, false_and, if_false, hphase]
  rcases hr : rollback env w₁ g.base with ⟨w2, _ | e'⟩
  · rw [hr] at hf hd hs hok
    obtain ⟨hc, hwr⟩ := hok rfl
    exact .rolledBack _ _ hphase rfl hlive hbase hf hc hd hs hwr
  · rw [hr] at hf hd hs hj
    exact .uncertain _ _ hphase rfl hlive hbase hf ⟨j, hj⟩ hd hs

end

/-- **Every commit on a sound writer ends in one of the five outcomes.** -/
theorem commit_outcome (env : CommitEnv) (hw : Sound w) (g : PreparedGroup) :
    Outcome w g (commit env w g).1 (commit env w g).2 := by
  unfold commit attempt
  by_cases hg : w.fenced = true ∨ g.base ≠ w.progress.synchronized
  · simp only [if_pos hg]
    exact .refused _ rfl rfl
  · simp only [if_neg hg]
    obtain ⟨hlive, hbase⟩ := not_or.1 hg
    have hlive : w.fenced = false := by simpa using hlive
    have hbase : g.base = w.progress.synchronized := not_not.1 hbase
    rcases env.beforeAppend
    case yes | panics => exact .refused _ rfl rfl
    rcases env.acquire with _ | e
    swap
    · exact .refused _ rfl rfl
    -- past the fence: the append stops somewhere or completes
    obtain ⟨k, happ, hall⟩ := appendFrames_spec env g.frames { w with fenced := true } 0
      (hw.live hlive).2.1
    rcases hr : appendFrames env { w with fenced := true } 0 g.frames with ⟨w₁, _ | _⟩
    · rw [hr] at happ
      exact settle_rollback env hw hlive happ hbase .append (by decide) _ _
    rw [hr] at happ hall
    obtain ⟨hbytes, hwritten⟩ := hall rfl
    have hwritten : w₁.progress.written = g.candidate := by
      rw [hwritten, getLast?_eq_some_getLast g.nonempty]; rfl
    simp only [synchronizeStage]
    by_cases hsync : env.sync = true
    swap
    · simp only [hsync]
      exact settle_rollback env hw hlive happ hbase .synchronize (by decide) _ _
    simp only [hsync, if_true]
    set w2 : LogicalWal :=
      { w₁ with file := w₁.file.sync, progress := { w₁.progress with synchronized := g.candidate } } with hw2
    have hc : w2.file.content = w.synchronizedBytes ++ g.bytes := by
      rw [hw2, ← hw.content_eq hlive, PreparedGroup.bytes, ← hbytes]
      exact happ.content
    obtain ⟨hsy, hfile, hps, hpw, hphase, hok, herr⟩ :=
      publishStage_spec env w2 g.candidate happ.fenced
    rcases hres : (publishStage env w2 g.candidate).result with e | u
    · simp only [settle, hsy, true_and, if_true]
      refine .committed _ _ ?_ rfl hlive hbase (herr e hres) (hfile ▸ hc) (hfile ▸ hc) hps
        (hpw.trans hwritten)
      show (if _ then _ else _) ≠ _
      split
      · decide
      · exact hphase
    · obtain ⟨hf, hp, ha⟩ := hok hres
      refine .acknowledged _ hlive hbase hf (hfile ▸ happ.atEnd) (hfile ▸ hc) (hfile ▸ hc) ?_
      rcases hpr : (publishStage env w2 g.candidate).wal.progress with ⟨a, b, c, d⟩
      rw [hpr] at hps hpw hp ha
      have ha' : a = g.candidate := hpw.trans hwritten
      have hb' : b = g.candidate := hps
      have hc' : c = some g.candidate := hp
      have hd' : d = some g.candidate := ha
      rw [ha', hb', hc', hd']

theorem Sound.length_synchronizedBytes (hw : Sound w) :
    w.synchronizedBytes.length = w.progress.synchronized.offset.toNat := by
  have := hw.offset_le
  unfold synchronizedBytes
  rw [length_take]; omega

theorem Sound.length_committed (hw : Sound w) (hb : g.base = w.progress.synchronized) :
    (w.synchronizedBytes ++ g.bytes).length = g.candidate.offset.toNat := by
  rw [candidate_offset, hb, length_append, hw.length_synchronizedBytes]

theorem commit_sound (env : CommitEnv) (hw : Sound w) (g : PreparedGroup) : Sound (commit env w g).1 := by
  have hold := hw.length_synchronizedBytes
  have h := commit_outcome env hw g
  generalize (commit env w g).1 = w₁, (commit env w g).2 = r at h
  rcases h with ⟨f, hp, hd⟩ | ⟨_, f, hp, hd, hl, hb, hf, hc, hdur, hs, hwr⟩ |
    ⟨_, f, hp, hd, hl, hb, hf, ⟨k, hc⟩, hdur, hs⟩ | ⟨_, f, hp, hd, hl, hb, hf, hc, hdur, hs⟩ |
    ⟨_, hl, hb, hf, hend, hc, hdur, hs⟩
  · exact hw
  · have hlen : w₁.file.content.length = w₁.progress.synchronized.offset.toNat := by rw [hc, hs, hold]
    refine ⟨hlen.ge, ?_, fun h => absurd h (by simp [hf])⟩
    rw [hdur, synchronizedBytes_of_length hlen, hc]
  · refine ⟨by rw [hc, hs, length_append]; omega, ?_, fun h => absurd h (by simp [hf])⟩
    have : w₁.synchronizedBytes = w.synchronizedBytes := by
      unfold synchronizedBytes at hc hold ⊢
      rw [hc, hs, take_append_of_le_length hold.ge, take_take, min_self]
    rw [hdur, this]
  · have hlen : w₁.file.content.length = w₁.progress.synchronized.offset.toNat := by
      rw [hc, hs, hw.length_committed hb]
    refine ⟨hlen.ge, ?_, fun h => absurd h (by simp [hf])⟩
    rw [hdur, synchronizedBytes_of_length hlen, hc]
  · have hlen : w₁.file.content.length = w₁.progress.synchronized.offset.toNat := by
      rw [hc, hs, hw.length_committed hb]
    refine ⟨hlen.ge, ?_, fun _ => ⟨hlen, hend, by rw [hs]⟩⟩
    rw [hdur, synchronizedBytes_of_length hlen, hc]

/-- The file ends at the synchronized position. -/
def Clean (w : LogicalWal) : Prop :=
  w.file.content.length = w.progress.synchronized.offset.toNat ∧
    w.progress.written = w.progress.synchronized

/-- Only an uncertain commit leaves bytes behind the synchronized position. -/
theorem commit_clean (env : CommitEnv) (hw : Sound w) (g : PreparedGroup) (hc : Clean w)
    (hr : ∀ f, (commit env w g).2 = .error f → f.durability ≠ .uncertain) :
    Clean (commit env w g).1 := by
  have hold := hw.length_synchronizedBytes
  have h := commit_outcome env hw g
  generalize (commit env w g).1 = w₁, (commit env w g).2 = r at h hr
  rcases h with ⟨f, hp, hd⟩ | ⟨_, f, hp, hd, hl, hb, hf, hc, hdur, hs, hwr⟩ | ⟨_, f, hp, hd, _⟩ |
    ⟨_, f, hp, hd, hl, hb, hf, hc, hdur, hs, hwr⟩ | ⟨_, hl, hb, hf, hend, hc, hdur, hs⟩
  · exact hc
  · exact ⟨by rw [hc, hs, hold], hwr.trans hs.symm⟩
  · exact absurd hd (hr f rfl)
  · exact ⟨by rw [hc, hs, hw.length_committed hb], hwr.trans hs.symm⟩
  · exact ⟨by rw [hc, hs, hw.length_committed hb], by rw [hs]⟩

/-! ## Every state of every writer -/

/-- What happens to a writer over its life: a commit of any group it is handed, a checkpoint that
fails, the handle swap of a checkpoint rotation, and a reopen of the store by a new owner (who reads
the segment to its end at `p` and synchronizes it). -/
inductive Action where
  | commit (env : CommitEnv) (g : PreparedGroup)
  | checkpointFails
  | rotate (base : Position)
  | reopen (p : Position)

/-- The failure says that the group may or may not be there. -/
def isUncertain : Except CommitFailure Position → Bool
  | .error f => f.durability = .uncertain
  | .ok _ => false

/-- A step of a writer, with whether one of its commits has ended `Uncertain`. A checkpoint fences the
writer past its guard. -/
def step (s : LogicalWal × Bool) : Action → Option (LogicalWal × Bool)
  | .commit env g => some ((commit env s.1 g).1, s.2 || isUncertain (commit env s.1 g).2)
  | .checkpointFails =>
    match checkpointReady s.1 with
    | .ok () => some ({ s.1 with fenced := true }, s.2)
    | .error _ => none
  | .rotate base =>
    match checkpointReady s.1 with
    | .ok () => if base.offset = 0 then some (fresh base (some base), s.2) else none
    | .error _ => none
  | .reopen p =>
    if p.offset.toNat = s.1.file.content.length then
      some (⟨(s.1.file.seek p.offset.toNat).sync, ⟨p, p, some p, none⟩, false⟩, false)
    else none

theorem sound_fresh {base : Position} (h : base.offset = 0) (p : Option Position) : Sound (fresh base p) :=
  ⟨by simp [fresh, h], by simp [fresh, synchronizedBytes, File.empty], fun _ => ⟨by simp [fresh, h, File.empty],
    rfl, rfl⟩⟩

theorem sound_reopened {p : Position} (hp : p.offset.toNat = w.file.content.length) :
    Sound ⟨(w.file.seek p.offset.toNat).sync, ⟨p, p, some p, none⟩, false⟩ := by
  refine ⟨hp.le, ?_, fun _ => ⟨hp.symm, hp, rfl⟩⟩
  show w.file.content = w.file.content.take p.offset.toNat
  rw [hp, take_length]

theorem Sound.clean (hw : Sound w) (hf : w.fenced = false) : Clean w :=
  ⟨(hw.live hf).1, (hw.live hf).2.2⟩

/-- Without an uncertain commit the file ends at the synchronized position, fenced or not. -/
def Kept (s : LogicalWal × Bool) : Prop := Sound s.1 ∧ (s.2 = false → Clean s.1)

theorem step_kept {s s' : LogicalWal × Bool} {a : Action} (h : step s a = some s') (hs : Kept s) :
    Kept s' := by
  obtain ⟨w, uncertain⟩ := s
  obtain ⟨hw, hclean⟩ := hs
  cases a with
  | commit env g =>
    cases h
    refine ⟨commit_sound env hw g, fun hu => ?_⟩
    obtain ⟨hu, hr⟩ := Bool.or_eq_false_iff.1 hu
    refine commit_clean env hw g (hclean hu) fun f hf => ?_
    rw [hf] at hr
    exact of_decide_eq_false hr
  | checkpointFails =>
    simp only [step] at h
    split at h <;> cases h
    exact ⟨⟨hw.offset_le, hw.durable, nofun⟩, hclean⟩
  | rotate base =>
    simp only [step] at h
    split at h
    · split at h <;> cases h
      have hfresh := sound_fresh ‹_› (some base)
      exact ⟨hfresh, fun _ => hfresh.clean rfl⟩
    · cases h
  | reopen p =>
    simp only [step] at h
    split at h <;> cases h
    have hsound := sound_reopened ‹_›
    exact ⟨hsound, fun _ => hsound.clean rfl⟩

theorem fenced_refuses (hf : w.fenced = true) :
    (∀ N bodies compression limit, ∃ e, prepare N w bodies compression limit = .error e) ∧
      (∀ env g, ∃ f, commit env w g = (w, .error f)) ∧ ∃ e, checkpointReady w = .error e := by
  refine ⟨fun N bodies c l => ⟨_, by rw [prepare, if_pos hf]⟩, fun env g => ?_, _, if_pos (.inl hf)⟩
  exact ⟨_, by rw [commit, attempt, if_pos (.inl hf)]; rfl⟩

theorem stale_refused (env : CommitEnv) (hg : g.base ≠ w.progress.synchronized) :
    ∃ f, commit env w g = (w, .error f) :=
  ⟨_, by rw [commit, attempt, if_pos (.inr hg)]; rfl⟩

/-- **A commit's answer is true.** For every state a writer can be in, every group and every
choice of failing steps. `Canceled` means a clean file, unless an earlier commit of the writer has ended
`Uncertain`; from a fenced writer it also says that the call changed nothing. -/
theorem commit_truthful {base : Position} {published : Option Position} (hbase : base.offset = 0)
    {as : List Action} {uncertain : Bool}
    (hw : run step (fresh base published, false) as = some (w, uncertain)) (env : CommitEnv)
    (g : PreparedGroup) :
    (∀ p, (commit env w g).2 = .ok p → p = g.candidate ∧
      (commit env w g).1.file.content = w.synchronizedBytes ++ g.bytes ∧
      (commit env w g).1.file.durable = w.synchronizedBytes ++ g.bytes ∧
      (commit env w g).1.progress.synchronized = p ∧
      (commit env w g).1.progress.published = some p ∧
      (commit env w g).1.progress.acknowledged = some p) ∧
    (∀ f, (commit env w g).2 = .error f →
      (f.durability = .canceled →
        (w.fenced = false ∨ uncertain = false →
          (commit env w g).1.file.content = w.synchronizedBytes ∧
          (commit env w g).1.file.durable = w.synchronizedBytes ∧
          (commit env w g).1.progress.written = w.progress.synchronized ∧
          (commit env w g).1.progress.synchronized = w.progress.synchronized) ∧
        (w.fenced = true → (commit env w g).1 = w)) ∧
      (f.durability = .committed →
        (commit env w g).1.synchronizedBytes = w.synchronizedBytes ++ g.bytes ∧
        (commit env w g).1.file.durable = w.synchronizedBytes ++ g.bytes) ∧
      (f.durability = .uncertain →
        (commit env w g).1.file.content.take w.progress.synchronized.offset.toNat = w.synchronizedBytes ∧
        (commit env w g).1.file.durable = w.synchronizedBytes ∧
        (commit env w g).1.progress.synchronized = w.progress.synchronized) ∧
      (f.phase ≠ .prepare → (commit env w g).1.fenced = true ∧
        (∀ N bodies compression limit,
          ∃ e, prepare N (commit env w g).1 bodies compression limit = .error e) ∧
        (∀ later g', ∃ f', commit later (commit env w g).1 g' = ((commit env w g).1, .error f')) ∧
        ∃ e, checkpointReady (commit env w g).1 = .error e)) ∧
    (g.base ≠ w.progress.synchronized → (commit env w g).1 = w ∧ ∃ f, (commit env w g).2 = .error f) := by
  have hfresh := sound_fresh hbase published
  obtain ⟨hs, hclean⟩ : Sound w ∧ (uncertain = false → Clean w) :=
    run_invariant (I := Kept) step_kept hw ⟨hfresh, fun _ => hfresh.clean rfl⟩
  refine ⟨?_, ?_, fun hg => ?_⟩
  · intro p hp
    have h := commit_outcome env hs g
    rw [hp] at h
    generalize (commit env w g).1 = w₁ at h ⊢
    rcases h with ⟨⟩ | ⟨⟩ | ⟨⟩ | ⟨⟩ | ⟨_, hl, hb, hf, hend, hc, hdur, hpr⟩
    exact ⟨rfl, hc, hdur, by rw [hpr], by rw [hpr], by rw [hpr]⟩
  · intro f hf
    have h := commit_outcome env hs g
    have hkeep := commit_sound env hs g
    rw [hf] at h
    generalize (commit env w g).1 = w₁ at h hkeep ⊢
    -- past its preparation, a commit that fails leaves the writer fenced
    have hfence : f.phase ≠ .prepare → w₁.fenced = true := by
      intro hp
      rcases h with ⟨_, hp', -⟩ | ⟨_, _, _, _, _, _, h, _⟩ | ⟨_, _, _, _, _, _, h, _⟩ | ⟨_, _, _, _, _, _, h, _⟩
      · exact absurd hp' hp
      all_goals exact h
    -- the durability answered leaves one or two of the outcomes
    refine ⟨fun hd => ?_, fun hd => ?_, fun hd => ?_, fun hp => ⟨hfence hp, fenced_refuses (hfence hp)⟩⟩
    · rcases h with ⟨_, -, -⟩ | ⟨_, _, _, _, hl, hb, hf', hc, hdur, hsy, hwr⟩ | ⟨_, _, _, hd', _⟩ | ⟨_, _, _, hd', _⟩
      all_goals try cases hd.symm.trans hd'
      · refine ⟨fun hu => ?_, fun _ => rfl⟩
        obtain ⟨hlen, hwr⟩ : Clean w := hu.elim hs.clean hclean
        exact ⟨(synchronizedBytes_of_length hlen).symm, hs.durable, hwr, rfl⟩
      · exact ⟨fun _ => ⟨hc, hdur, hwr, hsy⟩, fun h => absurd h (by simp [hl])⟩
    · rcases h with ⟨_, -, hd'⟩ | ⟨_, _, _, hd', _⟩ | ⟨_, _, _, hd', _⟩ |
        ⟨_, _, _, _, hl, hb, hf', hc, hdur, hsy, -⟩
      all_goals try cases hd.symm.trans hd'
      exact ⟨by rw [← hkeep.durable, hdur], hdur⟩
    · rcases h with ⟨_, -, hd'⟩ | ⟨_, _, _, hd', _⟩ | ⟨_, _, _, _, hl, hb, hf', ⟨k, hc⟩, hdur, hsy⟩ |
        ⟨_, _, _, hd', _⟩
      all_goals try cases hd.symm.trans hd'
      refine ⟨?_, hdur, hsy⟩
      rw [hc, take_append_of_le_length hs.length_synchronizedBytes.ge,
        ← hs.length_synchronizedBytes, take_length]
  · obtain ⟨f, hf⟩ := stale_refused (w := w) env hg
    rw [hf]
    exact ⟨rfl, f, rfl⟩

/-! ## One writer, by hand -/

/-- A polynomial hash that is never zero, and a compressor that stores its input behind a header. -/
def sampleNative : Native where
  toPostcard := leb128
  hash := fun b => ⟨1 :: leBytes 31 (b.foldl (fun h x => 257 * h + x.toNat + 1) 0), by simp⟩
  compress := fun b => some ([0x28, 0xb5, 0x2f, 0xfd, 0] ++ b)
  decompress := fun c => ([c.drop 5], some [])

def sampleBase : Position where
  store := ⟨⟨[0, 0, 0, 0, 0, 0, 0x40, 0, 0x80, 0, 0, 0, 0, 0, 0, 1], rfl⟩⟩
  epoch := 1
  segment := ⟨List.replicate 32 1, rfl⟩
  sequence := 0
  offset := 0
  digest := ⟨List.replicate 32 2, rfl⟩

def sampleFrame : Bytes :=
  match Frame.encode sampleNative [7] ⟨sampleBase.store, 1, 1, sampleBase.segment, sampleBase.digest⟩
    .raw 16 with
  | .ok bytes => bytes
  | .error _ => []

def sampleGroup : PreparedGroup where
  base := sampleBase
  frames := [(sampleFrame, { sampleBase with sequence := 1, offset := 201, digest := tailDigest sampleFrame })]
  nonempty := by simp
  chained := ⟨by decide +kernel, trivial⟩

/-- Every step succeeds. -/
def calm : CommitEnv where
  beforeAppend := .no
  acquire := none
  append := fun _ => none
  sync := true
  afterSync := .no
  publish := ⟨true, some (.ok ())⟩
  afterPublish := .no
  setLen := true
  seek := true
  cleanupSync := true

/-- The append stops after seven bytes and the truncation fails. -/
def torn : CommitEnv := { calm with append := fun _ => some 7, setLen := false }

theorem prepare_sample :
    prepare sampleNative (fresh sampleBase none) [[7]] .raw 16 = .ok sampleGroup := by
  decide +kernel

/-- **`Canceled` does not always mean a clean file.** The group is prepared, its first commit
is torn and left uncertain; the second commit of a group prepared before that is refused as
`Canceled`, and the torn bytes are still behind the synchronized position. -/
theorem canceled_with_tail :
    ∃ w f, prepare sampleNative (fresh sampleBase none) [[7]] .raw 16 = .ok sampleGroup ∧
      run step (fresh sampleBase none, false) [.commit torn sampleGroup] = some (w, true) ∧
      (commit calm w sampleGroup).2 = .error f ∧ f.durability = .canceled ∧
      (commit calm w sampleGroup).1.file.content ≠ w.synchronizedBytes :=
  ⟨_, _, prepare_sample, rfl, rfl, rfl, by decide⟩

/-- After a checkpoint that failed, a commit is refused as `Canceled`, and the file is clean. -/
theorem commit_truthful_fenced :
    ∃ w f, run step (fresh sampleBase none, false) [.checkpointFails] = some (w, false) ∧
      w.fenced = true ∧ (commit calm w sampleGroup).2 = .error f ∧ f.durability = .canceled ∧
      (commit calm w sampleGroup).1.file.content = w.synchronizedBytes :=
  ⟨_, _, rfl, rfl, rfl, rfl, ((((commit_truthful rfl (show run step (fresh sampleBase none, false)
    [.checkpointFails] = some _ from rfl) calm sampleGroup).2.1 _ rfl).1 rfl).1 (.inr rfl)).1⟩

end Selene.Persist.LogicalWal
