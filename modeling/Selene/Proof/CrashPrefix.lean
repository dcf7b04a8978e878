import Selene.Proof.SelfDelimiting

/-!
# The log after a crash

`Framed p bodies frames`: the frames encode the bodies one after another from position
`p`. A committed run leaves such a list in the segment (`run_recorded`), and a reader
that stands at `p` walks it: `nextBody_frame` is one record, `nextBody_cut` a record cut short.

The walk stops in one case only. The reader computes the sequence number after the
record it has just verified, so it rejects the record numbered `u64::MAX`, which the
writer is able to commit. `crash_prefix_recovery` says that this is the only one.
-/

namespace Selene.Persist

open Octets Transition List Option Frame Prod LogicalWal UInt64

variable {N : Native} {L : ℕ} {p q : Position} {bodies : List Bytes} {frames : Frames}

variable {body bytes : Bytes} {compression : Compression} {sequence : UInt64} {limit : ℕ}

/-- The context the next record is written in. -/
def Position.next (p : Position) (sequence : UInt64) : Context :=
  ⟨p.store, p.epoch, sequence, p.segment, p.digest⟩

/-- The position behind a record that starts at `p`. -/
def Position.behind (p : Position) (sequence : UInt64) (consumed : ℕ) (digest : Digest) : Position :=
  { p with sequence := sequence, offset := p.offset + UInt64.ofNat consumed, digest := digest }

/-- `frames` are the bodies' frames, written one after another from `p` under limits up to `L`. -/
inductive Framed (N : Native) (L : ℕ) : Position → List Bytes → Frames → Prop where
  | nil (p : Position) : Framed N L p [] []
  | cons {p q : Position} {sequence : UInt64} {body bytes : Bytes} {bodies : List Bytes}
      {frames : Frames} {compression : Compression} {limit : ℕ}
      (hseq : checkedAdd p.sequence 1 = some sequence)
      (henc : encode N body (p.next sequence) compression limit = .ok bytes) (hlim : limit ≤ L)
      (hq : p.after bytes = some q) (rest : Framed N L q bodies frames) :
      Framed N L p (body :: bodies) ((bytes, q) :: frames)

/-- Where the last frame ends. -/
def endPosition (p : Position) (frames : Frames) : Position :=
  (frames.getLast?.map snd).getD p

theorem endPosition_cons (p q : Position) (bytes : Bytes) (frames : Frames) :
    endPosition p ((bytes, q) :: frames) = endPosition q frames := by
  unfold endPosition
  cases frames with
  | nil => rfl
  | cons f fs => rw [getLast?_cons_cons, getLast?_eq_some_getLast (cons_ne_nil f fs)]; rfl

theorem Framed.append {bodies' : List Bytes} {frames' : Frames}
    (h : Framed N L p bodies frames) (h' : Framed N L (endPosition p frames) bodies' frames') :
    Framed N L p (bodies ++ bodies') (frames ++ frames') ∧
      endPosition p (frames ++ frames') = endPosition (endPosition p frames) frames' := by
  induction h with
  | nil p => exact ⟨h', rfl⟩
  | cons hseq henc hlim hq rest ih =>
    rw [endPosition_cons] at h' ⊢
    obtain ⟨h₁, h₂⟩ := ih h'
    exact ⟨.cons hseq henc hlim hq h₁, by rw [cons_append, endPosition_cons, h₂]⟩

theorem Framed.length (h : Framed N L p bodies frames) : frames.length = bodies.length := by
  induction h with
  | nil => rfl
  | cons _ _ _ _ _ ih => simp [ih]

theorem after_sequence (h : p.after bytes = some q) : q.sequence.toNat = p.sequence.toNat + 1 := by
  obtain ⟨s, hs, h⟩ := bind_eq_some_iff.1 h
  obtain ⟨o, -, rfl⟩ := map_eq_some_iff.1 h
  exact checkedAdd_eq_some.1 hs

theorem Framed.end_sequence (h : Framed N L p bodies frames) :
    (endPosition p frames).sequence.toNat = p.sequence.toNat + bodies.length := by
  induction h with
  | nil => rfl
  | cons _ _ _ hq _ ih =>
    rw [endPosition_cons, ih, after_sequence hq, length_cons]; omega

theorem framed_of_prepareFrames (hlim : limit ≤ L) :
    ∀ {bodies : List Bytes} {p : Position} {total : ℕ} {frames : Frames},
      prepareFrames N compression limit p total bodies = .ok frames →
        Framed N L p bodies frames := by
  intro bodies
  induction bodies with
  | nil => intro p total frames h; cases h; exact .nil p
  | cons body bodies ih =>
    intro p total frames h
    obtain ⟨sequence, bytes, q, rest, rfl, hseq, henc, hq, hrest⟩ := prepareFrames_cons N h
    exact .cons hseq henc hlim hq (ih hrest)

theorem framed_of_prepare {w : LogicalWal} {g : PreparedGroup}
    (hlim : limit ≤ L) (h : w.prepare N bodies compression limit = .ok g) :
    Framed N L w.progress.synchronized bodies g.frames ∧ g.base = w.progress.synchronized ∧
      w.fenced = false := by
  unfold prepare at h
  split at h
  · cases h
  rename_i hf
  split at h
  · cases h
  split at h
  · cases h
  rename_i frames hfr
  cases h
  exact ⟨framed_of_prepareFrames hlim hfr, rfl, by simpa using hf⟩

theorem checkedAdd_of_lt {x : UInt64} {n : ℕ} (h : x.toNat + n < 2 ^ 64) :
    checkedAdd x n = some (x + UInt64.ofNat n) := by
  rw [checkedAdd_eq_some, UInt64.toNat_add, UInt64.toNat_ofNat', Nat.mod_eq_of_lt (by omega),
    Nat.mod_eq_of_lt (by omega)]

namespace LogicalReader

/-- The reader stands at `p` with `rest` unread. -/
structure At (L : ℕ) (p : Position) (rest : Bytes) (r : LogicalReader) : Prop where
  rest_eq : r.rest = rest
  sequence : r.context.sequence.toNat = p.sequence.toNat + 1
  context : r.context = p.next r.context.sequence
  limit : r.limit = L
  ended : r.ended = false
  failed : r.failed = false
  incomplete : r.incomplete = false
  position : r.position = p

variable {r : LogicalReader} {rest : Bytes}

theorem At.context_eq (hr : At L p rest r)
    (hseq : checkedAdd p.sequence 1 = some sequence) : r.context = p.next sequence := by
  rw [hr.context]
  congr 1
  exact UInt64.toNat_inj.1 (by rw [hr.sequence, checkedAdd_eq_some.1 hseq])

theorem nextBody_end (hr : At L p [] r) : nextBody N r = ({ r with ended := true, rest := [] }, .ok none) := by
  unfold nextBody readNext
  rw [if_neg (by rw [hr.failed]; decide), if_neg (by rw [hr.ended]; decide), hr.rest_eq]
  simp

theorem nextBody_complete {digest : Digest} {consumed : ℕ}
    (hr : At L p bytes r) (hseq : checkedAdd p.sequence 1 = some sequence)
    (hd : decode N bytes (p.next sequence) .unsealedEnd L = .ok (.complete body digest consumed))
    (hoff : p.offset.toNat + consumed < 2 ^ 64) :
    (sequence.toNat + 1 < 2 ^ 64 → ∃ r', nextBody N r = (r', .ok (some body)) ∧
      At L (p.behind sequence consumed digest) (bytes.drop consumed) r') ∧
    (2 ^ 64 ≤ sequence.toNat + 1 → ∃ r' e, nextBody N r = (r', .error e)) := by
  have hle := complete_le hd
  have hover : 0 < frameOverhead := by decide
  have hctx := hr.context_eq hseq
  have hsame : r.context.sequence = sequence := by rw [hctx]; rfl
  have hne : r.rest ≠ [] := by
    intro h
    rw [hr.rest_eq] at h
    rw [h, length_nil] at hle
    omega
  rw [← hctx, ← hr.rest_eq, ← hr.limit] at hd
  obtain ⟨rest, heq, -, hrest⟩ := readNext_eq hr.ended hne
  obtain rfl := hrest _ _ _ hd
  rw [hd] at heq
  rw [nextBody, if_neg (by rw [hr.failed]; decide), heq, hr.rest_eq]
  unfold answer accept
  constructor
  · intro hlt
    obtain ⟨s', hs'⟩ : ∃ s', checkedAdd r.context.sequence 1 = some s' := by
      cases h : checkedAdd r.context.sequence 1 with
      | none =>
        have := checkedAdd_eq_none.1 h
        rw [hsame] at this
        omega
      | some s' => exact ⟨s', rfl⟩
    have hsn := checkedAdd_eq_some.1 hs'
    have hpred : s' - 1 = sequence := by
      apply UInt64.toNat_inj.1
      have h1 : (1 : UInt64) ≤ s' := by
        rw [UInt64.le_iff_toNat_le, hsn]
        simp
      rw [UInt64.toNat_sub_of_le _ _ h1, hsn, hsame]
      simp
    simp only [hs', hr.position, checkedAdd_of_lt hoff]
    refine ⟨_, rfl, rfl, ?_, ?_, hr.limit, rfl, hr.failed, hr.incomplete, ?_⟩
    · show s'.toNat = sequence.toNat + 1
      rw [hsn, hsame]
    · rw [hctx]
      rfl
    · rw [hpred]
      rfl
  · intro hge
    have hnone : checkedAdd r.context.sequence 1 = none := by
      rw [checkedAdd_eq_none, hsame]
      omega
    simp only [hnone]
    exact ⟨_, _, rfl⟩

theorem nextBody_frame (hN : N.Lawful) (hL : L ≤ maxPayload) (hr : At L p (bytes ++ rest) r)
    (hseq : checkedAdd p.sequence 1 = some sequence)
    (henc : encode N body (p.next sequence) compression limit = .ok bytes) (hlim : limit ≤ L)
    (hq : p.after bytes = some q) :
    (q.sequence.toNat + 1 < 2 ^ 64 → ∃ r', nextBody N r = (r', .ok (some body)) ∧ At L q rest r') ∧
      (2 ^ 64 ≤ q.sequence.toNat + 1 → ∃ r' e, nextBody N r = (r', .error e)) := by
  obtain ⟨s, hs, hq⟩ := bind_eq_some_iff.1 hq
  obtain ⟨o, ho, rfl⟩ := map_eq_some_iff.1 hq
  obtain rfl : sequence = s := mem_unique hseq hs
  have hoff : p.offset.toNat + bytes.length < 2 ^ 64 := by
    rw [← checkedAdd_eq_some.1 ho]
    exact o.toNat_lt
  obtain rfl := Option.some.inj ((checkedAdd_of_lt hoff).symm.trans ho)
  have hcomplete := nextBody_complete hr hseq (decode_frame hN hL henc hlim rest) hoff
  rwa [drop_left] at hcomplete

/-- A frame cut short: the reader returns `None` and remembers the torn tail. -/
theorem nextBody_cut (hL : L ≤ maxPayload) {k : ℕ} (hr : At L p (bytes.take k) r)
    (hseq : checkedAdd p.sequence 1 = some sequence)
    (henc : encode N body (p.next sequence) compression limit = .ok bytes) (hlim : limit ≤ L)
    (hk : k < bytes.length) :
    nextBody N r = ({ r with ended := true, rest := [], incomplete := decide (0 < k) }, .ok none) := by
  rcases Nat.eq_zero_or_pos k with rfl | h0
  · rw [nextBody_end hr]
    simp [hr.incomplete]
  obtain ⟨needed, hd, -⟩ := decode_cut_frame hL henc hlim hk
  have hne : r.rest ≠ [] := by
    rw [hr.rest_eq, ← length_pos_iff, length_take]
    omega
  rw [← hr.context_eq hseq, ← hr.rest_eq, ← hr.limit] at hd
  obtain ⟨rest, heq, hrest, -⟩ := readNext_eq hr.ended hne
  obtain rfl := hrest ⟨needed, hd⟩
  rw [nextBody, if_neg (by rw [hr.failed]; decide), heq, hd]
  simp [answer, h0]

/-- Successive calls return the bodies, then `None` for ever, and the torn-tail flag is as given. -/
def Recovers (N : Native) (r : LogicalReader) (bodies : List Bytes) (torn : Bool) : Prop :=
  ∀ m, (reads N m r).1 =
      (bodies.take m).map (fun b => .ok (some b)) ++ List.replicate (m - bodies.length) (.ok none) ∧
    (bodies.length < m → (reads N m r).2.incomplete = torn)

theorem recovers_cons {torn : Bool} {r' : LogicalReader} (h : nextBody N r = (r', .ok (some body))) :
    Recovers N r (body :: bodies) torn ↔ Recovers N r' bodies torn := by
  constructor
  · intro hr m
    obtain ⟨h₁, h₂⟩ := hr (m + 1)
    rw [reads, h] at h₁ h₂
    exact ⟨by simpa using h₁, fun hm => h₂ (by simp; omega)⟩
  · intro hr m
    cases m with
    | zero => exact ⟨by simp [reads], fun hm => absurd hm (by simp)⟩
    | succ m =>
      obtain ⟨h₁, h₂⟩ := hr m
      rw [reads, h]
      exact ⟨by simp [h₁], fun hm => h₂ (by simp at hm; omega)⟩

theorem reads_ended (h : r.ended = true) (hf : r.failed = false) (m : ℕ) :
    reads N m r = (List.replicate m (.ok none), r) := by
  have hnext : nextBody N r = (r, .ok none) := by
    unfold nextBody readNext
    rw [if_neg (by rw [hf]; decide), if_pos h]
  induction m with
  | zero => rfl
  | succ m ih => rw [reads, hnext, ih]; rfl

theorem recovers_nil {r' : LogicalReader} (h : nextBody N r = (r', .ok none)) (he : r'.ended = true)
    (hf : r'.failed = false) : Recovers N r [] r'.incomplete := by
  intro m
  cases m with
  | zero => exact ⟨rfl, fun hm => absurd hm (by simp)⟩
  | succ m =>
    rw [reads, h, reads_ended he hf]
    exact ⟨rfl, fun _ => rfl⟩

end LogicalReader

/-! ## Cuts -/

/-- The number of frames wholly inside the first `k` bytes. -/
def wholeFrames : List Bytes → ℕ → ℕ
  | [], _ => 0
  | f :: fs, k => if f.length ≤ k then wholeFrames fs (k - f.length) + 1 else 0

/-- Whether the first `k` bytes end inside a frame. -/
def tornAt : List Bytes → ℕ → Bool
  | [], _ => false
  | f :: fs, k => if f.length ≤ k then tornAt fs (k - f.length) else decide (0 < k)

/-- The file's bytes when `frames` were being written and `k` bytes arrived. -/
def cutBytes (frames : Frames) (k : ℕ) : Bytes := ((frames.map fst).flatten).take k

open LogicalReader in
/-- **Reading a cut list of frames.** The whole frames' bodies come back in order and nothing
else, exactly when none of these frames is numbered `u64::MAX`. -/
theorem recovers_iff (hN : N.Lawful) (hL : L ≤ maxPayload) (h : Framed N L p bodies frames) :
    ∀ {k : ℕ} {r : LogicalReader}, LogicalReader.At L p (cutBytes frames k) r →
      (Recovers N r (bodies.take (wholeFrames (frames.map fst) k)) (tornAt (frames.map fst) k) ↔
        p.sequence.toNat + wholeFrames (frames.map fst) k + 1 < 2 ^ 64) := by
  induction h with
  | nil p =>
    intro k r hr
    have hlt : p.sequence.toNat + 1 < 2 ^ 64 := by rw [← hr.sequence]; exact r.context.sequence.toNat_lt
    have := recovers_nil (nextBody_end (N := N) (by simpa [cutBytes] using hr)) rfl hr.failed
    rw [show (_ : LogicalReader).incomplete = false from hr.incomplete] at this
    simpa [wholeFrames, tornAt] using ⟨fun _ => hlt, fun _ => this⟩
  | @cons p q sequence body bytes bodies frames compression limit hseq henc hlim hq rest ih =>
    intro k r hr
    have hlt : p.sequence.toNat + 1 < 2 ^ 64 := by rw [← hr.sequence]; exact r.context.sequence.toNat_lt
    by_cases hk : bytes.length ≤ k
    · have hcut : cutBytes ((bytes, q) :: frames) k = bytes ++ cutBytes frames (k - bytes.length) := by
        unfold cutBytes
        rw [map_cons, flatten_cons, take_append, take_of_length_le hk]
      rw [hcut] at hr
      have hq' := after_sequence hq
      obtain ⟨hok, herr⟩ := nextBody_frame hN hL hr hseq henc hlim hq
      simp only [map_cons, wholeFrames, tornAt, if_pos hk, take_succ_cons]
      by_cases hmax : q.sequence.toNat + 1 < 2 ^ 64
      · obtain ⟨r', hb, hat⟩ := hok hmax
        rw [recovers_cons hb, ih hat, hq']
        constructor <;> intro h <;> omega
      · obtain ⟨r', e, he⟩ := herr (by omega)
        refine ⟨fun h => ?_, fun h => by omega⟩
        have := (h 1).1
        simp [reads, he] at this
    · have hcut : cutBytes ((bytes, q) :: frames) k = bytes.take k := by
        unfold cutBytes
        rw [map_cons, flatten_cons, take_append_of_le_length (le_of_not_ge hk)]
      rw [hcut] at hr
      have := recovers_nil (nextBody_cut hL hr hseq henc hlim (by omega)) rfl hr.failed
      simp only [map_cons, wholeFrames, tornAt, if_neg hk, take_zero, Nat.add_zero]
      exact ⟨fun _ => hlt, fun _ => this⟩

theorem wholeFrames_append (fs gs : List Bytes) (k : ℕ) :
    wholeFrames (fs ++ gs) (fs.flatten.length + k) = fs.length + wholeFrames gs k ∧
      tornAt (fs ++ gs) (fs.flatten.length + k) = tornAt gs k := by
  induction fs with
  | nil => simp
  | cons f fs ih =>
    have hle : f.length ≤ (f :: fs).flatten.length + k := by simp; omega
    have hsub : (f :: fs).flatten.length + k - f.length = fs.flatten.length + k := by simp; omega
    rw [cons_append, wholeFrames, tornAt, if_pos hle, if_pos hle, hsub, ih.1, ih.2]
    exact ⟨by simp; omega, rfl⟩

theorem wholeFrames_spec : ∀ (fs : List Bytes) (k : ℕ),
    wholeFrames fs k ≤ fs.length ∧ (fs.take (wholeFrames fs k)).flatten.length ≤ k ∧
      (wholeFrames fs k < fs.length → k < (fs.take (wholeFrames fs k + 1)).flatten.length) := by
  intro fs
  induction fs with
  | nil => intro k; simp [wholeFrames]
  | cons f fs ih =>
    intro k
    rw [wholeFrames]
    split
    · rename_i hk
      obtain ⟨h₁, h₂, h₃⟩ := ih (k - f.length)
      simp only [length_cons, take_succ_cons, flatten_cons, length_append]
      exact ⟨by omega, by omega, fun h => by have := h₃ (by omega); omega⟩
    · rename_i hk
      simp only [take_zero, flatten_nil, length_nil, Nat.zero_add, take_succ_cons,
        flatten_cons, append_nil]
      exact ⟨Nat.zero_le _, Nat.zero_le _, fun _ => by omega⟩

theorem tornAt_iff : ∀ (fs : List Bytes) (k : ℕ),
    tornAt fs k = true ↔ ¬ ∃ j, (fs.take j).flatten = fs.flatten.take k := by
  intro fs
  induction fs with
  | nil => intro k; simp [tornAt]
  | cons f fs ih =>
    intro k
    rw [tornAt]
    split
    · rename_i hk
      rw [ih, flatten_cons, take_append, take_of_length_le hk]
      refine not_congr ⟨?_, ?_⟩
      · rintro ⟨j, hj⟩
        exact ⟨j + 1, by rw [take_succ_cons, flatten_cons, hj]⟩
      · rintro ⟨j, hj⟩
        cases j with
        | zero =>
          -- no frame at all: then the cut is empty, and so is the rest
          have := congrArg List.length hj
          simp at this
          exact ⟨0, by rw [take_zero, flatten_nil, Eq.comm, ← length_eq_zero_iff]; simp; omega⟩
        | succ j => exact ⟨j, by simpa using hj⟩
    · rename_i hk
      rw [decide_eq_true_eq, flatten_cons, take_append_of_le_length (by omega)]
      constructor
      · rintro h0 ⟨j, hj⟩
        have := congrArg List.length hj
        cases j with
        | zero | succ j => simp at this; omega
      · intro h
        rcases Nat.eq_zero_or_pos k with h0 | h0
        · exact absurd ⟨0, by simp [h0]⟩ h
        · exact h0

/-! ## Runs of a writer -/

namespace LogicalWal

/-- What builds up a segment: a group that is prepared and committed (acknowledged, or
synchronized before the commit failed), and a reopen by a new owner. -/
inductive LogAction where
  | group (bodies : List Bytes) (compression : Compression) (limit : ℕ) (env : CommitEnv)
  | reopen

def LogAction.committed : LogAction → List Bytes
  | group bodies _ _ _ => bodies
  | reopen => []

/-- The bodies committed in a run, in order. -/
def committedBodies (as : List LogAction) : List Bytes := as.flatMap LogAction.committed

def logStep (N : Native) (L : ℕ) (w : LogicalWal) : LogAction → Option LogicalWal
  | .group bodies compression limit env =>
    if limit ≤ L then
      match w.prepare N bodies compression limit with
      | .error _ => none
      | .ok g =>
        match commit env w g with
        | (w', .ok _) => some w'
        | (w', .error f) => if f.durability = .committed then some w' else none
    else none
  | .reopen =>
    let p := w.progress.synchronized
    if w.file.content.length = p.offset.toNat then
      some ⟨(w.file.seek p.offset.toNat).sync, ⟨p, p, some p, none⟩, false⟩
    else none

variable {w w' : LogicalWal} {base : Position}

/-- The segment is the committed bodies' frames from `base`, and nothing else. -/
structure Recorded (N : Native) (L : ℕ) (base : Position) (w : LogicalWal) (bodies : List Bytes) : Prop where
  sound : Sound w
  frames : ∃ frames, Framed N L base bodies frames ∧ w.file.content = (frames.map fst).flatten ∧
    w.progress.synchronized = endPosition base frames

theorem candidate_eq (g : PreparedGroup) (p : Position) : g.candidate = endPosition p g.frames := by
  unfold endPosition PreparedGroup.candidate
  rw [getLast?_eq_some_getLast g.nonempty]
  rfl

theorem recorded_of_committed {bodies bodies' : List Bytes} {g : PreparedGroup} (h : Recorded N L base w bodies)
    (hg : Framed N L w.progress.synchronized bodies' g.frames) (hlive : w.fenced = false) (hs : Sound w')
    (hc : w'.file.content = w.synchronizedBytes ++ g.bytes)
    (hp : w'.progress.synchronized = g.candidate) : Recorded N L base w' (bodies ++ bodies') := by
  obtain ⟨hsound, frames, hf, hcont, hsync⟩ := h
  rw [hsync] at hg
  obtain ⟨h₁, h₂⟩ := hf.append hg
  refine ⟨hs, frames ++ g.frames, h₁, ?_, ?_⟩
  · rw [hc, ← hsound.content_eq hlive, hcont, map_append, flatten_append]; rfl
  · rw [hp, h₂]; exact candidate_eq g _

theorem logStep_recorded {a : LogAction} {bodies : List Bytes} (h : logStep N L w a = some w')
    (hw : Recorded N L base w bodies) : Recorded N L base w' (bodies ++ a.committed) := by
  cases a with
  | group bodies' compression limit env =>
    simp only [logStep] at h
    split at h
    swap
    · cases h
    rename_i hlim
    split at h
    · cases h
    rename_i g hg
    obtain ⟨hfr, hb, hlive⟩ := framed_of_prepare hlim hg
    have hout := commit_outcome env hw.sound g
    have hsound := commit_sound env hw.sound g
    rcases hcm : commit env w g with ⟨w1, f | q⟩
    · rw [hcm] at h hout hsound
      simp only at h hout hsound
      split at h
      · rename_i hd
        cases h
        rcases hout with ⟨_, -, hd'⟩ | ⟨_, _, _, hd', _⟩ | ⟨_, _, _, hd', _⟩ | ⟨_, _, _, _, _, _, _, hc, _, hs⟩
        · rw [hd] at hd'; cases hd'
        · rw [hd] at hd'; cases hd'
        · rw [hd] at hd'; cases hd'
        · exact recorded_of_committed hw hfr hlive hsound hc hs
      · cases h
    · rw [hcm] at h hout hsound
      simp only [Option.some.injEq] at h hout hsound
      subst h
      rcases hout with ⟨⟩ | ⟨⟩ | ⟨⟩ | ⟨⟩ | ⟨_, _, _, _, _, hc, _, hs⟩
      exact recorded_of_committed hw hfr hlive hsound hc (by rw [hs])
  | reopen =>
    simp only [logStep] at h
    split at h
    · rename_i hlen
      cases h
      obtain ⟨hsound, frames, hf, hcont, hsync⟩ := hw
      refine ⟨sound_reopened hlen.symm, frames, ?_, hcont, hsync⟩
      simpa [LogAction.committed] using hf
    · cases h

theorem run_recorded {as : List LogAction} {bodies : List Bytes} (h : run (logStep N L) w as = some w')
    (hw : Recorded N L base w bodies) : Recorded N L base w' (bodies ++ committedBodies as) := by
  induction as generalizing w bodies with
  | nil => cases h; simpa [committedBodies] using hw
  | cons a as ih =>
    obtain ⟨t, ht, hr⟩ := run_cons.1 h
    have := ih hr (logStep_recorded ht hw)
    simpa [committedBodies, append_assoc] using this

theorem recorded_fresh (h : base.offset = 0) (published : Option Position) :
    Recorded N L base (fresh base published) [] :=
  ⟨sound_fresh h _, [], .nil base, rfl, rfl⟩

end LogicalWal

theorem Framed.sequence_lt (h : Framed N L p bodies frames) (hne : frames ≠ []) :
    p.sequence.toNat + 1 < 2 ^ 64 := by
  cases h with
  | nil => exact absurd rfl hne
  | @cons _ _ sequence _ _ _ _ _ _ hseq => rw [← checkedAdd_eq_some.1 hseq]; exact sequence.toNat_lt

theorem Context.sequence_of_base {ctx : Context} (h : ctx.base.sequence.toNat + 1 < 2 ^ 64) :
    ctx.sequence.toNat = ctx.base.sequence.toNat + 1 := by
  have hb : ctx.base.sequence = ctx.sequence - 1 := rfl
  by_cases h0 : ctx.sequence = 0
  · rw [hb, h0] at h; exact absurd h (by decide)
  · have h1 : (1 : UInt64) ≤ ctx.sequence := by
      rw [UInt64.le_iff_toNat_le]
      have : ctx.sequence.toNat ≠ 0 := fun h => h0 (UInt64.toNat_inj.1 h)
      simp; omega
    rw [UInt64.le_iff_toNat_le] at h1
    rw [hb, UInt64.toNat_sub_of_le _ _ (UInt64.le_iff_toNat_le.2 h1)]
    simp at h1 ⊢; omega

open LogicalWal LogicalReader in
/-- **Crash-prefix recovery.** A run commits groups to a segment and a crash leaves the first `k`
bytes of one more. The reader returns the committed bodies, then the bodies of the frames that
are wholly there, then `None`, and reports a torn tail exactly when the cut is inside a frame,
if and only if none of these records is numbered `u64::MAX`. -/
theorem crash_prefix_recovery (hN : N.Lawful) (hL : L ≤ maxPayload) {ctx : Context}
    {published : Option Position} {as : List LogAction} {w : LogicalWal}
    (hrun : run (logStep N L) (fresh ctx.base published) as = some w) {compression : Compression}
    {limit : ℕ} (hlim : limit ≤ L) {g : PreparedGroup}
    (hg : w.prepare N bodies compression limit = .ok g) (k : ℕ) (name : String) :
    ∃ r torn, fromSelection (w.synchronizedBytes ++ g.bytes.take k) ctx name L = .ok r ∧
      (torn = true ↔ ¬ ∃ j, ((g.frames.map fst).take j).flatten = g.bytes.take k) ∧
      (Recovers N r (committedBodies as ++ bodies.take (wholeFrames (g.frames.map fst) k)) torn ↔
        ctx.base.sequence.toNat + ((committedBodies as).length +
          wholeFrames (g.frames.map fst) k) < 2 ^ 64 - 1) := by
  obtain ⟨hsound, frames, hf, hcont, hsync⟩ := run_recorded hrun (recorded_fresh rfl published)
  rw [nil_append] at hf
  obtain ⟨hfr, -, hlive⟩ := framed_of_prepare hlim hg
  have hlast := hfr.sequence_lt g.nonempty
  rw [hsync] at hfr hlast
  rw [hf.end_sequence] at hlast
  have hall := (hf.append hfr).1
  set flat := (frames.map fst).flatten with hflat
  have hfile : w.synchronizedBytes ++ g.bytes.take k = cutBytes (frames ++ g.frames) (flat.length + k) := by
    rw [← hsound.content_eq hlive, hcont, cutBytes, map_append, flatten_append,
      take_length_add_append]
    rfl
  have hwf := wholeFrames_append (frames.map fst) (g.frames.map fst) k
  refine ⟨_, tornAt (g.frames.map fst) k, if_neg (by omega), tornAt_iff _ _, ?_⟩
  have hiff := recovers_iff hN hL hall (k := flat.length + k)
    (r := ⟨w.synchronizedBytes ++ g.bytes.take k, ctx, L, false, false, false, ctx.base, 0, name⟩)
    ⟨hfile, Context.sequence_of_base (show ctx.base.sequence.toNat + 1 < 2 ^ 64 by omega), rfl, rfl, rfl, rfl, rfl, rfl⟩
  rw [map_append, hwf.1, hwf.2, length_map, hf.length, take_length_add_append] at hiff
  rw [hiff]
  constructor <;> intro h <;> omega

def sampleContext : Context :=
  ⟨sampleBase.store, 1, 1, sampleBase.segment, sampleBase.digest⟩

theorem toOption_eq_some {ε α : Type} {x : Except ε α} {a : α} : x.toOption = some a ↔ x = .ok a := by
  cases x <;> simp [Except.toOption]

open LogicalWal in
/-- Two committed records, and the group of two more that the crash cuts. -/
def sampleCut : Option (LogicalWal × PreparedGroup) :=
  (run (logStep sampleNative 16) (fresh sampleContext.base none) [.group [[7], [8]] .raw 16 calm]).bind fun w =>
    (w.prepare sampleNative [[9], [10]] .raw 16).toOption.map fun g => (w, g)

open LogicalWal LogicalReader in
/-- The cut is in the fourth record: three are read, and the tail is torn. -/
theorem crash_prefix_recovery_sample :
    ∃ w g r, sampleCut = some (w, g) ∧
      fromSelection (w.synchronizedBytes ++ g.bytes.take 300) sampleContext "WAL" 16 = .ok r ∧
      Recovers sampleNative r [[7], [8], [9]] true := by
  have hcut : (sampleCut.map fun (_, g) => (wholeFrames (g.frames.map fst) 300, tornAt (g.frames.map fst) 300)) =
      some (1, true) := by decide +kernel
  obtain ⟨⟨w, g⟩, hsome, hvalue⟩ := Option.map_eq_some_iff.1 hcut
  obtain ⟨hwhole, htorn⟩ := Prod.mk.inj hvalue
  have hparts := hsome
  unfold sampleCut at hparts
  obtain ⟨w', hrun, hrest⟩ := Option.bind_eq_some_iff.1 hparts
  obtain ⟨g', hg, heq⟩ := Option.map_eq_some_iff.1 hrest
  cases heq
  obtain ⟨r, torn, h₁, h₂, h₃⟩ := crash_prefix_recovery sampleNative_lawful (L := 16) (by decide) hrun
    (le_refl 16) (toOption_eq_some.1 hg) 300 "WAL"
  obtain rfl : torn = true := h₂.2 ((tornAt_iff _ _).1 htorn)
  rw [hwhole] at h₃
  exact ⟨w, g, r, hsome, h₁, h₃.2 (by decide)⟩

/-! ## The last sequence number -/

def lastGroup : PreparedGroup where
  base := lastContext.base
  frames := [(lastFrame, { lastContext.base with
    sequence := 0xffffffffffffffff, offset := 201, digest := tailDigest lastFrame })]
  nonempty := by simp
  chained := ⟨by decide +kernel, trivial⟩

def lastReader : LogicalReader :=
  ⟨lastFrame, lastContext, 16, false, false, false, lastContext.base, 0, "WAL"⟩

open LogicalWal LogicalReader in
/-- **The writer commits record `u64::MAX` and the reader rejects it.** -/
theorem last_record_rejected :
    prepare sampleNative (fresh lastContext.base none) [[7]] .raw 16 = .ok lastGroup ∧
      (commit calm (fresh lastContext.base none) lastGroup).2 = .ok lastGroup.candidate ∧
      (commit calm (fresh lastContext.base none) lastGroup).1.file.durable = lastFrame ∧
      fromSelection lastFrame lastContext "WAL" 16 = .ok lastReader ∧
      (nextBody sampleNative lastReader).2 = .error (.artifact "WAL" (some 0) (some 0xffffffffffffffff)
        (.protocol "sequence exhausted")) ∧ ¬ Recovers sampleNative lastReader [[7]] false := by
  have herr : (nextBody sampleNative lastReader).2 = .error (.artifact "WAL" (some 0)
      (some 0xffffffffffffffff) (.protocol "sequence exhausted")) := by decide +kernel
  refine ⟨by decide +kernel, by decide +kernel, by decide +kernel, by decide +kernel, herr, fun h => ?_⟩
  have := (h 1).1
  simp [reads, herr] at this

end Selene.Persist
