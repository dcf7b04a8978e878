import Selene.Proof.CheckpointAtomic

/-!
# The records behind the snapshot

`segment p bytes`: the records that the decoder reads off a segment from position `p`, and the
bytes it leaves. The recovery reader hands out the bodies of those behind the boundary, in
order, and finishes exactly when nothing is left and the boundary was met
(`recovery_suffix_iff`), on any content of the file. The one exception is the record numbered
`u64::MAX`, whose body the reader verifies and does not return.
-/

namespace Selene.Persist

open Octets Disk List Frame LogicalReader

/-- A record of a segment: its body, and the position behind it. -/
structure Record where
  body : Bytes
  position : Position
deriving DecidableEq

/-- The records in front of `bytes`, and what is left behind them. -/
def segment (N : Native) (L : ℕ) : ℕ → Position → Bytes → List Record × Bytes
  | 0, _, bytes => ([], bytes)
  | fuel + 1, p, bytes =>
    match checkedAdd p.sequence 1 with
    | none => ([], bytes)
    | some sequence =>
      match decode N bytes (p.next sequence) .unsealedEnd L with
      | .ok (.complete body digest consumed) =>
        let q := p.behind sequence consumed digest
        let behind := segment N L fuel q (bytes.drop consumed)
        (⟨body, q⟩ :: behind.1, behind.2)
      | _ => ([], bytes)

/-- The bodies of the records numbered above `b`. -/
def bodiesBehind (b : Position) (records : List Record) : List Bytes :=
  (records.filter fun x => b.sequence < x.position.sequence).map Record.body

/-- The snapshot's boundary stands in the root: at the end of the segment it was rotated from, at its
base, or at the end of one of its records. -/
def BoundaryMet (s : Selected) (b : Position) (records : List Record) : Prop :=
  s.rotation.map (·.previous.sealedEnd) = some b ∨ b = s.base ∨ ∃ x ∈ records, x.position = b

instance (s : Selected) (b : Position) (records : List Record) :
    Decidable (BoundaryMet s b records) :=
  inferInstanceAs (Decidable (_ ∨ _ ∨ ∃ x ∈ records, x.position = b))

namespace RecoveryReader

/-- The first `n` of: the bodies, and then `None` for ever, or one error and `Terminated` for ever. -/
def stream : List Bytes → Option StreamError → ℕ → List (Except StreamError (Option Bytes))
  | _, _, 0 => []
  | body :: bodies, failure, n + 1 => .ok (some body) :: stream bodies failure n
  | [], none, n + 1 => .ok none :: List.replicate n (.ok none)
  | [], some e, n + 1 => .error e :: List.replicate n (.error .terminated)

/-- Every series of calls returns the stream, and only a `None` lets the recovery finish. -/
def Answers (N : Native) (v : RecoveryReader) (bodies : List Bytes) (failure : Option StreamError) :
    Prop :=
  ∀ n, (reads N n v).1 = stream bodies failure n ∧
    ∀ snapshotRead, (reads N n v).2.finish snapshotRead = .ok () ↔
      snapshotRead = true ∧ failure = none ∧ bodies.length < n

/-- The recovery of a segment with these records and these bytes behind them. -/
def Delivers (N : Native) (v : RecoveryReader) (records : List Record) (rest : Bytes) : Prop :=
  ∃ failure, (failure = none ↔ BoundaryMet v.selected v.snapshot.boundary records ∧ rest = []) ∧
    Answers N v (if BoundaryMet v.selected v.snapshot.boundary records
      then bodiesBehind v.snapshot.boundary records else []) failure

/-! ## Calls -/

variable {N : Native} {v v' : RecoveryReader} {bodies : List Bytes} {failure : Option StreamError}

theorem finish_iff {snapshotRead : Bool} :
    v.finish snapshotRead = .ok () ↔ v.failed = false ∧ v.complete = true ∧ snapshotRead = true := by
  unfold finish
  cases v.failed <;> cases v.complete <;> cases snapshotRead <;> simp

theorem answers_cons {body : Bytes} (h : nextBody N v = (v', .ok (some body)))
    (hv : v.complete = false) :
    Answers N v (body :: bodies) failure ↔ Answers N v' bodies failure := by
  constructor
  · intro ha n
    obtain ⟨hreads, hfinish⟩ := ha (n + 1)
    simp only [reads, h, stream, List.cons.injEq, true_and] at hreads hfinish
    refine ⟨hreads, fun snapshotRead => (hfinish snapshotRead).trans ?_⟩
    rw [length_cons, Nat.add_lt_add_iff_right]
  · intro ha n
    cases n with
    | zero => exact ⟨rfl, fun snapshotRead => by simp [reads, finish_iff, hv]⟩
    | succ n =>
      obtain ⟨hreads, hfinish⟩ := ha n
      simp only [reads, h, stream, hreads, hfinish, length_cons, Nat.add_lt_add_iff_right]
      exact ⟨trivial, fun _ => trivial⟩

theorem reads_complete (hc : v.complete = true) (hf : v.failed = false) (n : ℕ) :
    reads N n v = (List.replicate n (.ok none), v) := by
  have hnext : nextBody N v = (v, .ok none) := by
    rw [nextBody, if_neg (by rw [hf]; decide), nextChecked, if_pos hc]
  induction n with
  | zero => rfl
  | succ n ih => rw [reads, hnext, ih, replicate_succ]

theorem reads_failed (hf : v.failed = true) (n : ℕ) :
    reads N n v = (List.replicate n (.error .terminated), v) := by
  have hnext : nextBody N v = (v, .error .terminated) := by
    rw [nextBody, if_pos hf]
  induction n with
  | zero => rfl
  | succ n ih => rw [reads, hnext, ih, replicate_succ]

theorem answers_end (h : nextBody N v = (v', .ok none)) (hv : v.complete = false)
    (hc : v'.complete = true) (hf : v'.failed = false) : Answers N v [] none := by
  intro n
  cases n with
  | zero => exact ⟨rfl, fun snapshotRead => by simp [reads, finish_iff, hv]⟩
  | succ n =>
    rw [reads, h, reads_complete hc hf]
    exact ⟨rfl, fun snapshotRead => by simp [finish_iff, hc, hf]⟩

theorem answers_error {e : StreamError} (h : nextBody N v = (v', .error e))
    (hv : v.complete = false) (hf : v'.failed = true) : Answers N v [] (some e) := by
  intro n
  cases n with
  | zero => exact ⟨rfl, fun snapshotRead => by simp [reads, finish_iff, hv]⟩
  | succ n =>
    rw [reads, h, reads_failed hf]
    exact ⟨rfl, fun snapshotRead => by simp [finish_iff, hf]⟩

theorem not_answers {e : StreamError} {body : Bytes} (h : nextBody N v = (v', .error e)) :
    ¬ Answers N v (body :: bodies) failure := by
  intro ha
  have := (ha 1).1
  simp [reads, h, stream] at this

end RecoveryReader

/-! ## One record of the file -/

variable {N : Native} {L : ℕ} {p : Position} {bytes : Bytes}

/-- No record in front of the bytes. -/
def NoRecord (N : Native) (L : ℕ) (p : Position) (bytes : Bytes) : Prop :=
  ∀ sequence, checkedAdd p.sequence 1 = some sequence → ∀ body digest consumed,
    Frame.decode N bytes (p.next sequence) .unsealedEnd L ≠ .ok (.complete body digest consumed)

/-- What stands in front of the bytes: a record, or nothing that the decoder takes for one. -/
theorem segment_cases (fuel : ℕ) (hfuel : bytes.length ≤ fuel) :
    (∃ sequence body digest consumed fuel', checkedAdd p.sequence 1 = some sequence ∧
      decode N bytes (p.next sequence) .unsealedEnd L = .ok (.complete body digest consumed) ∧
      fuel' < fuel ∧ (bytes.drop consumed).length ≤ fuel' ∧
      segment N L fuel p bytes = (⟨body, p.behind sequence consumed digest⟩ ::
          (segment N L fuel' (p.behind sequence consumed digest) (bytes.drop consumed)).1,
         (segment N L fuel' (p.behind sequence consumed digest) (bytes.drop consumed)).2)) ∨
    segment N L fuel p bytes = ([], bytes) ∧ NoRecord N L p bytes := by
  unfold NoRecord
  cases hs : checkedAdd p.sequence 1 with
  | none =>
    refine .inr ⟨?_, fun _ h => by cases h⟩
    cases fuel with
    | zero => rfl
    | succ fuel => rw [segment, hs]
  | some sequence =>
    rcases hd : decode N bytes (p.next sequence) .unsealedEnd L
      with e | ⟨body, digest, consumed⟩ | needed
    · refine .inr ⟨?_, fun _ h => by cases h; rw [hd]; simp⟩
      cases fuel with
      | zero => rfl
      | succ fuel => simp only [segment, hs, hd]
    · -- a record takes at least its overhead, so there is fuel for it
      have hle := complete_le hd
      have hover : 0 < frameOverhead := by decide
      obtain ⟨fuel', rfl⟩ : ∃ n, fuel = n + 1 := ⟨fuel - 1, by omega⟩
      refine .inl ⟨sequence, body, digest, consumed, fuel', rfl, hd, Nat.lt_succ_self _, ?_, ?_⟩
      · rw [length_drop]
        omega
      · simp only [segment, hs, hd]
    · refine .inr ⟨?_, fun _ h => by cases h; rw [hd]; simp⟩
      cases fuel with
      | zero => rfl
      | succ fuel => simp only [segment, hs, hd]

theorem segment_sequence : ∀ {fuel : ℕ} {p : Position} {bytes : Bytes} {x : Record},
    x ∈ (segment N L fuel p bytes).1 → p.sequence.toNat < x.position.sequence.toNat := by
  intro fuel
  induction fuel with
  | zero => intro p bytes x hx; cases hx
  | succ fuel ih =>
    intro p bytes x hx
    rw [segment] at hx
    split at hx
    · cases hx
    rename_i sequence hs
    have hsn := checkedAdd_eq_some.1 hs
    split at hx
    · rcases mem_cons.1 hx with rfl | hx
      · show p.sequence.toNat < sequence.toNat
        omega
      · have := ih hx
        have hq : sequence.toNat < x.position.sequence.toNat := this
        omega
    · cases hx

theorem bodiesBehind_all {b : Position} {records : List Record}
    (h : ∀ x ∈ records, b.sequence.toNat < x.position.sequence.toNat) :
    bodiesBehind b records = records.map Record.body := by
  unfold bodiesBehind
  rw [filter_eq_self.2]
  intro x hx
  simpa [UInt64.lt_iff_toNat_lt] using h x hx

namespace LogicalReader

variable {r : LogicalReader}

theorem At.successor (hr : At L p bytes r) : checkedAdd p.sequence 1 = some r.context.sequence :=
  checkedAdd_eq_some.2 hr.sequence

/-- At anything else the log reader ends: cleanly, with a torn tail, or with an error. -/
theorem nextBody_stop (hr : At L p bytes r) (hd : NoRecord N L p bytes) :
    (∃ r' e, bytes ≠ [] ∧ nextBody N r = (r', .error e)) ∨
      ∃ r', nextBody N r = (r', .ok none) ∧ (r'.incomplete = true ↔ bytes ≠ []) := by
  by_cases hne : bytes = []
  · subst hne
    exact .inr ⟨_, nextBody_end hr, by simp [hr.incomplete]⟩
  have hctx := hr.context_eq hr.successor
  have hdec := hd _ hr.successor
  rw [← hctx, ← hr.rest_eq, ← hr.limit] at hdec
  rw [← hr.rest_eq] at hne ⊢
  obtain ⟨rest, heq, -, -⟩ := readNext_eq hr.ended hne
  rcases hdr : decode N r.rest r.context .unsealedEnd r.limit
    with e | ⟨body, digest, consumed⟩ | needed
  · rw [hdr] at heq
    exact .inl ⟨_, _, hne, by rw [nextBody, if_neg (by rw [hr.failed]; decide), heq]; rfl⟩
  · exact absurd hdr (hdec body digest consumed)
  · rw [hdr] at heq
    exact .inr ⟨_, by rw [nextBody, if_neg (by rw [hr.failed]; decide), heq]; rfl, by simp [hne]⟩

end LogicalReader

namespace RecoveryReader

variable {v : RecoveryReader} {b : Position}

theorem nextBody_error {seen : Bool} {w : RecoveryReader} {e : StreamError}
    (hv : On L b seen p bytes v) (h : nextLoop N (v.reader.rest.length + 2) v = (w, .error e)) :
    ∃ w', nextBody N v = (w', .error e) ∧ w'.failed = true := by
  unfold nextBody nextChecked
  rw [if_neg (by rw [hv.failed]; decide), if_neg (by rw [hv.complete]; decide), h]
  exact ⟨_, rfl, rfl⟩

/-! ## Behind the boundary -/

theorem nextLoop_stop (fuel : ℕ) (hv : On L b true p bytes v) (hd : NoRecord N L p bytes) :
    (bytes ≠ [] ∧ ∃ w e, nextLoop N (fuel + 1) v = (w, .error e)) ∨
      (bytes = [] ∧ ∃ w, nextLoop N (fuel + 1) v = (w, .ok none) ∧ w.complete = true ∧
        w.failed = false) := by
  rw [nextLoop]
  obtain ⟨r', e, hne, hnext⟩ | ⟨r', hnext, hinc⟩ := nextBody_stop hv.reader hd
  · rw [hnext]
    exact .inl ⟨hne, _, _, rfl⟩
  · rw [hnext]
    by_cases hb : bytes = []
    · have hinc : r'.incomplete = false := by simpa [hb] using hinc
      refine .inr ⟨hb, ?_⟩
      simp only [finishSegment, hinc, hv.boundarySeen]
      exact ⟨_, rfl, rfl, hv.failed⟩
    · have hinc : r'.incomplete = true := hinc.2 hb
      refine .inl ⟨hb, ?_⟩
      simp only [finishSegment, hinc, if_true]
      exact ⟨_, _, rfl⟩

theorem nextLoop_record (fuel : ℕ) {sequence : UInt64} {body : Bytes} {digest : Digest}
    {consumed : ℕ} (hv : On L b true p bytes v) (hbp : b.sequence.toNat ≤ p.sequence.toNat)
    (hseq : checkedAdd p.sequence 1 = some sequence)
    (hd : decode N bytes (p.next sequence) .unsealedEnd L = .ok (.complete body digest consumed))
    (hoff : p.offset.toNat + bytes.length < 2 ^ 64) :
    (sequence.toNat + 1 < 2 ^ 64 → ∃ w, nextLoop N (fuel + 1) v = (w, .ok (some body)) ∧
      On L b true (p.behind sequence consumed digest) (bytes.drop consumed) w) ∧
    (2 ^ 64 ≤ sequence.toNat + 1 → ∃ w e, nextLoop N (fuel + 1) v = (w, .error e)) := by
  have hle := (complete_le hd).2
  obtain ⟨hok, herr⟩ := nextBody_complete hv.reader hseq hd (by omega)
  have hsn := checkedAdd_eq_some.1 hseq
  constructor
  · intro hlt
    obtain ⟨r', hnext, hat⟩ := hok hlt
    exact nextLoop_behind fuel hv hnext hat (by show _ < sequence.toNat; omega)
  · intro hge
    obtain ⟨r', e, hnext⟩ := herr hge
    rw [nextLoop, hnext]
    exact ⟨_, _, rfl⟩

theorem behind_offset {sequence : UInt64} {consumed : ℕ} {digest : Digest}
    (hoff : p.offset.toNat + bytes.length < 2 ^ 64) (hle : consumed ≤ bytes.length) :
    (p.behind sequence consumed digest).offset.toNat + (bytes.drop consumed).length < 2 ^ 64 := by
  have ho : (p.behind sequence consumed digest).offset.toNat = p.offset.toNat + consumed :=
    checkedAdd_eq_some.1 (checkedAdd_of_lt (by omega))
  rw [ho, length_drop]
  omega

/-- **Behind the boundary** every body is returned, exactly when no record is numbered `u64::MAX`. -/
theorem answers_behind_iff : ∀ {fuel : ℕ} {p : Position} {bytes : Bytes} {v : RecoveryReader},
    On L b true p bytes v → b.sequence.toNat ≤ p.sequence.toNat → bytes.length ≤ fuel →
    p.offset.toNat + bytes.length < 2 ^ 64 →
    ((∃ failure, (failure = none ↔ (segment N L fuel p bytes).2 = []) ∧
      Answers N v ((segment N L fuel p bytes).1.map Record.body) failure) ↔
        ∀ x ∈ (segment N L fuel p bytes).1, x.position.sequence.toNat + 1 < 2 ^ 64) := by
  intro fuel
  -- along the records; the reader's state moves with them
  induction fuel using Nat.strong_induction_on with
  | _ fuel ih =>
    intro p bytes v hv hbp hfuel hoff
    obtain ⟨sequence, body, digest, consumed, fuel', hseq, hd, hlt, hfuel', hsegment⟩ |
        ⟨hsegment, hd⟩ := @segment_cases N L p bytes fuel hfuel
    · have hle := (complete_le hd).2
      have hsn := checkedAdd_eq_some.1 hseq
      obtain ⟨hok, herr⟩ := nextLoop_record (v.reader.rest.length + 1) hv hbp hseq hd hoff
      rw [hsegment, map_cons, forall_mem_cons]
      rcases Nat.lt_or_ge (sequence.toNat + 1) (2 ^ 64) with hlast | hlast
      · -- the body is handed out, and the rest follows by induction
        obtain ⟨w, hloop, hon⟩ := hok hlast
        have hrest := ih fuel' hlt hon (by show _ ≤ sequence.toNat; omega) hfuel'
          (behind_offset hoff hle)
        rw [← hrest]
        refine Iff.trans ?_ (and_iff_right hlast).symm
        simp only [answers_cons (nextBody_on hv hloop) hv.complete]
      · -- the record numbered `u64::MAX`: an error in place of the body
        obtain ⟨w, e, hloop⟩ := herr hlast
        obtain ⟨w', hnext, -⟩ := nextBody_error hv hloop
        constructor
        · intro h
          obtain ⟨failure, -, ha⟩ := h
          exact absurd ha (not_answers hnext)
        · intro h
          have hmax : sequence.toNat + 1 < 2 ^ 64 := h.1
          omega
    · rw [hsegment]
      refine iff_of_true ?_ (fun x hx => absurd hx not_mem_nil)
      obtain ⟨hne, w, e, hloop⟩ | ⟨hnil, w, hloop, hc, hf⟩ :=
        nextLoop_stop (v.reader.rest.length + 1) hv hd
      · obtain ⟨w', hnext, hfailed⟩ := nextBody_error hv hloop
        exact ⟨some e, by simp [hne], answers_error hnext hv.complete hfailed⟩
      · exact ⟨none, by simp [hnil], answers_end (nextBody_on hv hloop) hv.complete hc hf⟩

/-! ## Up to the boundary -/

/-- A segment has fewer records than bytes, so its sequence numbers stay below its length. -/
theorem segment_count : ∀ {fuel : ℕ} {p : Position} {bytes : Bytes}, bytes.length ≤ fuel →
    p.sequence.toNat + bytes.length < 2 ^ 64 →
    ∀ x ∈ (segment N L fuel p bytes).1, x.position.sequence.toNat + 1 < 2 ^ 64 := by
  intro fuel
  induction fuel using Nat.strong_induction_on with
  | _ fuel ih =>
    intro p bytes hfuel hcount x hx
    obtain ⟨sequence, body, digest, consumed, fuel', hseq, hd, hlt, hfuel', hsegment⟩ |
        ⟨hsegment, hd⟩ := @segment_cases N L p bytes fuel hfuel
    · have hle := complete_le hd
      have hover : 2 ≤ frameOverhead := by decide
      have hsn : (p.behind sequence consumed digest).sequence.toNat = p.sequence.toNat + 1 :=
        checkedAdd_eq_some.1 hseq
      have hlen : (bytes.drop consumed).length = bytes.length - consumed := length_drop
      rw [hsegment] at hx
      rcases mem_cons.1 hx with rfl | hx
      · show (p.behind sequence consumed digest).sequence.toNat + 1 < 2 ^ 64
        omega
      · exact ih fuel' hlt hfuel' (by omega) x hx
    · rw [hsegment] at hx
      cases hx

/-- **The records up to the boundary are skipped in one call.** Either the boundary is the end of
one of them, and the call goes on behind it, or the call is an error. -/
theorem nextLoop_skip : ∀ {fuel : ℕ} {p : Position} {bytes : Bytes} {v : RecoveryReader} {rounds : ℕ},
    On L b false p bytes v → p.sequence.toNat < b.sequence.toNat → bytes.length ≤ fuel →
    p.offset.toNat + bytes.length < 2 ^ 64 → p.sequence.toNat + bytes.length < 2 ^ 64 →
    bytes.length < rounds →
    ((∃ x ∈ (segment N L fuel p bytes).1, x.position = b) ∧
      ∃ rounds' w fuel' bytes', nextLoop N rounds v = nextLoop N (rounds' + 1) w ∧
        On L b true b bytes' w ∧ w.selected = v.selected ∧ bytes'.length ≤ fuel' ∧
        b.offset.toNat + bytes'.length < 2 ^ 64 ∧ b.sequence.toNat + bytes'.length < 2 ^ 64 ∧
        (segment N L fuel p bytes).2 = (segment N L fuel' b bytes').2 ∧
        bodiesBehind b (segment N L fuel p bytes).1 =
          (segment N L fuel' b bytes').1.map Record.body) ∨
    ((¬ ∃ x ∈ (segment N L fuel p bytes).1, x.position = b) ∧
      ∃ w e, nextLoop N rounds v = (w, .error e)) := by
  intro fuel
  induction fuel using Nat.strong_induction_on with
  | _ fuel ih =>
    intro p bytes v rounds hv hpb hfuel hoff hcount hrounds
    obtain ⟨rounds, rfl⟩ : ∃ n, rounds = n + 1 := ⟨rounds - 1, by omega⟩
    obtain ⟨sequence, body, digest, consumed, fuel', hseq, hd, hlt, hfuel', hsegment⟩ |
        ⟨hsegment, hd⟩ := @segment_cases N L p bytes fuel hfuel
    · have hle := complete_le hd
      have hover : 2 ≤ frameOverhead := by decide
      have hsn := checkedAdd_eq_some.1 hseq
      have hlen : (bytes.drop consumed).length = bytes.length - consumed := length_drop
      obtain ⟨r', hnext, hat⟩ := (nextBody_complete hv.reader hseq hd (by omega)).1 (by omega)
      set q := p.behind sequence consumed digest with hq
      have hqs : q.sequence.toNat = p.sequence.toNat + 1 := hsn
      have hcovered : r'.position.sequence ≤ v.snapshot.boundary.sequence := by
        rw [hat.position, hv.boundary, UInt64.le_iff_toNat_le]
        omega
      rw [nextLoop, hnext, hsegment]
      simp only [if_pos hcovered]
      rw [hat.position, hv.boundary]
      have hbehind : ∀ x ∈ (segment N L fuel' q (bytes.drop consumed)).1,
          q.sequence.toNat < x.position.sequence.toNat := fun x hx => segment_sequence hx
      by_cases hsame : q.sequence = b.sequence
      · rw [if_pos hsame]
        by_cases hqb : q = b
        · -- the record the snapshot ends at
          rw [if_neg (not_not.2 hqb)]
          refine .inl ⟨⟨_, mem_cons_self, hqb⟩, rounds - 1,
            { v with reader := r', prefixRecords := v.prefixRecords + 1, boundarySeen := true },
            fuel', bytes.drop consumed, ?_, ⟨hqb ▸ hat, hv.boundary, rfl, hv.complete, hv.failed⟩, rfl, hfuel', ?_, ?_, ?_, ?_⟩
          · congr 1
            omega
          · rw [← hqb]
            exact behind_offset hoff hle.2
          · rw [← hqb]
            omega
          · rw [hqb]
          · rw [← hqb, ← bodiesBehind_all hbehind]
            simp [bodiesBehind]
        · -- a record with the boundary's number and another end
          rw [if_pos hqb]
          refine .inr ⟨?_, _, _, rfl⟩
          intro h
          obtain ⟨x, hx, hxb⟩ := h
          rcases mem_cons.1 hx with rfl | hx
          · exact hqb hxb
          · have := hbehind x hx
            rw [hxb, hsame] at this
            omega
      · rw [if_neg hsame]
        have hne : q.sequence.toNat ≠ b.sequence.toNat := fun h => hsame (UInt64.toNat_inj.1 h)
        have hskip : ¬ b.sequence < q.sequence := by
          rw [UInt64.lt_iff_toNat_lt]
          omega
        have hbodies : bodiesBehind b (⟨body, q⟩ :: (segment N L fuel' q (bytes.drop consumed)).1) =
            bodiesBehind b (segment N L fuel' q (bytes.drop consumed)).1 := by
          simp [bodiesBehind, hskip]
        have hmem : (∃ x ∈ Record.mk body q :: (segment N L fuel' q (bytes.drop consumed)).1,
            x.position = b) ↔ ∃ x ∈ (segment N L fuel' q (bytes.drop consumed)).1,
            x.position = b := by
          have hqb : q ≠ b := fun h => hsame (by rw [h])
          simp [hqb]
        rw [hbodies, hmem]
        exact ih fuel' hlt ⟨hat, hv.boundary, hv.boundarySeen, hv.complete, hv.failed⟩ (by omega)
          hfuel' (behind_offset hoff hle.2) (by omega) (by omega)
    · -- the segment ends before the boundary
      rw [hsegment, nextLoop]
      refine .inr ⟨by simp, ?_⟩
      obtain ⟨r', e, -, hnext⟩ | ⟨r', hnext, -⟩ := nextBody_stop hv.reader hd
      · rw [hnext]
        exact ⟨_, _, rfl⟩
      · rw [hnext]
        simp only [finishSegment, hv.boundarySeen]
        split
        · exact ⟨_, _, rfl⟩
        · exact ⟨_, _, rfl⟩

theorem nextLoop_rounds (hv : On L b true p bytes v) (hbp : b.sequence.toNat ≤ p.sequence.toNat)
    (hoff : p.offset.toNat + bytes.length < 2 ^ 64) (m n : ℕ) :
    nextLoop N (m + 1) v = nextLoop N (n + 1) v := by
  rw [nextLoop, nextLoop]
  rcases hnext : v.reader.nextBody N with ⟨r', e | _ | body⟩
  · rfl
  · rfl
  have hbehind : ¬ r'.position.sequence ≤ v.snapshot.boundary.sequence := by
    obtain ⟨sequence, body', digest, consumed, -, hseq, hd, -⟩ | ⟨-, hd⟩ :=
      @segment_cases N L p bytes bytes.length (le_refl _)
    · have hle := (complete_le hd).2
      obtain ⟨hok, herr⟩ := nextBody_complete hv.reader hseq hd (by omega)
      have hsn := checkedAdd_eq_some.1 hseq
      rcases Nat.lt_or_ge (sequence.toNat + 1) (2 ^ 64) with hlast | hlast
      · obtain ⟨r1, hr1, hat⟩ := hok hlast
        rw [hnext] at hr1
        obtain rfl : r' = r1 := congrArg Prod.fst hr1
        rw [hat.position, hv.boundary, UInt64.le_iff_toNat_le]
        show ¬ sequence.toNat ≤ b.sequence.toNat
        omega
      · obtain ⟨r1, e, hr1⟩ := herr hlast
        rw [hnext] at hr1
        cases hr1
    · obtain ⟨r1, e, -, hr1⟩ | ⟨r1, hr1, -⟩ := nextBody_stop hv.reader hd
      · rw [hnext] at hr1
        cases hr1
      · rw [hnext] at hr1
        cases hr1
  simp only [if_neg hbehind]

theorem answers_congr {w : RecoveryReader} {bodies : List Bytes} {failure : Option StreamError}
    (h : nextBody N v = nextBody N w) (hv : v.complete = false) (hw : w.complete = false) :
    Answers N v bodies failure ↔ Answers N w bodies failure := by
  refine forall_congr' fun n => ?_
  cases n with
  | zero => simp [reads, finish_iff, hv, hw]
  | succ n => rw [reads, reads, h]

/-! ## From the selected root -/

theorem data_lineage {m : DataManifest} (h : m.validate = .ok ()) :
    m.snapshot.boundary.segment = m.segment ∧ (m.snapshot.boundary.sequence = 0 →
        m.snapshot.boundary.offset = 0 ∧ m.snapshot.boundary.digest = m.origin) := by
  unfold DataManifest.validate at h
  split at h
  · cases h
  dsimp only at h
  split at h
  · cases h
  rename_i hl
  push Not at hl
  obtain ⟨-, -, -, -, hsegment, -, -, -, hzero, horigin, -⟩ := hl
  exact ⟨hsegment, fun hs => ⟨hzero.1 hs, horigin hs⟩⟩

/-- Where the boundary of a decoded root can lie: before a rotated segment, whose base carries
its number, or in the store's first segment. -/
theorem decodeRoot_boundary {root : Bytes} {selector : CurrentSelector}
    {expected : CompatibilityIdentity} {s : Selected} {c : SnapshotDescriptor}
    (h : decodeRoot N root selector expected = .ok s) (hc : s.checkpoint = some c) :
    s.context.sequence ≠ 0 ∧ ((s.rotation.map (·.previous.sealedEnd) = some c.boundary ∧
        c.boundary.sequence = s.base.sequence) ∨
       (s.rotation = none ∧ s.base.sequence = 0 ∧
        (c.boundary.sequence = 0 → c.boundary = s.base))) := by
  unfold decodeRoot DataManifest.decodeSelected RotatingManifest.decodeSelected at h
  split at h
  · split at h
    · cases h
    rename_i m hm
    cases h
    obtain rfl : m.snapshot = c := Option.some.inj hc
    obtain ⟨hsegment, hzero⟩ := data_lineage (checked_ok (checked_ok hm).1).2
    refine ⟨by show (1 : UInt64) ≠ 0; decide, .inr ⟨rfl, by show (1 : UInt64) - 1 = 0; decide, ?_⟩⟩
    intro hs
    obtain ⟨hoffset, hdigest⟩ := hzero hs
    simp only [Selected.base, Context.base, DataManifest.select, UInt64.sub_self]
    rcases hb : m.snapshot.boundary with ⟨store, epoch, first, sequence, offset, digest⟩
    rw [hb] at hsegment hs hoffset hdigest
    simp only at hsegment hs hoffset hdigest
    rw [hsegment, hs, hoffset, hdigest]
  split at h
  · split at h
    · cases h
    rename_i m hm
    cases h
    obtain rfl : m.snapshot = c := Option.some.inj hc
    obtain ⟨hw, -, -⟩ := rotating_lineage (checked_ok (checked_ok hm).1).2
    obtain ⟨-, -, -, -, -, -, -, -, -, -, -, -, -, -, hsequence, hmax, -, -, -, -, hsealed, -⟩ := hw
    have hback : (m.select selector).base.sequence = m.rotation.base.sequence := by
      show m.rotation.base.sequence + 1 - 1 = m.rotation.base.sequence
      rw [UInt64.add_sub_cancel]
    refine ⟨?_, .inl ⟨congrArg some hsealed, by rw [hback, hsequence]⟩⟩
    show m.rotation.base.sequence + 1 ≠ 0
    intro hzero
    apply hmax
    rw [← UInt64.add_sub_cancel m.rotation.base.sequence 1, hzero]
    decide
  · split at h
    · cases h
    rename_i m hm
    cases h
    cases hc

theorem openIn_on {d : Dir} {expected : CompatibilityIdentity}
    (h : openIn N d expected L = .ok v) :
    ∃ root file, decodeRoot N root v.selected.selector expected = .ok v.selected ∧
      v.selected.checkpoint = some v.snapshot ∧ d.openRead v.selected.logFile = .ok file ∧
      On L v.snapshot.boundary
        (decide (v.snapshot.boundary = v.selected.base) || v.selected.rotation.isSome)
        v.selected.base file v := by
  unfold openIn at h
  split at h
  · cases h
  split at h
  · cases h
  rename_i r s hopen
  unfold fromReader at h
  split at h
  · cases h
  rename_i c hc
  unfold openReader at hopen
  split at hopen
  · cases hopen
  rename_i hL
  split at hopen
  · cases hopen
  split at hopen
  · cases hopen
  rename_i s' hsel
  split at hopen
  · rename_i file _ hfile _
    obtain ⟨-, -, -, selector, -, -, hroot⟩ := Prune.selectIn_ok.1 hsel
    obtain ⟨root, -, -, hdec⟩ := selectRoot_ok hroot
    have hag := decodeRoot_agrees hdec
    rcases hfrom : fromSelection file s'.context s'.logName L with e | r'
    · rw [hfrom] at hopen
      cases hopen
    rw [hfrom] at hopen
    obtain ⟨rfl, rfl⟩ : r' = r ∧ s' = s := by
      simpa [Except.map] using hopen
    obtain ⟨hctx, -⟩ := decodeRoot_boundary hdec hc
    obtain ⟨r1, hr1, hat⟩ := at_fromSelection file s'.logName
      (Nat.le_of_not_lt hL) hctx
    rw [hfrom] at hr1
    obtain rfl := Except.ok.inj hr1
    cases h
    refine ⟨root, file, by rw [hag.selector_eq]; exact hdec, hc, hfile, hat, rfl, ?_, rfl, rfl⟩
    rw [hat.position]
    rfl
  · cases hopen

theorem base_offset (s : Selected) (hlen : bytes.length < 2 ^ 64) :
    s.base.offset.toNat + bytes.length < 2 ^ 64 :=
  (Nat.zero_add _).trans_lt hlen

theorem delivers_from_base (hv : On L v.snapshot.boundary true v.selected.base bytes v)
    (hle : v.snapshot.boundary.sequence.toNat ≤ v.selected.base.sequence.toNat)
    (hmet : ∀ records, BoundaryMet v.selected v.snapshot.boundary records)
    (hlen : bytes.length < 2 ^ 64) :
    Delivers N v (segment N L bytes.length v.selected.base bytes).1
        (segment N L bytes.length v.selected.base bytes).2 ↔
      ∀ x ∈ (segment N L bytes.length v.selected.base bytes).1,
        x.position.sequence.toNat + 1 < 2 ^ 64 := by
  rw [← answers_behind_iff hv hle (le_refl _) (base_offset _ hlen)]
  unfold Delivers
  rw [if_pos (hmet _), bodiesBehind_all fun x hx => lt_of_le_of_lt hle (segment_sequence hx)]
  simp only [hmet, true_and]

theorem delivers_in_segment (hv : On L v.snapshot.boundary false v.selected.base bytes v)
    (hrotation : v.selected.rotation = none) (hzero : v.selected.base.sequence = 0)
    (hpos : 0 < v.snapshot.boundary.sequence.toNat) (hlen : bytes.length < 2 ^ 64) :
    Delivers N v (segment N L bytes.length v.selected.base bytes).1
      (segment N L bytes.length v.selected.base bytes).2 := by
  have hbase : v.selected.base.sequence.toNat = 0 := by
    rw [hzero]
    rfl
  have hne : v.snapshot.boundary ≠ v.selected.base := by
    intro h
    rw [h] at hpos
    omega
  have hmet : ∀ records, BoundaryMet v.selected v.snapshot.boundary records ↔
      ∃ x ∈ records, x.position = v.snapshot.boundary := by
    intro records
    simp [BoundaryMet, hrotation, hne]
  have hrest := hv.reader.rest_eq
  unfold Delivers
  simp only [hmet]
  obtain ⟨hmem, rounds', w, fuel', bytes', hloop, hon, -, hfuel', hoff', hcount', htail, hbodies⟩ |
      ⟨hmem, w, e, hloop⟩ := @nextLoop_skip N L _ _ _ _ _ (v.reader.rest.length + 2) hv (by omega)
        (le_refl _) (base_offset _ hlen) (by omega) (by rw [hrest]; omega)
  · -- the call goes on behind the boundary
    rw [nextLoop_rounds hon (le_refl _) hoff' rounds' (w.reader.rest.length + 1)] at hloop
    have hnext : nextBody N v = nextBody N w := by
      unfold nextBody nextChecked
      rw [if_neg (by rw [hv.failed]; decide), if_neg (by rw [hv.complete]; decide),
        if_neg (by rw [hon.failed]; decide), if_neg (by rw [hon.complete]; decide), hloop]
    obtain ⟨failure, hfailure, ha⟩ := (answers_behind_iff hon (le_refl _) hfuel' hoff').2
      (segment_count hfuel' hcount')
    refine ⟨failure, ?_, ?_⟩
    · rw [hfailure, htail, and_iff_right hmem]
    · rw [if_pos hmem, hbodies, answers_congr hnext hv.complete hon.complete]
      exact ha
  · obtain ⟨w', hnext, hfailed⟩ := nextBody_error hv hloop
    refine ⟨some e, by simp [hmem], ?_⟩
    rw [if_neg hmem]
    exact answers_error hnext hv.complete hfailed

end RecoveryReader

open RecoveryReader in
/-- **Recovery returns the suffix behind the snapshot.** For every directory, selected root and
content of its segment: the records up to the boundary are consumed, the bodies behind it are
returned in order, and the recovery finishes exactly when the segment is whole and the boundary
was met; otherwise one error is the last answer. This holds exactly when no record of the segment
is numbered `u64::MAX`. -/
theorem recovery_suffix_iff {d : Dir} {expected : CompatibilityIdentity} {v : RecoveryReader}
    {file : Bytes} (hopen : openIn N d expected L = .ok v)
    (hfile : d.openRead v.selected.logFile = .ok file) (hlen : file.length < 2 ^ 64) :
    Delivers N v (segment N L file.length v.selected.base file).1
        (segment N L file.length v.selected.base file).2 ↔
      ∀ x ∈ (segment N L file.length v.selected.base file).1,
        x.position.sequence ≠ 0xffffffffffffffff := by
  obtain ⟨root, file', hdec, hc, hfile', hon⟩ := openIn_on hopen
  obtain rfl : file' = file := by
    rw [hfile] at hfile'
    exact (Except.ok.inj hfile').symm
  have hmax : ∀ x : Record, x.position.sequence ≠ 0xffffffffffffffff ↔
      x.position.sequence.toNat + 1 < 2 ^ 64 := by
    intro x
    have hlt := x.position.sequence.toNat_lt
    rw [Ne, ← UInt64.toNat_inj]
    show ¬ x.position.sequence.toNat = 18446744073709551615 ↔ _
    omega
  simp only [hmax]
  obtain ⟨-, ⟨hrotation, hsequence⟩ | ⟨hrotation, hzero, hbase⟩⟩ := decodeRoot_boundary hdec hc
  · have hsome : v.selected.rotation.isSome = true := by rw [← Option.isSome_map, hrotation]; rfl
    rw [hsome, Bool.or_true] at hon
    exact delivers_from_base hon (by rw [hsequence]) (fun _ => .inl hrotation) hlen
  · by_cases hb : v.snapshot.boundary = v.selected.base
    · rw [decide_eq_true hb, Bool.true_or] at hon
      exact delivers_from_base hon (by rw [hb]) (fun _ => .inr (.inl hb)) hlen
    · rw [decide_eq_false hb, hrotation] at hon
      have hpos : 0 < v.snapshot.boundary.sequence.toNat := by
        have hne : v.snapshot.boundary.sequence ≠ 0 := fun h => hb (hbase h)
        have hne' : v.snapshot.boundary.sequence.toNat ≠ 0 := fun h =>
          hne (UInt64.toNat_inj.1 (by simpa using h))
        omega
      have hbase' : v.selected.base.sequence.toNat = 0 := by
        rw [hzero]
        rfl
      exact iff_of_true (delivers_in_segment hon hrotation hzero hpos hlen)
        (segment_count (le_refl _) (by omega))

/-! ## Two rotated roots -/

namespace Sample

variable (sequence : UInt64)

/-- The end of the old segment, which the snapshot covers up to record `sequence`. -/
def rotatedBoundary : Position :=
  ⟨storeId, 1, digest 1, sequence, 402, digest 9⟩

def rotatedBase : Position :=
  ⟨storeId, 1, digest 2, sequence, 0, digest 2⟩

def rotatedManifest : RotatingManifest where
  metadata := ⟨storeId, 1, 3, (2, 0), identity, some ⟨2, digest 9⟩⟩
  snapshot := ⟨snapshotName 3, 210, digest 9, rotatedBoundary sequence, 5⟩
  rotation := {
    base := rotatedBase sequence
    snapshotBase := { rotatedBoundary sequence with sequence := sequence - 2, offset := 0, digest := digest 4 }
    previous := ⟨⟨storeId, 1, 2, manifestName 2, digest 9⟩, rotatedBoundary sequence⟩ }

def rotatedBytes : Bytes :=
  bytesOf (Control.encode native (Wire.rotatingManifest native) (rotatedManifest sequence) rotatingMagic)

def rotatedSelector : CurrentSelector :=
  .fromManifest (rotatedManifest sequence).metadata (native.hash (rotatedBytes sequence))

variable (bodies : List Bytes)

/-- The records of the new segment. -/
def rotatedFile : Bytes :=
  bytesOf (((LogicalWal.fresh (rotatedBase sequence) none).prepare native bodies .raw 16).map PreparedGroup.bytes)

def rotatedDir : Dir :=
  ((locked.insert .current (bytesOf ((rotatedSelector sequence).encode native))).insert (.manifest 3)
    (rotatedBytes sequence)).insert (.log (digest 2)) (rotatedFile sequence bodies)

/-- The reader that opens this directory. -/
def rotatedReader : RecoveryReader where
  reader := ⟨rotatedFile sequence bodies, (rotatedBase sequence).next (sequence + 1), 16, false, false, false,
    rotatedBase sequence, 0, logText (digest 2)⟩
  selected := (rotatedManifest sequence).select (rotatedSelector sequence)
  snapshot := (rotatedManifest sequence).snapshot
  boundarySeen := true
  complete := false
  failed := false
  prefixRecords := 0
  suffixRecords := 0

def rotatedRecords : List Record × Bytes :=
  segment native 16 (rotatedFile sequence bodies).length (rotatedReader sequence bodies).selected.base
    (rotatedFile sequence bodies)

end Sample

open Sample RecoveryReader in
/-- Records 6 and 7 behind a snapshot that ends at record 5: they are returned, and the recovery
finishes. -/
theorem recovery_suffix_rotated :
    openIn native (rotatedDir 5 [[7], [8]]) identity 16 = .ok (rotatedReader 5 [[7], [8]]) ∧
      (rotatedRecords 5 [[7], [8]]).1.map Record.body = [[7], [8]] ∧
      Delivers native (rotatedReader 5 [[7], [8]]) (rotatedRecords 5 [[7], [8]]).1 [] := by
  have hopen : openIn native (rotatedDir 5 [[7], [8]]) identity 16 = .ok (rotatedReader 5 [[7], [8]]) := by
    decide +kernel
  obtain ⟨hfile, hlen, hbodies, hrest, hmax⟩ :
      (rotatedDir 5 [[7], [8]]).openRead (rotatedReader 5 [[7], [8]]).selected.logFile =
          .ok (rotatedFile 5 [[7], [8]]) ∧
        (rotatedFile 5 [[7], [8]]).length < 2 ^ 64 ∧
        (rotatedRecords 5 [[7], [8]]).1.map Record.body = [[7], [8]] ∧ (rotatedRecords 5 [[7], [8]]).2 = [] ∧
        ∀ x ∈ (rotatedRecords 5 [[7], [8]]).1, x.position.sequence ≠ 0xffffffffffffffff := by
    decide +kernel
  have h := recovery_suffix_iff hopen hfile hlen
  rw [← rotatedRecords, hrest] at h
  exact ⟨hopen, hbodies, h.2 hmax⟩

open Sample RecoveryReader in
/-- **A record that recovery verifies and does not return**: the one numbered `u64::MAX`, behind a
snapshot that ends at record `u64::MAX - 1`. -/
theorem recovery_suffix_lost :
    openIn native (rotatedDir 0xfffffffffffffffe [[7]]) identity 16 =
        .ok (rotatedReader 0xfffffffffffffffe [[7]]) ∧
      (rotatedRecords 0xfffffffffffffffe [[7]]).1.map (fun x => (x.body, x.position.sequence)) =
        [([7], 0xffffffffffffffff)] ∧ (rotatedRecords 0xfffffffffffffffe [[7]]).2 = [] ∧
      (reads native 1 (rotatedReader 0xfffffffffffffffe [[7]])).1 =
        [.error (.artifact (logText (digest 2)) (some 0) (some 0xffffffffffffffff)
          (.protocol "sequence exhausted"))] ∧
      ¬ Delivers native (rotatedReader 0xfffffffffffffffe [[7]])
        (rotatedRecords 0xfffffffffffffffe [[7]]).1 [] := by
  have hreads : (reads native 1 (rotatedReader 0xfffffffffffffffe [[7]])).1 =
      [.error (.artifact (logText (digest 2)) (some 0) (some 0xffffffffffffffff)
        (.protocol "sequence exhausted"))] := by decide +kernel
  have hbodies : bodiesBehind (rotatedReader 0xfffffffffffffffe [[7]]).snapshot.boundary
      (rotatedRecords 0xfffffffffffffffe [[7]]).1 = [[7]] := by decide +kernel
  refine ⟨by decide +kernel, by decide +kernel, by decide +kernel, hreads, ?_⟩
  intro h
  obtain ⟨failure, -, ha⟩ := h
  have hfirst := (ha 1).1
  rw [if_pos (.inl rfl), hreads, hbodies] at hfirst
  cases hfirst

end Selene.Persist
