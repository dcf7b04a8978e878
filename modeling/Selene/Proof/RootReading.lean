import Selene.Proof.PruneSafety
import Selene.Proof.CrashPrefix

/-!
# Reading an intact root

`Holds N s content bodies frames`: the segment of root `s` is the frames of `bodies` from
its base, and it has not reached the last sequence number. `SnapshotHolds`: the
snapshot file is the encoding of an image under the root's descriptor. From these two
everything that reads a root follows: `verify` accepts it (`verify_intact`) and a reopen
returns the image and the bodies behind the boundary (`reopen_intact`).
-/

namespace Selene.Persist

open Octets Disk LogicalReader List

variable {N : Native} {d : Dir} {s : Selected}

namespace Snapshot

@[simp] theorem length_magic : magic.length = 8 := rfl
@[simp] theorem length_endMark : endMark.length = 8 := rfl

variable {body bytes : Bytes} {c : SnapshotContext} {limit : ℕ}

@[simp] theorem length_fields (n : ℕ) : (fields n c).length = 136 := by simp [fields]

theorem length_content : (content N body c).length = body.length + 176 := by
  simp [content]; omega

section

variable (h : encode N body c limit = .ok bytes)
include h

theorem encode_spec : validateContext c = .ok () ∧ limit ≤ defaultLimit ∧ body.length ≤ limit ∧
      bytes = content N body c ++ (N.hash (content N body c)).val := by
  unfold encode at h
  split at h
  · cases h
  rename_i hl
  push Not at hl
  split at h
  · cases h
  rename_i hv
  cases h
  exact ⟨hv, hl.1, hl.2, rfl⟩

theorem encode_length : bytes.length = body.length + overhead := by
  obtain ⟨-, -, -, rfl⟩ := encode_spec h
  rw [length_append, length_content]
  simp [overhead, headerLen]

theorem encode_tailDigest : tailDigest bytes = N.hash (content N body c) := by
  obtain ⟨-, -, -, rfl⟩ := encode_spec h
  have hdrop : (content N body c ++ (N.hash (content N body c)).val).drop
      ((content N body c ++ (N.hash (content N body c)).val).length - 32) = (N.hash (content N body c)).val := by
    rw [length_append, Frame.length_digest, Nat.add_sub_cancel, drop_left]
  unfold tailDigest
  rw [dif_pos (by rw [hdrop]; simp)]
  exact Subtype.ext hdrop

omit h in
theorem slice_fields (n : ℕ) :
    slice (fields n c) 0 8 = magic ∧ slice (fields n c) 8 4 = leBytes 4 2 ∧ slice (fields n c) 12 4 = leBytes 4 0 ∧
      slice (fields n c) 16 8 = leBytes 8 n ∧ slice (fields n c) 24 8 = leBytes 8 c.publication.toNat ∧
      slice (fields n c) 32 16 = c.boundary.store.bytes.val ∧
      slice (fields n c) 48 8 = leBytes 8 c.boundary.epoch.toNat ∧
      slice (fields n c) 56 32 = c.boundary.segment.val ∧
      slice (fields n c) 88 8 = leBytes 8 c.boundary.sequence.toNat ∧
      slice (fields n c) 96 8 = leBytes 8 c.boundary.offset.toNat ∧
      slice (fields n c) 104 32 = c.boundary.digest.val := by
  refine ⟨rfl, rfl, rfl, ?_, ?_, ?_, ?_, ?_, ?_, ?_, ?_⟩ <;> unfold fields <;>
    simp (disch := first | decide | simp) only [slice_skip, slice_front, slice_all, length_magic, length_leBytes,
      Frame.length_storeId, Frame.length_digest, Nat.reduceSub]

theorem take_header :
    bytes.take headerLen = fields body.length c ++ (N.hash (fields body.length c)).val := by
  obtain ⟨-, -, -, rfl⟩ := encode_spec h
  have hl : (fields body.length c ++ (N.hash (fields body.length c)).val).length = headerLen := by
    simp [headerLen]
  unfold content
  rw [← append_assoc (fields _ _), append_assoc (fields _ _ ++ _), ← hl, take_left]

omit h in
theorem number_eq {h : Bytes} {off n : ℕ} (hs : slice h off 8 = leBytes 8 n) (hn : n < 2 ^ 64) :
    number h off = n := by
  unfold number; rw [hs]; exact leNat_leBytes (by norm_num at hn ⊢; exact hn)

section

variable {limit' : ℕ} (hl : limit ≤ limit') (hl' : limit' ≤ defaultLimit)
  (hv4 : c.boundary.store.isV4 = true) (he : c.boundary.epoch ≠ 0)
include hl hl' hv4 he

theorem requiredLength_encode
    (input : Bytes) (hin : input.take headerLen = bytes.take headerLen) (hlen : headerLen ≤ input.length) :
    requiredLength N input c limit' = .ok bytes.length := by
  obtain ⟨hval, -, hbody, -⟩ := encode_spec h
  have hhead := hin.trans (take_header h)
  obtain ⟨hm, hver, hres, hn, hpub, hstore, hepoch, hseg, hseq, hoff, hdig⟩ := @slice_fields c body.length
  set header := fields body.length c ++ (N.hash (fields body.length c)).val with hheader
  have hs : ∀ {off len}, off + len ≤ 136 → slice header off len = slice (fields body.length c) off len :=
    fun hle => slice_append _ _ (by simpa using hle)
  have hmax : defaultLimit < 2 ^ 64 := by decide
  have hhash : header.take 136 = fields body.length c := by
    rw [hheader, ← length_fields (c := c) body.length, take_left]
  have hslice : slice header 136 32 = (N.hash (fields body.length c)).val := by
    rw [hheader, slice_skip _ _ (by simp)]
    simpa using slice_all _ (Frame.length_digest _)
  -- the fields at their offsets, as the encoder wrote them
  have hE : number header 48 = c.boundary.epoch.toNat :=
    number_eq (by rw [hs (by decide)]; exact hepoch) c.boundary.epoch.toNat_lt
  have hL : number header 16 = body.length :=
    number_eq (by rw [hs (by decide)]; exact hn) (by omega)
  have hP : number header 24 = c.publication.toNat :=
    number_eq (by rw [hs (by decide)]; exact hpub) c.publication.toNat_lt
  have hS : number header 88 = c.boundary.sequence.toNat :=
    number_eq (by rw [hs (by decide)]; exact hseq) c.boundary.sequence.toNat_lt
  have hO : number header 96 = c.boundary.offset.toNat :=
    number_eq (by rw [hs (by decide)]; exact hoff) c.boundary.offset.toNat_lt
  have hst : storeAt header = .ok c.boundary.store := by
    unfold storeAt
    have hval : slice header 32 16 = c.boundary.store.bytes.val := by rw [hs (by decide)]; exact hstore
    rw [dif_pos (by rw [hval]; exact c.boundary.store.bytes.property)]
    have hid : (⟨⟨slice header 32 16, by rw [hval]; exact c.boundary.store.bytes.property⟩⟩ : StoreId) =
        c.boundary.store := congrArg StoreId.mk (Subtype.ext hval)
    simp only [hid, hv4, if_true]
  have he' : c.boundary.epoch.toNat ≠ 0 := fun h0 => he (UInt64.toNat_inj.1 (by simpa using h0))
  unfold requiredLength
  rw [hval]
  simp only [hhead, hst, hE, hL, hP, hS, hO, hhash, hslice]
  rw [hs (by decide), hs (by decide), hs (by decide), hs (by decide), hs (by decide), hm, hver, hres, hseg, hdig]
  have hle : ¬ limit' < body.length := by omega
  have h2 : leNat (leBytes 4 2) = 2 := by decide
  have h0 : leNat (leBytes 4 0) = 0 := by decide
  rw [if_neg (by omega), if_neg (by omega)]
  simp only [ne_eq, not_true_eq_false, if_false, h2, h0, hle, he', or_self]
  rw [encode_length h]

theorem decode_encode :
    decode N bytes c (tailDigest bytes) limit' = .ok body := by
  have hlen := encode_length h
  have hreq := requiredLength_encode h hl hl' hv4 he bytes rfl (by rw [hlen]; simp [overhead, headerLen])
  have hdig := encode_tailDigest h
  obtain ⟨-, -, -, hbytes⟩ := encode_spec h
  have hc := @length_content N body c
  have hn : bytes.length - 32 = (content N body c).length := by rw [hlen, hc]; simp [overhead, headerLen]
  have htake : bytes.take (bytes.length - 32) = content N body c := by rw [hn, hbytes, take_left]
  have hdrop : bytes.drop (bytes.length - 32) = (N.hash (content N body c)).val := by
    rw [hn, hbytes, drop_left]
  -- the parts of the content: 168 header bytes, the image, 8 bytes of end mark
  have hend : slice bytes (bytes.length - 40) 8 = endMark := by
    rw [hlen, hbytes, slice_append _ _ (by rw [hc]; simp [overhead, headerLen])]
    unfold content
    have : body.length + overhead - 40 = body.length + 168 := by simp [overhead, headerLen]
    rw [this, slice_skip _ _ (by simp), slice_skip _ _ (by simp), slice_skip _ _ (by simp)]
    simpa using slice_all _ length_endMark
  have hbody : slice bytes headerLen (bytes.length - 40 - headerLen) = body := by
    rw [hlen, hbytes, slice_append _ _ (by rw [hc]; simp [overhead, headerLen]; omega)]
    unfold content
    have : body.length + overhead - 40 - headerLen = body.length := by simp [overhead, headerLen]
    rw [this, slice_skip _ _ (by simp [headerLen]), slice_skip _ _ (by simp [headerLen])]
    simp only [headerLen, length_fields, Frame.length_digest, Nat.reduceSub]
    exact slice_front _ _ rfl
  unfold decode
  rw [hreq, hdig]
  simp only [lt_irrefl, if_false, hend, hdrop, htake, hbody, ne_eq, not_true_eq_false, or_self]

end

end

end Snapshot

/-! ## Segments -/

variable {L : ℕ} {p b : Position} {bodies : List Bytes} {frames : Frames} {r : LogicalReader}

section

variable (h : Framed N L p bodies frames)
include h

theorem Framed.length_le : frames.length ≤ (frames.map Prod.fst).flatten.length := by
  induction h with
  | nil => simp
  | @cons _ _ _ _ bytes _ _ _ _ _ henc _ _ _ ih =>
    obtain ⟨_, _, hE⟩ := Frame.encode_spec henc
    have : bytes.length = _ + 200 := hE.length
    simp only [map_cons, flatten_cons, length_cons, length_append]
    omega

theorem Framed.split : ∀ k, Framed N L p (bodies.take k) (frames.take k) ∧
    Framed N L (endPosition p (frames.take k)) (bodies.drop k) (frames.drop k) := by
  induction h with
  | nil p => intro k; simpa [endPosition] using Framed.nil p
  | cons hseq henc hlim hq rest ih =>
    intro k
    cases k with
    | zero => exact ⟨.nil _, .cons hseq henc hlim hq rest⟩
    | succ k =>
      obtain ⟨h₁, h₂⟩ := ih k
      refine ⟨.cons hseq henc hlim hq h₁, ?_⟩
      rw [take_succ_cons, endPosition_cons]
      exact h₂

theorem Framed.end_offset :
    (endPosition p frames).offset.toNat = p.offset.toNat + (frames.map Prod.fst).flatten.length := by
  induction h with
  | nil => rfl
  | cons _ _ _ hq _ ih =>
    rw [endPosition_cons, ih, LogicalWal.after_offset hq, map_cons, flatten_cons, length_append,
      Nat.add_assoc]

end

namespace LogicalReader

theorem reads_add (m m' : ℕ) (r : LogicalReader) : reads N (m + m') r =
    ((reads N m r).1 ++ (reads N m' (reads N m r).2).1, (reads N m' (reads N m r).2).2) := by
  induction m generalizing r with
  | zero => rw [Nat.zero_add]; rfl
  | succ m ih => rw [Nat.succ_add, reads, ih]; rfl

theorem at_fromSelection (file : Bytes) {ctx : Context} (name : String) (hL : L ≤ Frame.maxPayload)
    (hctx : ctx.sequence ≠ 0) : ∃ r, fromSelection file ctx name L = .ok r ∧ At L ctx.base file r := by
  have hlt : ctx.base.sequence.toNat + 1 < 2 ^ 64 := by
    have h1 : (1 : UInt64) ≤ ctx.sequence := by
      rw [UInt64.le_iff_toNat_le]
      have : ctx.sequence.toNat ≠ 0 := fun h => hctx (UInt64.toNat_inj.1 (by simpa using h))
      simp; omega
    have hb : ctx.base.sequence = ctx.sequence - 1 := rfl
    have := ctx.sequence.toNat_lt
    rw [hb, UInt64.toNat_sub_of_le _ _ h1]
    rw [UInt64.le_iff_toNat_le] at h1
    simp at h1 ⊢
    omega
  exact ⟨_, if_neg (by omega), rfl, Context.sequence_of_base hlt, rfl, rfl, rfl, rfl, rfl, rfl⟩

end LogicalReader

/-- A whole segment is read to its end, and the boundary is seen where it stands. -/
theorem scan_framed (hN : N.Lawful) (hL : L ≤ Frame.maxPayload) (snapshot : Option Position)
    (h : Framed N L p bodies frames) : ∀ {r : LogicalReader} {fuel : ℕ} {seen : Bool},
      LogicalReader.At L p (frames.map Prod.fst).flatten r → frames.length < fuel →
      (endPosition p frames).sequence.toNat + 1 < 2 ^ 64 →
      ∃ r', Prune.scan N snapshot fuel r seen = .ok (r', seen || frames.any fun f => decide (snapshot = some f.2)) ∧
        r'.incomplete = false ∧ r'.position = endPosition p frames := by
  induction h with
  | nil p =>
    intro r fuel seen hr hfuel _
    obtain ⟨fuel, rfl⟩ : ∃ n, fuel = n + 1 := ⟨fuel - 1, by simp at hfuel; omega⟩
    rw [Prune.scan, nextBody_end (by simpa using hr)]
    exact ⟨{ r with ended := true, rest := [] }, by simp, hr.incomplete, hr.position⟩
  | @cons p q sequence body bytes bodies frames compression limit hseq henc hlim hq rest ih =>
    intro r fuel seen hr hfuel hlast
    obtain ⟨fuel, rfl⟩ : ∃ n, fuel = n + 1 := ⟨fuel - 1, by omega⟩
    rw [map_cons, flatten_cons] at hr
    rw [endPosition_cons] at hlast
    have hle := rest.end_sequence
    obtain ⟨r1, hnext, hat⟩ := (nextBody_frame hN hL hr hseq henc hlim hq).1 (by omega)
    obtain ⟨r', hscan, hinc, hpos⟩ := @ih r1 fuel (seen || decide (snapshot = some q)) hat
      (by rw [length_cons] at hfuel; omega) hlast
    refine ⟨r', ?_, hinc, by rw [hpos, endPosition_cons]⟩
    rw [Prune.scan, hnext]
    simp only [hat.position, hscan, any_cons, Bool.or_assoc]

/-! ## Recovery behind a boundary -/

namespace RecoveryReader

variable {v : RecoveryReader}

/-- The reader stands at `p` with `rest` unread; `seen` says whether it is behind the boundary `b`. -/
structure On (L : ℕ) (b : Position) (seen : Bool) (p : Position) (rest : Bytes) (v : RecoveryReader) : Prop where
  reader : LogicalReader.At L p rest v.reader
  boundary : v.snapshot.boundary = b
  boundarySeen : v.boundarySeen = seen
  complete : v.complete = false
  failed : v.failed = false

theorem nextLoop_end (N : Native) (fuel : ℕ) (hv : On L b true p [] v) :
    ∃ v', nextLoop N (fuel + 1) v = (v', .ok none) ∧ v'.reader.position = p := by
  rw [nextLoop, nextBody_end hv.reader]
  simp only [finishSegment, hv.boundarySeen, hv.reader.incomplete]
  exact ⟨_, rfl, hv.reader.position⟩

theorem nextLoop_behind (fuel : ℕ) {q : Position} {body bytes rest : Bytes} {r' : LogicalReader}
    (hv : On L b true p bytes v) (hnext : v.reader.nextBody N = (r', .ok (some body)))
    (hat : LogicalReader.At L q rest r') (hlt : b.sequence.toNat < q.sequence.toNat) :
    ∃ v', nextLoop N (fuel + 1) v = (v', .ok (some body)) ∧ On L b true q rest v' := by
  rw [nextLoop, hnext]
  simp only [hat.position, hv.boundary, hv.boundarySeen]
  rw [if_neg (by rw [UInt64.le_iff_toNat_le]; omega), if_neg (by simp)]
  exact ⟨_, rfl, hat, hv.boundary, rfl, hv.complete, hv.failed⟩

theorem nextLoop_covered (hN : N.Lawful) (hL : L ≤ Frame.maxPayload) (h : Framed N L p bodies frames) :
    ∀ {v : RecoveryReader} {fuel : ℕ} {rest : Bytes},
      On L (endPosition p frames) false p ((frames.map Prod.fst).flatten ++ rest) v → frames ≠ [] →
      (endPosition p frames).sequence.toNat + 1 < 2 ^ 64 →
      ∃ v', nextLoop N (fuel + frames.length) v = nextLoop N fuel v' ∧
        On L (endPosition p frames) true (endPosition p frames) rest v' := by
  induction h with
  | nil p => intro v fuel rest _ hne; exact absurd rfl hne
  | @cons p q sequence body bytes bodies frames compression limit hseq henc hlim hq tail ih =>
    intro v fuel rest hv _ hlast
    rw [endPosition_cons] at hv hlast ⊢
    have hreader := hv.reader
    rw [map_cons, flatten_cons, append_assoc] at hreader
    have hle := tail.end_sequence
    obtain ⟨r1, hnext, hat⟩ := (nextBody_frame hN hL hreader hseq henc hlim hq).1 (by omega)
    rw [length_cons, ← Nat.add_assoc, nextLoop, hnext]
    simp only [hat.position, hv.boundary]
    rw [if_pos (UInt64.le_iff_toNat_le.2 (by omega))]
    cases frames with
    | nil =>
      -- this is the record the snapshot ends at
      have hend : endPosition q [] = q := rfl
      rw [hend, if_pos rfl, if_neg (not_not.2 rfl)]
      exact ⟨_, rfl, hat, hv.boundary, rfl, hv.complete, hv.failed⟩
    | cons f fs =>
      have hlen := tail.length
      rw [length_cons] at hlen
      rw [if_neg (fun h => by rw [← h] at hle; omega)]
      exact ih ⟨hat, hv.boundary, hv.boundarySeen, hv.complete, hv.failed⟩ (cons_ne_nil _ _) hlast

theorem nextBody_on {seen : Bool} {rest : Bytes} {v' : RecoveryReader} {body : Option Bytes}
    (hv : On L b seen p rest v) (h : nextLoop N (v.reader.rest.length + 2) v = (v', .ok body)) :
    nextBody N v = (v', .ok body) := by
  unfold nextBody nextChecked
  rw [if_neg (by rw [hv.failed]; decide), if_neg (by rw [hv.complete]; decide), h]

theorem drain_behind (hN : N.Lawful) (hL : L ≤ Frame.maxPayload) (h : Framed N L p bodies frames) :
    ∀ {v : RecoveryReader} {fuel : ℕ}, On L b true p (frames.map Prod.fst).flatten v →
      b.sequence.toNat ≤ p.sequence.toNat → frames.length < fuel →
      (endPosition p frames).sequence.toNat + 1 < 2 ^ 64 →
      ∃ v', drain N fuel v = .ok (v', bodies) ∧ v'.reader.position = endPosition p frames := by
  induction h with
  | nil p =>
    intro v fuel hv _ hfuel _
    obtain ⟨fuel, rfl⟩ : ∃ n, fuel = n + 1 := ⟨fuel - 1, by simp at hfuel; omega⟩
    obtain ⟨v', hloop, hpos⟩ := nextLoop_end N (v.reader.rest.length + 1) hv
    rw [drain, nextBody_on hv hloop]
    exact ⟨v', rfl, hpos⟩
  | @cons p q sequence body bytes bodies frames compression limit hseq henc hlim hq rest ih =>
    intro v fuel hv hb hfuel hlast
    obtain ⟨fuel, rfl⟩ : ∃ n, fuel = n + 1 := ⟨fuel - 1, by omega⟩
    rw [map_cons, flatten_cons] at hv
    rw [endPosition_cons] at hlast ⊢
    have hle := rest.end_sequence
    have hqs := after_sequence hq
    obtain ⟨r1, hnext, hat⟩ := (nextBody_frame hN hL hv.reader hseq henc hlim hq).1 (by omega)
    obtain ⟨v1, hloop, hv1⟩ := nextLoop_behind (v.reader.rest.length + 1) hv hnext hat (by omega)
    obtain ⟨v', hdrain, hpos⟩ := @ih v1 fuel hv1 (by omega) (by rw [length_cons] at hfuel; omega) hlast
    refine ⟨v', ?_, hpos⟩
    rw [drain, nextBody_on hv hloop]
    simp only [hdrain, Except.map]

theorem drain_covered (hN : N.Lawful) (hL : L ≤ Frame.maxPayload) {bodies' : List Bytes}
    {frames' : Frames} (h : Framed N L p bodies frames) (hne : frames ≠ [])
    (h' : Framed N L (endPosition p frames) bodies' frames') (fuel : ℕ)
    (hv : On L (endPosition p frames) false p ((frames.map Prod.fst).flatten ++ (frames'.map Prod.fst).flatten) v)
    (hfuel : frames'.length < fuel) (hlast : (endPosition p (frames ++ frames')).sequence.toNat + 1 < 2 ^ 64) :
    ∃ v', drain N fuel v = .ok (v', bodies') ∧ v'.reader.position = endPosition p (frames ++ frames') := by
  rw [(h.append h').2] at hlast ⊢
  obtain ⟨fuel, rfl⟩ : ∃ n, fuel = n + 1 := ⟨fuel - 1, by omega⟩
  have hlen : frames.length ≤ v.reader.rest.length := by
    rw [hv.reader.rest_eq, length_append]
    exact h.length_le.trans (Nat.le_add_right _ _)
  have hle := h'.end_sequence
  obtain ⟨n, hn⟩ : ∃ n, v.reader.rest.length + 2 = n + 1 + frames.length :=
    ⟨v.reader.rest.length + 1 - frames.length, by omega⟩
  obtain ⟨v1, hskip, hv1⟩ := @nextLoop_covered _ _ _ _ _ hN hL h v (n + 1) _ hv hne (by omega)
  rw [← hn] at hskip
  -- the call that skips goes on with the first record behind the boundary
  cases h' with
  | nil =>
    obtain ⟨v', hloop, hpos⟩ := nextLoop_end N n hv1
    rw [hloop] at hskip
    rw [drain, nextBody_on hv hskip]
    exact ⟨v', rfl, hpos⟩
  | @cons _ q sequence body bytes bodies' frames' compression limit hseq henc hlim hq rest =>
    rw [map_cons, flatten_cons] at hv1
    rw [endPosition_cons] at hlast ⊢
    have hqe := rest.end_sequence
    have hqs := after_sequence hq
    obtain ⟨r1, hnext, hat⟩ := (nextBody_frame hN hL hv1.reader hseq henc hlim hq).1 (by omega)
    obtain ⟨v2, hloop, hv2⟩ := nextLoop_behind n hv1 hnext hat (by omega)
    obtain ⟨v', hdrain, hpos⟩ := @drain_behind _ _ _ _ _ _ hN hL rest v2 fuel hv2 (by omega)
      (by rw [length_cons] at hfuel; omega) hlast
    rw [hloop] at hskip
    refine ⟨v', ?_, hpos⟩
    rw [drain, nextBody_on hv hskip]
    simp only [hdrain, Except.map]

/-- What a call of the recovery reader has read: `m` calls of the log reader, the last of which
gave its answer. A segment is only finished without a torn tail. -/
theorem nextLoop_reads : ∀ {fuel : ℕ} {v v' : RecoveryReader} {x : Option Bytes},
    nextLoop N fuel v = (v', .ok x) → v.complete = false →
      ∃ m, v'.reader = (LogicalReader.reads N m v.reader).2 ∧
        (LogicalReader.reads N m v.reader).1.getLast? = some (.ok x) ∧
        (x = none → v'.reader.incomplete = false) ∧ (x ≠ none → v'.complete = false) := by
  intro fuel
  induction fuel with
  | zero => intro v v' x h; cases h
  | succ fuel ih =>
    intro v v' x h hc
    have hone : (LogicalReader.reads N 1 v.reader) = ([(v.reader.nextBody N).2], (v.reader.nextBody N).1) := rfl
    rw [nextLoop] at h
    rcases hn : v.reader.nextBody N with ⟨r, e | _ | body⟩
    · rw [hn] at h; cases h
    · rw [hn] at h hone
      simp only [finishSegment] at h
      split at h
      · cases h
      rename_i hinc
      split at h
      · cases h
      · cases h
        exact ⟨1, by rw [hone], by rw [hone]; rfl, fun _ => by simpa using hinc, fun h => absurd rfl h⟩
    · -- one more record, and then what the recursion has read
      have hstep : ∀ {u : RecoveryReader}, u.reader = r → u.complete = false → nextLoop N fuel u = (v', .ok x) →
          ∃ m, v'.reader = (LogicalReader.reads N m v.reader).2 ∧
            (LogicalReader.reads N m v.reader).1.getLast? = some (.ok x) ∧
            (x = none → v'.reader.incomplete = false) ∧ (x ≠ none → v'.complete = false) := by
        intro u hu huc hloop
        obtain ⟨m, h₁, h₂, h3⟩ := ih hloop huc
        rw [hu] at h₁ h₂
        refine ⟨m + 1, by rw [LogicalReader.reads, hn]; exact h₁, ?_, h3⟩
        rw [LogicalReader.reads, hn]
        exact (getLast?_cons).trans (by rw [h₂]; rfl)
      rw [hn] at h hone
      simp only at h
      split at h
      · split at h
        · split at h
          · cases h
          · exact hstep (by rfl) (by exact hc) h
        · exact hstep (by rfl) (by exact hc) h
      split at h
      · cases h
      · cases h
        exact ⟨1, by rw [hone], by rw [hone]; rfl, fun h => (by cases h), fun _ => hc⟩

theorem drain_reads : ∀ {fuel : ℕ} {v v' : RecoveryReader} {bodies : List Bytes},
    drain N fuel v = .ok (v', bodies) → v.complete = false →
      ∃ m, v'.reader = (LogicalReader.reads N m v.reader).2 ∧
        (LogicalReader.reads N m v.reader).1.getLast? = some (.ok none) ∧ v'.reader.incomplete = false := by
  intro fuel
  induction fuel with
  | zero => intro v v' bodies h; cases h
  | succ fuel ih =>
    intro v v' bodies h hc
    rw [drain] at h
    have hnext : ∀ {u x}, nextBody N v = (u, .ok x) → nextLoop N (v.reader.rest.length + 2) v = (u, .ok x) := by
      intro u x hu
      unfold nextBody nextChecked at hu
      simp only [hc, Bool.false_eq_true, if_false] at hu
      split at hu
      · cases hu
      rcases hl : nextLoop N (v.reader.rest.length + 2) v with ⟨u', e | y⟩
      · rw [hl] at hu; cases hu
      · rw [hl] at hu; cases hu; rfl
    rcases hn : nextBody N v with ⟨u, e | _ | body⟩
    · rw [hn] at h; cases h
    · rw [hn] at h
      cases h
      obtain ⟨m, h₁, h₂, h3, -⟩ := nextLoop_reads (hnext hn) hc
      exact ⟨m, h₁, h₂, h3 rfl⟩
    · rw [hn] at h
      simp only at h
      obtain ⟨m, h₁, h₂, -, h4⟩ := nextLoop_reads (hnext hn) hc
      cases hd : drain N fuel u with
      | error e => rw [hd] at h; cases h
      | ok q =>
        rw [hd] at h
        cases h
        obtain ⟨m', h₁', h₂', h₃'⟩ := ih hd (h4 (by simp))
        refine ⟨m + m', ?_, ?_, h₃'⟩
        · rw [h₁', h₁, reads_add]
        · rw [reads_add, ← h₁, getLast?_append, h₂']
          rfl

end RecoveryReader

/-! ## Roots -/

/-- The bytes of the frames. -/
def segmentBytes (frames : Frames) : Bytes := (frames.map Prod.fst).flatten

/-- The segment of a root is the bodies' frames from its base, and none of them has the last
sequence number. -/
structure LogHolds (N : Native) (s : Selected) (bodies : List Bytes) (frames : Frames) : Prop where
  based : s.context.sequence ≠ 0
  framed : Framed N Frame.maxPayload s.base bodies frames
  below : (endPosition s.base frames).sequence.toNat + 1 < 2 ^ 64

/-- The snapshot file is the image's encoding under its descriptor. -/
structure SnapshotHolds (N : Native) (c : SnapshotDescriptor) (file image : Bytes) : Prop where
  encoded : Snapshot.encode N image ⟨c.boundary, c.publication⟩ defaultLimit = .ok file
  length_eq : c.bytes.toNat = file.length
  digest_eq : c.digest = tailDigest file
  version : c.boundary.store.isV4 = true
  epoch : c.boundary.epoch ≠ 0

/-- The snapshot ends behind `k` records of the segment; a rotated segment starts behind it. -/
def BoundaryAt (s : Selected) (c : SnapshotDescriptor) (frames : Frames) (k : ℕ) : Prop :=
  if s.rotation.isSome then c.boundary.sequence = s.base.sequence ∧ k = 0
  else k ≤ frames.length ∧ c.boundary = endPosition s.base (frames.take k)

theorem SnapshotHolds.body {c : SnapshotDescriptor} {file image : Bytes} (h : SnapshotHolds N c file image)
    (hc : s.checkpoint = some c) (hfile : d[s.snapshotFile]? = some file) :
    snapshotBody N d s defaultLimit = .ok image := by
  have hlen := Snapshot.encode_length h.encoded
  have hhead : Snapshot.headerLen ≤ file.length := by rw [hlen, Snapshot.overhead]; omega
  have hreq := Snapshot.requiredLength_encode h.encoded (le_refl _) (le_refl _) h.version h.epoch
    (file.take Snapshot.headerLen) (by rw [take_take, min_self])
    (by rw [length_take, min_eq_left hhead])
  have hdec := Snapshot.decode_encode h.encoded (le_refl _) (le_refl _) h.version h.epoch
  unfold snapshotBody readSnapshot
  rw [hc, openRead_ok.2 hfile]
  simp only [h.length_eq, lt_irrefl, if_false, if_neg (not_lt.2 hhead), hreq, ne_eq, not_true_eq_false]
  rw [h.digest_eq, take_length, hdec]

theorem endPosition_mem (h : frames ≠ []) : ∃ f ∈ frames, f.2 = endPosition p frames := by
  refine ⟨frames.getLast h, getLast_mem h, ?_⟩
  unfold endPosition
  rw [getLast?_eq_some_getLast h]
  rfl

theorem LogHolds.verifySegment (hN : N.Lawful) (h : LogHolds N s bodies frames) {k : ℕ}
    (hb : ∀ c ∈ s.checkpoint, BoundaryAt s c frames k) {sealedEnd : Option Position}
    (hs : ∀ q ∈ sealedEnd, q = endPosition s.base frames) :
    Prune.verifySegment N s sealedEnd (segmentBytes frames) = .ok () := by
  obtain ⟨r, hr, hat⟩ := at_fromSelection (segmentBytes frames) s.logName (le_refl Frame.maxPayload)
    h.based
  obtain ⟨r', hscan, hinc, hpos⟩ := @scan_framed _ _ _ _ _ hN (le_refl _) (s.checkpoint.map (·.boundary)) h.framed
    r ((segmentBytes frames).length + 2)
    (s.rotation.isSome || (s.checkpoint.map (·.boundary)).all fun p => decide (p = s.base)) hat
    (by have := h.framed.length_le; unfold segmentBytes; omega) h.below
  have hseen : (s.rotation.isSome || ((s.checkpoint.map (·.boundary)).all fun p => decide (p = s.base)) ||
      frames.any fun f => decide (s.checkpoint.map (·.boundary) = some f.2)) = true := by
    by_cases hrot : s.rotation.isSome
    · simp [hrot]
    cases hc : s.checkpoint with
    | none => simp
    | some c =>
      have := hb c hc
      unfold BoundaryAt at this
      rw [if_neg hrot] at this
      by_cases hnil : frames.take k = []
      · simp [this.2, hnil, endPosition]
      · obtain ⟨f, hf, hfe⟩ := endPosition_mem (p := s.base) hnil
        simp only [Bool.or_eq_true, any_eq_true, decide_eq_true_eq]
        exact .inr ⟨f, mem_of_mem_take hf, by rw [Option.map_some, this.2, hfe]⟩
  unfold Prune.verifySegment
  rw [hr]
  simp only [hscan, hseen, hinc, hpos]
  rw [if_neg]
  simp only [Bool.false_eq_true, not_true_eq_false, false_or, Option.any_eq_true, decide_eq_true_eq, not_exists, not_and,
    not_not]
  exact hs

/-- The root's files are there and hold the image and the bodies. -/
structure Intact (N : Native) (d : Dir) (s : Selected) (image : Option Bytes) (bodies : List Bytes)
    (frames : Frames) (k : ℕ) : Prop where
  log : LogHolds N s bodies frames
  log_file : d[s.logFile]? = some (segmentBytes frames)
  snapshot : match s.checkpoint, image with
    | none, none => k = 0
    | some c, some image => BoundaryAt s c frames k ∧
        ∃ file, d[s.snapshotFile]? = some file ∧ SnapshotHolds N c file image
    | _, _ => False

variable {image : Option Bytes} {k : ℕ}

theorem Intact.boundary (h : Intact N d s image bodies frames k) : ∀ c ∈ s.checkpoint, BoundaryAt s c frames k := by
  intro c hc
  have := h.snapshot
  rw [hc] at this
  cases image with
  | none => exact this.elim
  | some image => exact this.1

theorem Intact.snapshotOk (h : Intact N d s image bodies frames k) (required : Bool) :
    Prune.SnapshotOk N d s required := by
  intro hc
  obtain ⟨c, hc⟩ := Option.isSome_iff_exists.1 hc
  have := h.snapshot
  rw [hc] at this
  cases image with
  | none => exact this.elim
  | some image =>
    obtain ⟨-, file, hfile, hs⟩ := this
    exact ⟨fun _ => ⟨image, hs.body hc hfile⟩, fun _ => mem_dir_iff.2 ⟨file, hfile⟩⟩

theorem Intact.verify (hN : N.Lawful) (h : Intact N d s image bodies frames k) (hman : s.manifestFile ∈ d)
    {sealedEnd : Option Position} (hs : ∀ q ∈ sealedEnd, q = endPosition s.base frames) (required : Bool) :
    Prune.verify N d s sealedEnd required = .ok () := by
  rw [Prune.verify_ok]
  refine ⟨fun _ => hman, fun _ _ _ => hman, h.snapshotOk required, fun _ => mem_dir_iff.2 ⟨_, h.log_file⟩, ?_⟩
  intro file hfile
  rw [h.log_file] at hfile
  cases hfile
  refine ⟨fun q hq => ?_, h.log.verifySegment hN h.boundary hs⟩
  rw [hs q hq, h.log.framed.end_offset]
  exact (Nat.zero_add _).symm

theorem Intact.drain (hN : N.Lawful) (h : Intact N d s image bodies frames k) {c : SnapshotDescriptor}
    (hc : s.checkpoint = some c) {r : LogicalReader} (hr : LogicalReader.At Frame.maxPayload s.base (segmentBytes frames) r) :
    ∃ v, RecoveryReader.fromReader r s = .ok v ∧ v.selected = s ∧ v.reader = r ∧
      ∃ v', v.drain N (r.rest.length + 2) = .ok (v', bodies.drop k) ∧
        v'.reader.position = endPosition s.base frames := by
  have hb := h.boundary c hc
  have hlen : frames.length ≤ r.rest.length := by rw [hr.rest_eq]; exact h.log.framed.length_le
  unfold RecoveryReader.fromReader
  rw [hc]
  refine ⟨_, rfl, rfl, rfl, ?_⟩
  unfold BoundaryAt at hb
  by_cases hrot : s.rotation.isSome
  · rw [if_pos hrot] at hb
    obtain ⟨hseq, rfl⟩ := hb
    exact RecoveryReader.drain_behind hN (le_refl _) h.log.framed
      ⟨hr, rfl, by simp [hrot], rfl, rfl⟩ (by rw [hseq]) (by omega) h.log.below
  rw [if_neg hrot] at hb
  obtain ⟨hk, hbound⟩ := hb
  obtain ⟨hcov, hbeh⟩ := h.log.framed.split k
  by_cases hnil : frames.take k = []
  · -- the snapshot was taken before the first record
    have hk0 : k = 0 := by
      rcases take_eq_nil_iff.1 hnil with h0 | h0
      · exact h0
      · rw [h0] at hk; simpa using hk
    subst hk0
    exact RecoveryReader.drain_behind hN (le_refl _) h.log.framed
      ⟨hr, rfl, by simp [hbound, endPosition, hr.position], rfl, rfl⟩ (by rw [hbound]; exact le_refl _) (by omega)
      h.log.below
  · have hne : c.boundary ≠ s.base := by
      intro heq
      have hlt := hcov.end_sequence
      rw [← hbound, heq, ← hcov.length] at hlt
      have := length_pos_iff.2 hnil
      omega
    have := RecoveryReader.drain_covered hN (le_refl _) hcov hnil hbeh (r.rest.length + 2)
      (v := ⟨r, s, c, decide (c.boundary = r.position) || s.rotation.isSome, false, false, 0, 0⟩)
      ⟨by rw [← flatten_append, ← map_append, take_append_drop]; exact hr, hbound,
        by simp [hr.position, hne, hrot], rfl, rfl⟩
      (by rw [length_drop]; omega) (by rw [take_append_drop]; exact h.log.below)
    rwa [take_append_drop] at this

/-- The writer that takes over at the end of a segment. -/
def LogicalWal.established (p : Position) (content : Bytes) : LogicalWal :=
  ⟨⟨content, p.offset.toNat, content⟩, ⟨p, p, some p, none⟩, false⟩

/-- **Reopening an intact root** hands out the image and the bodies behind its boundary, and
establishes a writer at the end of the segment. -/
theorem Intact.reopen (hN : N.Lawful) {image : Bytes} (h : Intact N d s (some image) bodies frames k)
    {identity : CompatibilityIdentity} (hsel : selectIn N d identity = .ok s) (hcur : Name.current ∈ d)
    (hlock : Name.lock ∈ d) (hmlock : Name.manifestLock ∈ d) (hman : s.manifestFile ∈ d) :
    Persist.reopen N d identity defaultLimit = .ok ⟨s, image, bodies.drop k,
      .established (endPosition s.base frames) (segmentBytes frames)⟩ := by
  obtain ⟨c, hc⟩ : ∃ c, s.checkpoint = some c := by
    cases hc : s.checkpoint with
    | none => have := h.snapshot; rw [hc] at this; exact this.elim
    | some c => exact ⟨c, rfl⟩
  obtain ⟨r, hr, hat⟩ := at_fromSelection (segmentBytes frames) s.logName (le_refl Frame.maxPayload)
    h.log.based
  obtain ⟨v, hv, hvs, hvr, v', hdrain, hpos⟩ := h.drain hN hc hat
  obtain ⟨mb, hmb⟩ := mem_dir_iff.1 hman
  have hbody : snapshotBody N d s defaultLimit = .ok image := by
    have := h.snapshot
    rw [hc] at this
    obtain ⟨-, file, hfile, hs⟩ := this
    exact hs.body hc hfile
  have hopen : RecoveryReader.openIn N d identity defaultLimit = .ok v := by
    unfold RecoveryReader.openIn RecoveryReader.checkInitialized openReader
    rw [if_neg (not_not.2 hcur), if_neg (by simp [hlock, hmlock])]
    simp only [hsel, openRead_ok.2 h.log_file, openRead_ok.2 hmb]
    rw [if_neg (by decide), if_neg (not_not.2 hmlock), show defaultLimit = Frame.maxPayload from rfl, hr]
    exact hv
  have hoff : (endPosition s.base frames).offset.toNat = (segmentBytes frames).length := by
    rw [h.log.framed.end_offset]; exact Nat.zero_add _
  unfold Persist.reopen
  rw [hopen]
  simp only [hvs, hvr, hbody, hdrain, hpos, openRead_ok.2 h.log_file]
  rw [if_neg (by rw [hoff]; exact not_not.2 rfl)]
  rfl

theorem Intact.recovers (hN : N.Lawful) (h : Intact N d s none bodies frames k)
    {identity : CompatibilityIdentity} (hsel : selectIn N d identity = .ok s) (hmlock : Name.manifestLock ∈ d)
    (hman : s.manifestFile ∈ d) :
    ∃ r, openReader N d identity defaultLimit = .ok (r, s) ∧ LogicalReader.Recovers N r bodies false := by
  obtain ⟨r, hr, hat⟩ := at_fromSelection (segmentBytes frames) s.logName (le_refl Frame.maxPayload)
    h.log.based
  obtain ⟨mb, hmb⟩ := mem_dir_iff.1 hman
  refine ⟨r, ?_, ?_⟩
  · unfold openReader
    rw [if_neg (by decide), if_neg (not_not.2 hmlock)]
    simp only [hsel, openRead_ok.2 h.log_file, openRead_ok.2 hmb]
    rw [show defaultLimit = Frame.maxPayload from rfl, hr]
    rfl
  · have hcut : segmentBytes frames = cutBytes frames (segmentBytes frames).length := take_length.symm
    rw [hcut] at hat
    have hiff := recovers_iff hN (le_refl _) h.log.framed hat
    have happ := wholeFrames_append (frames.map Prod.fst) [] 0
    simp only [append_nil, Nat.add_zero, wholeFrames, tornAt] at happ
    have hlen : (segmentBytes frames).length = (frames.map Prod.fst).flatten.length := rfl
    have hn := h.log.framed.length
    have hlast := h.log.below
    rw [h.log.framed.end_sequence] at hlast
    rw [hlen, happ.1, happ.2, length_map, hn, take_length] at hiff
    exact hiff.2 (by omega)

end Selene.Persist
