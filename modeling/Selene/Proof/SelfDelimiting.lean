import Selene.Persist.Reader
import Selene.Proof.FrameRoundTrip
import Selene.Proof.CommitOutcome

/-!
# Frames delimit themselves

What the decoder says of a byte string depends on the frame at its front only: bytes behind the
frame do not matter (`decode_append`), and a request for more bytes always asks for more than there
are (`incomplete_lt`). So the refill loop of the reader gives what one call of the decoder on all
the bytes left would give (`readNext_eq`), on any
content of the file, and a concatenation of frames has one parse (`Chain.unique`).
-/

namespace Selene.Persist

open Octets List Option Frame

namespace Frame

variable {N : Native} {ctx : Context} {boundary : Boundary} {L : ℕ} {bytes : Bytes}

/-! ## The decoder by what it reads -/

/-- The checks of `decode` that read the header only. -/
def checkStart (N : Native) (ctx : Context) (L : ℕ) (h : Bytes) : Except FrameError (ℕ × ℕ) :=
  match checkContext ctx with
  | .error e => .error e
  | .ok () =>
    if maxPayload < L then .error .limit
    else if h.take 8 ≠ magic then .error (.invalid "magic")
    else if (N.hash (h.take 128)).val ≠ slice h 128 32 then .error (.integrity "header")
    else decodeHeader ctx L h

/-- From a whole header on, the decoder checks the header and then reads the record. -/
theorem decode_eq (hlen : headerLen ≤ bytes.length) :
    decode N bytes ctx boundary L = (checkStart N ctx L (bytes.take headerLen)).bind fun lens =>
      decodeRecord N bytes (bytes.take headerLen) boundary lens.1 lens.2 := by
  have hmagic : magic.take (min bytes.length 8) = magic := by
    rw [min_eq_right (by rw [headerLen] at hlen; omega)]
    rfl
  have htake : (bytes.take headerLen).take 8 = bytes.take 8 := by
    rw [take_take]
    rfl
  unfold decode checkStart
  rw [hmagic, htake]
  cases checkContext ctx with
  | error e => rfl
  | ok _ =>
    by_cases hlimit : maxPayload < L
    · rw [if_pos hlimit, if_pos hlimit]
      rfl
    rw [if_neg hlimit, if_neg hlimit]
    by_cases hm : bytes.take 8 = magic
    · rw [if_neg (not_not.2 hm), if_neg (not_not.2 hm), if_neg (by omega)]
      by_cases hdig : (N.hash ((bytes.take headerLen).take 128)).val =
          slice (bytes.take headerLen) 128 32
      · rw [if_neg (not_not.2 hdig), if_neg (not_not.2 hdig)]
        cases decodeHeader ctx L (bytes.take headerLen) with
        | error e => rfl
        | ok lens => rfl
      · rw [if_pos hdig, if_pos hdig]
        rfl
    · rw [if_pos hm, if_pos hm]
      rfl

theorem decode_short_cases (hlen : bytes.length < headerLen) :
    decode N bytes ctx .unsealedEnd L = .ok (.incomplete headerLen) ∨
      ∃ e, decode N bytes ctx .unsealedEnd L = .error e := by
  unfold decode
  cases checkContext ctx with
  | error e => exact .inr ⟨e, rfl⟩
  | ok _ =>
    split_ifs
    · exact .inr ⟨_, rfl⟩
    · exact .inr ⟨_, rfl⟩
    · exact .inl rfl

variable {h : Bytes} {encoded expanded : ℕ}

theorem decodeRecord_cut (hlt : bytes.length < encoded + frameOverhead) :
    decodeRecord N bytes h .unsealedEnd encoded expanded =
      .ok (.incomplete (encoded + frameOverhead)) := by
  rw [decodeRecord, if_pos hlt]
  rfl

theorem decodeRecord_whole (hle : encoded + frameOverhead ≤ bytes.length) :
    (∃ e, decodeRecord N bytes h boundary encoded expanded = .error e) ∨
      ∃ body digest, decodeRecord N bytes h boundary encoded expanded =
        .ok (.complete body digest (encoded + frameOverhead)) := by
  unfold decodeRecord
  dsimp only
  rw [if_neg (by omega)]
  split_ifs
  · exact .inl ⟨_, rfl⟩
  · exact .inl ⟨_, rfl⟩
  · exact .inr ⟨_, _, rfl⟩
  · cases expand N (slice bytes headerLen encoded) expanded with
    | error e => exact .inl ⟨e, rfl⟩
    | ok body => exact .inr ⟨body, _, rfl⟩

theorem decodeRecord_take {k : ℕ} (hk : encoded + frameOverhead ≤ k) (hle : k ≤ bytes.length)
    (h : Bytes) (boundary : Boundary) (expanded : ℕ) :
    decodeRecord N (bytes.take k) h boundary encoded expanded =
      decodeRecord N bytes h boundary encoded expanded := by
  have hover : frameOverhead = 200 := rfl
  have hhead : headerLen = 160 := rfl
  have hlen : (bytes.take k).length = k := by rw [length_take]; omega
  have hcut : ¬ (bytes.take k).length < encoded + frameOverhead := by omega
  have hwhole : ¬ bytes.length < encoded + frameOverhead := by omega
  unfold decodeRecord
  dsimp only
  rw [if_neg hcut, if_neg hwhole, slice_take bytes (show headerLen + encoded + 8 ≤ k by omega),
    slice_take bytes (show headerLen + encoded + 8 + 32 ≤ k by omega),
    slice_take bytes (show headerLen + encoded ≤ k by omega), take_take,
    min_eq_left (show headerLen + encoded + 8 ≤ k by omega)]

/-! ## Requests and answers -/

/-- What the decoder can say at all: a request for the header, a request for the record that the
header names, or an answer to the record. -/
theorem decode_ok_cases {d : Decoded} (hd : decode N bytes ctx boundary L = .ok d) :
    bytes.length < headerLen ∧ d = .incomplete headerLen ∨
      headerLen ≤ bytes.length ∧ ∃ encoded expanded,
        checkStart N ctx L (bytes.take headerLen) = .ok (encoded, expanded) ∧
          (bytes.length < encoded + frameOverhead ∧ d = .incomplete (encoded + frameOverhead) ∨
            encoded + frameOverhead ≤ bytes.length ∧
              ∃ body digest, d = .complete body digest (encoded + frameOverhead)) := by
  rcases Nat.lt_or_ge bytes.length headerLen with hlen | hlen
  · left
    refine ⟨hlen, ?_⟩
    unfold decode at hd
    cases hctx : checkContext ctx with
    | error e => rw [hctx] at hd; cases hd
    | ok _ =>
      rw [hctx] at hd
      split_ifs at hd
      unfold incomplete at hd
      split_ifs at hd
      exact (Except.ok.inj hd).symm
  · right
    refine ⟨hlen, ?_⟩
    rw [decode_eq hlen] at hd
    cases hstart : checkStart N ctx L (bytes.take headerLen) with
    | error e => rw [hstart] at hd; cases hd
    | ok lens =>
      rw [hstart] at hd
      change decodeRecord N bytes (bytes.take headerLen) boundary lens.1 lens.2 = .ok d at hd
      refine ⟨lens.1, lens.2, rfl, ?_⟩
      rcases Nat.lt_or_ge bytes.length (lens.1 + frameOverhead) with hlt | hge
      · left
        rw [decodeRecord, if_pos hlt, incomplete] at hd
        split_ifs at hd
        exact ⟨hlt, (Except.ok.inj hd).symm⟩
      · right
        refine ⟨hge, ?_⟩
        obtain ⟨e, he⟩ | ⟨body, digest, hok⟩ := decodeRecord_whole hge
        · rw [he] at hd
          cases hd
        · rw [hok] at hd
          exact ⟨body, digest, (Except.ok.inj hd).symm⟩

theorem incomplete_lt {needed : ℕ}
    (hd : decode N bytes ctx boundary L = .ok (.incomplete needed)) : bytes.length < needed := by
  obtain ⟨hlen, h⟩ | ⟨-, encoded, expanded, -, ⟨hlt, h⟩ | ⟨-, body, digest, h⟩⟩ :=
    decode_ok_cases hd
  · obtain rfl := Decoded.incomplete.inj h
    exact hlen
  · obtain rfl := Decoded.incomplete.inj h
    exact hlt
  · cases h

section

variable {body : Bytes} {digest : Digest} {consumed : ℕ}
  (hd : decode N bytes ctx boundary L = .ok (.complete body digest consumed))
include hd

theorem complete_le :
    frameOverhead ≤ consumed ∧ consumed ≤ bytes.length := by
  obtain ⟨-, h⟩ | ⟨-, encoded, expanded, -, ⟨-, h⟩ | ⟨hle, _, _, h⟩⟩ := decode_ok_cases hd
  · cases h
  · cases h
  · obtain ⟨-, -, rfl⟩ := Decoded.complete.inj h
    exact ⟨Nat.le_add_left _ _, hle⟩

theorem decode_append (trailing : Bytes) :
    decode N (bytes ++ trailing) ctx boundary L = .ok (.complete body digest consumed) := by
  obtain ⟨-, h⟩ | ⟨hlen, encoded, expanded, hstart, ⟨-, h⟩ | ⟨hle, _, _, h⟩⟩ := decode_ok_cases hd
  · cases h
  · cases h
  · have hfront : (bytes ++ trailing).take bytes.length = bytes := take_left
    have hhead : (bytes ++ trailing).take headerLen = bytes.take headerLen :=
      take_append_of_le_length hlen
    have hlong : bytes.length ≤ (bytes ++ trailing).length := by
      rw [length_append]
      omega
    have hrecord := @decodeRecord_take N _ _ _ hle hlong (bytes.take headerLen) boundary expanded
    rw [hfront] at hrecord
    rw [decode_eq (hlen.trans hlong), hhead, hstart]
    rw [decode_eq hlen, hstart] at hd
    exact hrecord.symm.trans hd

end

end Frame

/-! ## The refill loop -/

namespace LogicalReader

open Frame

variable {N : Native} {r : LogicalReader}

theorem tailDigest_eq {body bytes encoded : Bytes} {ctx : Context} {limit : ℕ} {codec : UInt8}
    (h : Frame.Encoded N body ctx limit bytes codec encoded) :
    tailDigest bytes = N.hash (record N ctx codec encoded body.length) := by
  unfold tailDigest
  have hd := h.drop_digest
  rw [dif_pos (by rw [hd]; simp)]
  exact Subtype.ext hd

theorem readNext_start (hended : r.ended = false) (hne : r.rest ≠ []) :
    readNext N r = readLoop N ((r.rest.drop headerLen).length + 2)
      { r with ended := true, rest := r.rest.drop headerLen } (r.rest.take headerLen) := by
  have hhead : r.rest.take headerLen ≠ [] := by
    rw [ne_eq, take_eq_nil_iff]
    exact fun h => h.elim (by decide) hne
  rw [readNext, hended]
  simp only [Bool.false_eq_true, if_false, if_neg hhead]

/-- What the reader makes of a last answer of the decoder. -/
def answer (r : LogicalReader) :
    Except FrameError Decoded → LogicalReader × Except StreamError (Option Bytes)
  | .error e => (r, .error (.frame e))
  | .ok (.incomplete _) => ({ r with incomplete := true }, .ok none)
  | .ok (.complete body digest consumed) => accept r body digest consumed

theorem readLoop_last {fuel : ℕ} {bytes : Bytes}
    (h : ∀ needed, decode N bytes r.context .unsealedEnd r.limit ≠ .ok (.incomplete needed)) :
    readLoop N (fuel + 1) r bytes = answer r (decode N bytes r.context .unsealedEnd r.limit) := by
  rw [readLoop]
  rcases hd : decode N bytes r.context .unsealedEnd r.limit with e | ⟨body, digest, consumed⟩ | needed
  · rfl
  · rfl
  · exact absurd hd (h needed)

section

variable {fuel needed : ℕ} {bytes : Bytes}
  (hd : decode N bytes r.context .unsealedEnd r.limit = .ok (.incomplete needed))
include hd

theorem readLoop_starved (hshort : bytes.length + r.rest.length < needed) :
    readLoop N (fuel + 1) r bytes = ({ r with rest := [], incomplete := true }, .ok none) := by
  have hlt := incomplete_lt hd
  rw [readLoop, hd]
  simp only [if_pos hlt]
  rw [if_pos (by rw [length_take]; omega), drop_eq_nil_of_le (by omega)]

theorem readLoop_filled (hlong : needed ≤ bytes.length + r.rest.length) :
    readLoop N (fuel + 1) r bytes = readLoop N fuel
      { r with rest := r.rest.drop (needed - bytes.length) }
      (bytes ++ r.rest.take (needed - bytes.length)) := by
  have hlt := incomplete_lt hd
  rw [readLoop, hd]
  simp only [if_pos hlt]
  rw [if_neg (by rw [length_take]; omega)]

end

/-- **The refill loop answers as one call of the decoder on all that is left of the file would.**
It never runs dry of turns, and never meets a request without progress. -/
theorem readNext_eq (hended : r.ended = false) (hne : r.rest ≠ []) :
    ∃ rest, readNext N r = answer { r with ended := true, rest := rest }
        (decode N r.rest r.context .unsealedEnd r.limit) ∧
      ((∃ needed, decode N r.rest r.context .unsealedEnd r.limit = .ok (.incomplete needed)) →
        rest = []) ∧
      (∀ body digest consumed, decode N r.rest r.context .unsealedEnd r.limit =
        .ok (.complete body digest consumed) → rest = r.rest.drop consumed) := by
  rw [readNext_start hended hne]
  rcases Nat.lt_or_ge r.rest.length headerLen with hlen | hlen
  · -- less than a header is left
    rw [take_of_length_le hlen.le, drop_eq_nil_of_le hlen.le]
    obtain hd | ⟨e, hd⟩ := @decode_short_cases N r.context r.limit r.rest hlen
    · refine ⟨[], ?_, fun _ => rfl, fun body digest consumed h => ?_⟩
      · rw [readLoop_starved (r := { r with ended := true, rest := [] }) hd (by simpa using hlen), hd]
        rfl
      · rw [hd] at h
        cases h
    · refine ⟨[], ?_, fun _ => rfl, fun body digest consumed h => ?_⟩
      · rw [readLoop_last (fun needed h => by rw [hd] at h; cases h)]
      · rw [hd] at h
        cases h
  · have hhead : (r.rest.take headerLen).take headerLen = r.rest.take headerLen := by
      rw [take_take, min_self]
    have hheadLen : (r.rest.take headerLen).length = headerLen := by
      rw [length_take]
      omega
    have hdrop : (r.rest.drop headerLen).length = r.rest.length - headerLen := length_drop
    have hfirst := @decode_eq N r.context .unsealedEnd r.limit _ hheadLen.ge
    have hall := @decode_eq N r.context .unsealedEnd r.limit _ hlen
    rw [hhead] at hfirst
    cases hstart : checkStart N r.context r.limit (r.rest.take headerLen) with
    | error e =>
      -- the header is refused
      rw [hstart] at hfirst hall
      change decode N _ _ _ _ = .error e at hfirst
      change decode N _ _ _ _ = .error e at hall
      refine ⟨r.rest.drop headerLen, ?_, fun ⟨needed, h⟩ => ?_, fun body digest consumed h => ?_⟩
      · rw [readLoop_last (fun needed h => by rw [hfirst] at h; cases h), hfirst, hall]
      · rw [hall] at h
        cases h
      · rw [hall] at h
        cases h
    | ok lens =>
      rw [hstart] at hfirst hall
      change decode N _ _ _ _ = decodeRecord N _ _ .unsealedEnd lens.1 lens.2 at hfirst
      change decode N _ _ _ _ = decodeRecord N _ _ .unsealedEnd lens.1 lens.2 at hall
      have hover : frameOverhead = headerLen + 40 := rfl
      rw [decodeRecord_cut (by omega)] at hfirst
      rcases Nat.lt_or_ge r.rest.length (lens.1 + frameOverhead) with hlt | hge
      · -- the header asks for a record that the file does not hold
        rw [decodeRecord_cut hlt] at hall
        refine ⟨[], ?_, fun _ => rfl, fun body digest consumed h => ?_⟩
        · rw [readLoop_starved (r := { r with ended := true, rest := r.rest.drop headerLen }) hfirst
            (by simp only; omega), hall]
          rfl
        · rw [hall] at h
          cases h
      · -- the second turn has the whole record
        have hsum : lens.1 + frameOverhead = headerLen + (lens.1 + 40) := by omega
        have hbytes : r.rest.take headerLen ++ (r.rest.drop headerLen).take (lens.1 + 40) =
            r.rest.take (lens.1 + frameOverhead) := by
          rw [hsum]
          exact take_add.symm
        have hrest : (r.rest.drop headerLen).drop (lens.1 + 40) =
            r.rest.drop (lens.1 + frameOverhead) := by
          rw [hsum, drop_drop]
        have hmissing : lens.1 + frameOverhead - (r.rest.take headerLen).length = lens.1 + 40 := by
          omega
        have hrecordLen : (r.rest.take (lens.1 + frameOverhead)).length = lens.1 + frameOverhead := by
          rw [length_take]
          omega
        have hsecond : decode N (r.rest.take (lens.1 + frameOverhead)) r.context .unsealedEnd
            r.limit = decode N r.rest r.context .unsealedEnd r.limit := by
          rw [decode_eq (by omega), take_take, min_eq_left (by omega), hstart, hall]
          exact decodeRecord_take le_rfl hge _ _ _
        have hlast : ∀ needed, decode N r.rest r.context .unsealedEnd r.limit ≠
            .ok (.incomplete needed) := fun needed h => by
          obtain ⟨e, he⟩ | ⟨body, digest, hok⟩ := @decodeRecord_whole N .unsealedEnd _
            (r.rest.take headerLen) lens.1 lens.2 hge
          · rw [hall, he] at h
            cases h
          · rw [hall, hok] at h
            cases h
        refine ⟨r.rest.drop (lens.1 + frameOverhead), ?_, fun ⟨needed, h⟩ => absurd h (hlast needed),
          fun body digest consumed h => ?_⟩
        · rw [readLoop_filled (r := { r with ended := true, rest := r.rest.drop headerLen }) hfirst
            (by simp only; omega)]
          simp only [hmissing, hbytes, hrest]
          rw [readLoop_last (by rw [hsecond]; exact hlast), hsecond]
        · obtain ⟨-, h'⟩ | ⟨-, encoded, expanded, hstart', ⟨-, h'⟩ | ⟨-, _, _, h'⟩⟩ :=
            decode_ok_cases h
          · cases h'
          · cases h'
          · rw [hstart] at hstart'
            obtain rfl := Except.ok.inj hstart'
            obtain ⟨-, -, rfl⟩ := Decoded.complete.inj h'
            rfl

theorem answer_progress (r : LogicalReader) (d : Except FrameError Decoded) :
    (answer r d).2 ≠ .error (.protocol "decoder made no progress") := by
  rcases d with e | ⟨body, digest, consumed⟩ | needed
  · simp [answer]
  · simp only [answer, accept]
    split
    · simp
    · split <;> simp
  · simp [answer]

theorem readNext_progress (N : Native) (r : LogicalReader) :
    (readNext N r).2 ≠ .error (.protocol "decoder made no progress") := by
  intro h
  by_cases hended : r.ended = true
  · simp [readNext, hended] at h
  by_cases hne : r.rest = []
  · rw [readNext, if_neg hended] at h
    simp [hne] at h
  obtain ⟨rest, heq, -⟩ := @readNext_eq N r (by simpa using hended) hne
  rw [heq] at h
  exact answer_progress _ _ h

end LogicalReader

/-! ## Concatenated frames -/

/-- The context of the record behind one with this digest. -/
def Context.after (ctx : Context) (digest : Digest) : Option Context :=
  (checkedAdd ctx.sequence 1).map fun sequence =>
    { ctx with sequence := sequence, previous := digest }

/-- Bodies and their frames, each written in the context that the one before it leaves. -/
inductive Chain (N : Native) (L : ℕ) : Option Context → List Bytes → List Bytes → Prop where
  | nil (start : Option Context) : Chain N L start [] []
  | cons {ctx : Context} {body frame : Bytes} {bodies frames : List Bytes}
      {compression : Compression} {limit : ℕ}
      (henc : encode N body ctx compression limit = .ok frame) (hlim : limit ≤ L)
      (rest : Chain N L (ctx.after (tailDigest frame)) bodies frames) :
      Chain N L (some ctx) (body :: bodies) (frame :: frames)

/-- A parse of all the bytes: bodies, and how many bytes each took. -/
inductive Parses (N : Native) (L : ℕ) (boundary : Boundary) :
    Option Context → Bytes → List (Bytes × ℕ) → Prop where
  | nil (start : Option Context) : Parses N L boundary start [] []
  | cons {ctx : Context} {bytes body : Bytes} {digest : Digest} {consumed : ℕ}
      {parts : List (Bytes × ℕ)}
      (hd : decode N bytes ctx boundary L = .ok (.complete body digest consumed))
      (rest : Parses N L boundary (ctx.after digest) (bytes.drop consumed) parts) :
      Parses N L boundary (some ctx) bytes ((body, consumed) :: parts)

variable {N : Native} {L : ℕ} {boundary : Boundary} {start : Option Context}

theorem Parses.unique {bytes : Bytes} {parts parts' : List (Bytes × ℕ)}
    (h : Parses N L boundary start bytes parts) (h' : Parses N L boundary start bytes parts') :
    parts = parts' := by
  induction h generalizing parts' with
  | nil start =>
    cases h' with
    | nil => rfl
    | cons hd _ =>
      have := complete_le hd
      simp [frameOverhead, headerLen] at this
      omega
  | cons hd _ ih =>
    cases h' with
    | nil =>
      have := complete_le hd
      simp [frameOverhead, headerLen] at this
      omega
    | cons hd' rest' =>
      rw [hd] at hd'
      obtain ⟨rfl, rfl, rfl⟩ := Decoded.complete.inj (Except.ok.inj hd')
      rw [ih rest']

theorem decode_frame (hN : N.Lawful) (hL : L ≤ maxPayload) {ctx : Context}
    {body frame : Bytes} {compression : Compression} {limit : ℕ}
    (henc : encode N body ctx compression limit = .ok frame) (hlim : limit ≤ L)
    (trailing : Bytes) :
    decode N (frame ++ trailing) ctx boundary L =
      .ok (.complete body (tailDigest frame) frame.length) := by
  obtain ⟨codec, encoded, hE⟩ := encode_spec henc
  rw [LogicalReader.tailDigest_eq hE]
  exact decode_append (hE.decode_self hN hL hlim) trailing

theorem Chain.parses (hN : N.Lawful) (hL : L ≤ maxPayload) {bodies frames : List Bytes}
    (h : Chain N L start bodies frames) :
    Parses N L boundary start frames.flatten (bodies.zip (frames.map List.length)) := by
  induction h with
  | nil start => exact .nil start
  | cons henc hlim _ ih =>
    refine .cons (decode_frame hN hL henc hlim _) ?_
    rw [flatten_cons, drop_left]
    exact ih

theorem frame_ne_nil {ctx : Context} {body : Bytes} {compression : Compression} {limit : ℕ} :
    encode N body ctx compression limit ≠ .ok [] := by
  intro henc
  obtain ⟨codec, encoded, hE⟩ := encode_spec henc
  have hlen := hE.length
  simp [frameOverhead, headerLen] at hlen
  omega

theorem Chain.unique (hN : N.Lawful) (hL : L ≤ maxPayload) {bodies frames : List Bytes}
    (h : Chain N L start bodies frames) {bodies' frames' : List Bytes}
    (h' : Chain N L start bodies' frames') (heq : frames'.flatten = frames.flatten) :
    bodies' = bodies ∧ frames' = frames := by
  induction h generalizing bodies' frames' with
  | nil start =>
    cases h' with
    | nil => exact ⟨rfl, rfl⟩
    | cons henc _ _ =>
      have hnil := (append_eq_nil_iff.1 heq).1
      rw [hnil] at henc
      exact absurd henc frame_ne_nil
  | @cons ctx body frame bodies frames compression limit henc hlim _ ih =>
    cases h' with
    | nil =>
      have hnil := (append_eq_nil_iff.1 heq.symm).1
      rw [hnil] at henc
      exact absurd henc frame_ne_nil
    | @cons _ body' frame' bodies' frames' compression' limit' henc' hlim' rest' =>
      -- the decoder reads the first frame off the same bytes in both chains
      rw [flatten_cons, flatten_cons] at heq
      have hd := @decode_frame N L .sealedEnd hN hL _ _ _ _ _ henc hlim frames.flatten
      have hd' := @decode_frame N L .sealedEnd hN hL _ _ _ _ _ henc' hlim' frames'.flatten
      rw [heq, hd] at hd'
      obtain ⟨rfl, -, hlen⟩ := Decoded.complete.inj (Except.ok.inj hd')
      obtain ⟨rfl, htail⟩ := append_inj heq hlen.symm
      obtain ⟨rfl, rfl⟩ := ih rest' htail
      exact ⟨rfl, rfl⟩

/-- A frame cut anywhere asks for more than there is, and for no more than the frame. -/
theorem decode_cut_frame (hL : L ≤ maxPayload) {ctx : Context} {body frame : Bytes}
    {compression : Compression} {limit k : ℕ}
    (henc : encode N body ctx compression limit = .ok frame) (hlim : limit ≤ L)
    (hk : k < frame.length) :
    ∃ needed, decode N (frame.take k) ctx .unsealedEnd L = .ok (.incomplete needed) ∧
      k < needed ∧ needed ≤ frame.length := by
  obtain ⟨codec, encoded, hE⟩ := encode_spec henc
  have hlen := hE.length
  rcases Nat.lt_or_ge k headerLen with hshort | hlong
  · have hle : headerLen ≤ frame.length := by
      rw [hlen, frameOverhead]
      omega
    exact ⟨_, hE.decode_short hL hlim hshort, hshort, hle⟩
  · exact ⟨_, hE.decode_cut hL hlim hlong hk, hk, le_refl _⟩

/-- **Frames are self-delimiting**: alone, in a chain, and to the reader's refill loop. -/
theorem frames_self_delimiting (hN : N.Lawful) (hL : L ≤ maxPayload) :
    (∀ ctx body compression limit frame,
      encode N body ctx compression limit = .ok frame → limit ≤ L →
        (∀ trailing boundary, decode N (frame ++ trailing) ctx boundary L =
          .ok (.complete body (tailDigest frame) frame.length)) ∧
        ∀ k < frame.length, ∃ needed,
          decode N (frame.take k) ctx .unsealedEnd L = .ok (.incomplete needed) ∧
            k < needed ∧ needed ≤ frame.length) ∧
    (∀ start bodies frames, Chain N L start bodies frames →
      (∀ boundary parts, Parses N L boundary start frames.flatten parts ↔
        parts = bodies.zip (frames.map List.length)) ∧
      ∀ bodies' frames', Chain N L start bodies' frames' → frames'.flatten = frames.flatten →
        bodies' = bodies ∧ frames' = frames) ∧
    (∀ bytes ctx boundary needed,
      decode N bytes ctx boundary L = .ok (.incomplete needed) → bytes.length < needed) ∧
    ∀ r : LogicalReader,
      (r.readNext N).2 ≠ .error (.protocol "decoder made no progress") ∧
      (r.ended = false → r.rest ≠ [] → ∃ rest, r.readNext N =
        LogicalReader.answer { r with ended := true, rest := rest }
          (decode N r.rest r.context .unsealedEnd r.limit)) := by
  refine ⟨?frame, ?chain, ?progress, ?reader⟩
  case frame =>
    intro ctx body compression limit frame henc hlim
    exact ⟨fun trailing _ => decode_frame hN hL henc hlim trailing,
      fun k hk => decode_cut_frame hL henc hlim hk⟩
  case chain =>
    intro start bodies frames hchain
    refine ⟨fun boundary parts => ⟨fun h => h.unique (hchain.parses hN hL), ?_⟩, ?_⟩
    · intro hparts
      rw [hparts]
      exact hchain.parses hN hL
    · intro bodies' frames' hchain' heq
      exact hchain.unique hN hL hchain' heq
  case progress =>
    intro bytes ctx boundary needed hd
    exact incomplete_lt hd
  case reader =>
    intro r
    refine ⟨LogicalReader.readNext_progress N r, fun hended hne => ?_⟩
    obtain ⟨rest, heq, -⟩ := @LogicalReader.readNext_eq N r hended hne
    exact ⟨rest, heq⟩

section Sample

open LogicalWal

theorem sampleNative_lawful : sampleNative.Lawful :=
  ⟨fun h => by cases h; rfl, fun h => by cases h; exact ⟨0, rfl, rfl⟩, fun h => by cases h; simp [sampleNative]⟩

/-- A rotated segment whose base is record `u64::MAX - 1`. -/
def lastContext : Context where
  store := sampleBase.store
  epoch := 1
  sequence := 0xffffffffffffffff
  segment := sampleBase.segment
  previous := sampleBase.digest

def lastFrame : Bytes :=
  match encode sampleNative [7] lastContext .raw 16 with
  | .ok bytes => bytes
  | .error _ => []

/-- The last frame of a segment, with bytes of another file behind it. -/
theorem frames_self_delimiting_sample :
    decode sampleNative (lastFrame ++ [1, 2, 3]) lastContext .sealedEnd 16 =
      .ok (.complete [7] (tailDigest lastFrame) lastFrame.length) := by
  have henc : encode sampleNative [7] lastContext .raw 16 = .ok lastFrame := by
    decide +kernel
  have h := (frames_self_delimiting sampleNative_lawful (L := 16) (by decide)).1
  exact (h lastContext [7] .raw 16 lastFrame henc (le_refl 16)).1 [1, 2, 3] .sealedEnd

end Sample

end Selene.Persist
