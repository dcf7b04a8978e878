import Selene.Persist.Frame

/-!
# Frames read back

`decode_encode`: the decoder returns the body of every frame the encoder writes in the
same context. `decode_take`: cut anywhere, the frame is incomplete and never an error,
and the decoder asks for exactly the header or exactly the frame. These two, and
`encode_spec`, are all that the stream proofs use of the format.
-/

namespace Selene.Persist.Frame

open Octets List

variable {N : Native} {ctx : Context} {codec : UInt8} {body encoded bytes : Bytes} {limit : ℕ}
  {compression : Compression}

/-- What `encode` writes: a raw body, or a strictly smaller compressed one. -/
structure Encoded (N : Native) (body : Bytes) (ctx : Context) (limit : ℕ) (bytes : Bytes)
    (codec : UInt8) (encoded : Bytes) : Prop where
  ctx_ok : checkContext ctx = .ok ()
  limit_le : limit ≤ maxPayload
  body_le : body.length ≤ limit
  encoded_le : encoded.length ≤ body.length
  codec_cases : codec = 0 ∧ encoded = body ∨ codec = 1 ∧ N.compress body = some encoded
  bytes_eq : bytes = record N ctx codec encoded body.length ++
    (N.hash (record N ctx codec encoded body.length)).val

theorem encode_spec (h : encode N body ctx compression limit = .ok bytes) :
    ∃ codec encoded, Encoded N body ctx limit bytes codec encoded := by
  unfold encode at h
  split at h
  · cases h
  rename_i hctx
  split at h
  · cases h
  rename_i hlim
  obtain ⟨h₁, h2⟩ := not_or.1 hlim
  split at h
  · cases h
  rename_i compressed hcomp
  cases h
  cases compressed with
  | none => exact ⟨0, body, hctx, by omega, by omega, le_rfl, .inl ⟨rfl, rfl⟩, rfl⟩
  | some c =>
    -- only a smaller result is kept
    unfold compressBody at hcomp
    split at hcomp
    · split at hcomp
      · cases hcomp
      · rename_i out hout
        simp only [Except.ok.injEq] at hcomp
        split at hcomp
        · cases hcomp
          exact ⟨1, c, hctx, by omega, by omega, by omega, .inr ⟨rfl, hout⟩, rfl⟩
        · cases hcomp
    · cases hcomp

@[simp] theorem length_magic : magic.length = 8 := rfl
@[simp] theorem length_endMark : endMark.length = 8 := rfl

@[simp] theorem length_digest (d : Digest) : d.val.length = 32 := d.property
@[simp] theorem length_storeId (s : StoreId) : s.bytes.val.length = 16 := s.bytes.property

@[simp] theorem length_fields (e x : ℕ) : (fields ctx codec e x).length = 128 := by simp [fields]

@[simp] theorem length_header (e x : ℕ) : (header N ctx codec e x).length = headerLen := by
  simp [header, headerLen]

@[simp] theorem length_record (x : ℕ) :
    (record N ctx codec encoded x).length = headerLen + (encoded.length + 8) := by simp [record]

theorem Encoded.length (h : Encoded N body ctx limit bytes codec encoded) :
    bytes.length = encoded.length + frameOverhead := by
  rw [h.bytes_eq]; simp [frameOverhead, headerLen, trailerLen]; omega

theorem slice_fields (e x : ℕ) :
    slice (fields ctx codec e x) 8 4 = [2, 0, 0, 0] ∧ (fields ctx codec e x).getD 12 0 = codec ∧
      slice (fields ctx codec e x) 13 3 = [0, 0, 0] ∧
      slice (fields ctx codec e x) 16 8 = leBytes 8 e ∧
      slice (fields ctx codec e x) 24 8 = leBytes 8 x ∧
      slice (fields ctx codec e x) 32 8 = leBytes 8 ctx.sequence.toNat ∧
      slice (fields ctx codec e x) 40 16 = ctx.store.bytes.val ∧
      slice (fields ctx codec e x) 56 8 = leBytes 8 ctx.epoch.toNat ∧
      slice (fields ctx codec e x) 64 32 = ctx.segment.val ∧
      slice (fields ctx codec e x) 96 32 = ctx.previous.val := by
  refine ⟨rfl, rfl, rfl, ?_, ?_, ?_, ?_, ?_, ?_, ?_⟩ <;> unfold fields <;>
    simp (disch := first | decide | simp) only [slice_skip, slice_front, slice_all, length_magic, length_leBytes,
      length_storeId, length_digest, length_cons, length_nil, Nat.reduceAdd, Nat.reduceSub]

theorem slice_header {e x off len : ℕ} (h : off + len ≤ 128) :
    slice (header N ctx codec e x) off len = slice (fields ctx codec e x) off len := by
  unfold header; exact slice_append _ _ (by simpa using h)

theorem header_codec (e x : ℕ) : (header N ctx codec e x).getD 12 0 = codec := by
  rw [getD_eq_getElem?_getD]
  unfold header
  rw [getElem?_append_left (by simp)]
  exact (@slice_fields ctx codec e x).2.1

theorem number_of_slice {h : Bytes} {off n : ℕ} (hs : slice h off 8 = leBytes 8 n) (hn : n < 2 ^ 64) :
    number h off = n := by
  unfold number; rw [hs]; exact leNat_leBytes (by norm_num at hn ⊢; exact hn)

theorem decodeHeader_header {e x : ℕ} (hl : limit ≤ maxPayload) (he : e ≤ limit) (hx : x ≤ limit)
    (hc : codec = 0 ∨ codec = 1) (hraw : codec = 0 → e = x) :
    decodeHeader ctx limit (header N ctx codec e x) = .ok (e, x) := by
  obtain ⟨hv, -, hres, hse, hsx, hseq, hstore, hepoch, hseg, hprev⟩ := @slice_fields ctx codec e x
  have hmax : maxPayload < 2 ^ 64 := by decide
  have hcodec' : (header N ctx codec e x).getD 12 0 = codec := header_codec e x
  have hE : number (header N ctx codec e x) 16 = e :=
    number_of_slice (by rw [slice_header (by decide)]; exact hse) (by omega)
  have hX : number (header N ctx codec e x) 24 = x :=
    number_of_slice (by rw [slice_header (by decide)]; exact hsx) (by omega)
  have hS : number (header N ctx codec e x) 32 = ctx.sequence.toNat :=
    number_of_slice (by rw [slice_header (by decide)]; exact hseq) ctx.sequence.toNat_lt
  have hP : number (header N ctx codec e x) 56 = ctx.epoch.toNat :=
    number_of_slice (by rw [slice_header (by decide)]; exact hepoch) ctx.epoch.toNat_lt
  unfold decodeHeader
  rw [slice_header (by decide), slice_header (by decide), slice_header (by decide),
    slice_header (by decide), slice_header (by decide), hv, hcodec', hres, hE, hX, hS, hP, hstore,
    hseg, hprev]
  have hc1 : ¬ 1 < codec := by rcases hc with rfl | rfl <;> decide
  have hlim : ¬ (limit < e ∨ limit < x) := by omega
  have hraw' : ¬ (codec = 0 ∧ e ≠ x) := fun ⟨h0, hne⟩ => hne (hraw h0)
  simp only [ne_eq, not_true_eq_false, if_false, hc1, hlim, hraw']

theorem expandLoop_ok {expected : ℕ} : ∀ {chunks : List Bytes} {out : Bytes},
    out.length + chunks.flatten.length ≤ expected →
      expandLoop expected chunks out = .ok (out ++ chunks.flatten) := by
  intro chunks
  induction chunks with
  | nil => intro out _; simp [expandLoop]
  | cons c cs ih =>
    intro out h
    simp only [flatten_cons, length_append] at h
    rw [expandLoop, if_neg (by omega), ih (by rw [length_append]; omega)]
    simp

theorem expand_compress (hN : N.Lawful) (h : N.compress body = some encoded) :
    expand N encoded body.length = .ok body := by
  obtain ⟨x, hx, hx'⟩ := hN.noDictionary h
  obtain ⟨hflat, hrest⟩ := hN.roundTrip h
  have hguard : ¬ (encoded.take 4 ≠ [0x28, 0xb5, 0x2f, 0xfd] ∨
      ¬ (encoded[4]?).any (fun b => b &&& 3 == 0)) := by
    simp [hN.magic h, hx, hx']
  unfold expand
  rw [if_neg hguard, expandLoop_ok (by simp [hflat]), hrest, hflat]
  simp

theorem magic_take {k : ℕ} {rest : Bytes} :
    ((magic ++ rest).take k).take 8 = magic.take (min ((magic ++ rest).take k).length 8) := by
  rw [take_take, take_append_of_le_length (by simp), length_take, length_append, length_magic]
  rcases Nat.lt_or_ge k 8 with hk | hk
  · rw [min_eq_right (by omega), min_eq_left (by omega), min_eq_left (by omega)]
  · rw [min_eq_left hk, min_eq_right (by omega)]

section

variable {boundary : Boundary} {L : ℕ} (h : Encoded N body ctx limit bytes codec encoded)
include h

theorem Encoded.take_header {k : ℕ} (hk : headerLen ≤ k) :
    (bytes.take k).take headerLen = header N ctx codec encoded.length body.length := by
  rw [take_take, min_eq_left hk, h.bytes_eq, record, append_assoc,
    take_append_of_le_length (by simp), take_of_length_le (by simp)]

section

variable (hL : L ≤ maxPayload) (hlim : limit ≤ L)
include hL hlim

/-- Up to the header the decoder agrees with the encoder on every cut frame. -/
theorem Encoded.decode_take (k : ℕ) : decode N (bytes.take k) ctx boundary L =
      if (bytes.take k).length < headerLen then incomplete boundary headerLen
      else decodeRecord N (bytes.take k) (header N ctx codec encoded.length body.length) boundary
        encoded.length body.length := by
  have hmagic : (bytes.take k).take 8 = magic.take (min (bytes.take k).length 8) := by
    rw [h.bytes_eq, record, header, fields, append_assoc, append_assoc, append_assoc]
    exact magic_take
  unfold decode
  rw [h.ctx_ok]
  simp only
  rw [if_neg (by omega), if_neg (not_not.2 hmagic)]
  split
  · rfl
  · rename_i hk
    have hle : headerLen ≤ k := by simp only [length_take] at hk; omega
    have hdig : (N.hash ((header N ctx codec encoded.length body.length).take 128)).val =
        slice (header N ctx codec encoded.length body.length) 128 32 := by
      unfold header
      rw [take_append_of_le_length (by simp), take_of_length_le (by simp),
        slice_skip _ _ (by simp), length_fields, slice_all _ (by simp)]
    rw [h.take_header hle, if_neg (not_not.2 hdig)]
    rw [decodeHeader_header hL (le_trans h.encoded_le (le_trans h.body_le hlim)) (le_trans h.body_le hlim)
      (h.codec_cases.imp And.left And.left)]
    intro h0
    rcases h.codec_cases with ⟨-, he⟩ | ⟨h1, -⟩
    · rw [he]
    · rw [h1] at h0; exact absurd h0 (by decide)

theorem Encoded.decode_short {k : ℕ} (hk : k < headerLen) :
    decode N (bytes.take k) ctx .unsealedEnd L = .ok (.incomplete headerLen) := by
  rw [h.decode_take hL hlim, if_pos (by simp; omega)]
  rfl

/-- A frame cut after its header: the decoder asks for exactly this frame. -/
theorem Encoded.decode_cut {k : ℕ} (hk : headerLen ≤ k)
    (hlt : k < bytes.length) :
    decode N (bytes.take k) ctx .unsealedEnd L = .ok (.incomplete bytes.length) := by
  rw [h.decode_take hL hlim, if_neg (by simp; omega), decodeRecord, if_pos (by
    rw [← h.length]; simp; omega), h.length]
  rfl

end

/-- **The decoder returns every body the encoder framed**, with the digest the writer chains. -/
theorem Encoded.decode_self (hN : N.Lawful) (hL : L ≤ maxPayload) (hlim : limit ≤ L) :
    decode N bytes ctx boundary L =
      .ok (.complete body (N.hash (record N ctx codec encoded body.length)) bytes.length) := by
  have htake := @Encoded.decode_take _ _ _ _ _ _ _ boundary _ h hL hlim bytes.length
  have hlen := h.length
  rw [take_length] at htake
  rw [htake, if_neg (by rw [hlen, frameOverhead]; omega), decodeRecord, if_neg (by omega)]
  set r := record N ctx codec encoded body.length with hr
  have hrl : r.length = headerLen + (encoded.length + 8) := by rw [hr]; simp
  have hend : slice bytes (headerLen + encoded.length) 8 = endMark := by
    rw [h.bytes_eq, slice_append _ _ (by rw [← hr, hrl]; omega), record, ← append_assoc,
      slice_skip _ _ (by simp)]
    simp only [length_append, length_header, Nat.sub_self]
    exact slice_all _ rfl
  have hbody : bytes.take (headerLen + encoded.length + 8) = r := by
    rw [h.bytes_eq, ← hr, take_append_of_le_length (by omega), take_of_length_le (by omega)]
  have hdig : slice bytes (headerLen + encoded.length + 8) 32 = (N.hash r).val := by
    rw [h.bytes_eq, ← hr, slice_skip _ _ (by omega), hrl,
      show headerLen + encoded.length + 8 - (headerLen + (encoded.length + 8)) = 0 by omega]
    exact slice_all _ (by simp)
  have hpay : slice bytes headerLen encoded.length = encoded := by
    rw [h.bytes_eq, slice_append _ _ (by rw [← hr, hrl]; omega), record, slice_skip _ _ (by simp)]
    simp only [length_header, Nat.sub_self]
    exact slice_front _ _ rfl
  simp only [hend, hbody, hdig, hpay, header_codec, ne_eq, not_true_eq_false, if_false]
  rcases h.codec_cases with ⟨h0, he⟩ | ⟨h1, hc⟩
  · rw [if_pos h0, he, hlen, he]
  · rw [if_neg (by rw [h1]; decide), expand_compress hN hc, hlen]

theorem Encoded.drop_digest :
    bytes.drop (bytes.length - 32) = (N.hash (record N ctx codec encoded body.length)).val := by
  rw [h.bytes_eq, length_append, length_digest, Nat.add_sub_cancel, drop_left]

end

end Selene.Persist.Frame
