import Selene.Logical.Wire

/-!
# Wire fields, exactly

The behaviour of every field of the format: `writes_…` for the encoder and `reads_…` for the
decoder. A count is the one field that looks ahead (`countFor_ok`): it asks for as many bytes as
there are entries.
-/

namespace Selene.Logical

open Octets Metered Attempt List Decoder

variable {L : Limits}

/-! ## Fields -/

/-- The budget and the payload bound of a codec run. -/
def meter (L : Limits) : Meter Charge where
  fits c := c.items ≤ L.items ∧ c.allocation ≤ L.allocation ∧ c.metadata ≤ L.metadata
  cap := L.bytes
  mono {a b} h := by
    simp only [Charge.items_add, Charge.allocation_add, Charge.metadata_add] at h
    omega

theorem charge_ok {i a : ℕ} {s t : Stream Charge} :
    charge L i a s = (.ok (), t) ↔ t = ⟨s.bytes, s.spent + ⟨i, a, 0⟩⟩ ∧
      t.spent.items ≤ L.items ∧ t.spent.allocation ≤ L.allocation := by
  unfold charge
  dsimp only
  split
  · rename_i h
    refine iff_of_false (by simp) ?_
    intro h'
    obtain ⟨rfl, hi, ha⟩ := h'
    dsimp only at hi ha
    omega
  · rename_i h
    rw [not_or, not_lt, not_lt] at h
    constructor
    · intro h'
      cases h'
      exact ⟨rfl, h⟩
    · intro h'
      rw [h'.1]

theorem writes_charge (i a : ℕ) : Writes (meter L) (charge L i a) True [] ⟨i, a, 0⟩ := by
  intro s t hs
  have hmeta : (s.spent + ⟨i, a, 0⟩).metadata ≤ L.metadata := hs.2.2.2
  have hlen : (s.bytes ++ []).length ≤ L.bytes := by
    rw [append_nil]
    exact hs.1
  rw [charge_ok]
  constructor
  · intro h
    obtain ⟨rfl, hi, ha⟩ := h
    refine ⟨trivial, ?_, hs.1, hi, ha, hmeta⟩
    rw [Stream.push, append_nil]
  · intro h
    obtain ⟨-, rfl, ht⟩ := h
    refine ⟨?_, ht.2.1, ht.2.2.1⟩
    rw [Stream.push, append_nil]

theorem reads_charge (i a : ℕ) :
    Reads (meter L) (charge L i a) fun _ w c => w = [] ∧ c = ⟨i, a, 0⟩ := by
  intro s u t hs
  cases u
  rw [charge_ok]
  constructor
  · intro h
    obtain ⟨rfl, hi, ha⟩ := h
    exact ⟨[], _, ⟨rfl, rfl⟩, rfl, rfl, hi, ha, hs.2.2⟩
  · intro h
    obtain ⟨w, c, ⟨rfl, rfl⟩, hb, hc, ht⟩ := h
    obtain ⟨bytes, spent⟩ := t
    obtain rfl : s.bytes = bytes := hb
    obtain rfl : spent = _ := hc
    exact ⟨rfl, ht.1, ht.2.1⟩

theorem writes_fixed (w : Bytes) : Writes (meter L) (Encoder.fixed L w) True w 0 := by
  intro s t hs
  unfold Encoder.fixed
  split
  · rename_i h
    refine iff_of_false (by simp) ?_
    intro h'
    obtain ⟨-, rfl, hlen, -⟩ := h'
    have hlen : (s.bytes ++ w).length ≤ L.bytes := hlen
    rw [length_append] at hlen
    omega
  · rename_i h
    have hpush : s.push w 0 = { s with bytes := s.bytes ++ w } := by simp [Stream.push]
    have hlen : (s.bytes ++ w).length ≤ L.bytes := by
      rw [length_append]
      omega
    rw [hpush]
    constructor
    · intro h'
      cases h'
      exact ⟨trivial, rfl, hlen, hs.2⟩
    · intro h'
      rw [h'.2.1]

theorem writes_fail {e : CodecError} {w : Bytes} {c : Charge} :
    Writes (meter L) (fail e) False w c := by
  intro s t _
  refine iff_of_false ?_ fun h => h.1
  simp [fail]

theorem writes_length32 (n : ℕ) :
    Writes (meter L) (Encoder.length32 L n) (n < 2 ^ 32) (leBytes 4 n) 0 := by
  unfold Encoder.length32
  split
  · rename_i h
    refine (writes_fixed _).congr (iff_of_true trivial h) ?_ rfl
    rw [UInt32.toNat_ofNat', Nat.mod_eq_of_lt h]
  · rename_i h
    exact writes_fail.congr (iff_of_false id h) rfl rfl

/-- The limits a codec starts with are under the ceilings. -/
structure Limits.Valid (L : Limits) : Prop where
  bytes : L.bytes ≤ maxPayload
  allocation : L.allocation ≤ maxPayload
  items : L.items ≤ 1048576
  depth : L.depth ≤ 256

theorem Limits.validate_ok {L L' : Limits} (h : L.validate = .ok L') : L' = L ∧ L.Valid := by
  unfold Limits.validate at h
  split at h
  · cases h
  rename_i hle
  cases h
  simp only [Limits.ceiling, not_or, not_lt] at hle
  exact ⟨rfl, hle.1, hle.2.1, hle.2.2.1, hle.2.2.2.2⟩

/-- What `count_for` charges for `n` entries. -/
def countCost (size n : ℕ) : Charge := ⟨n, n * max (size * 4) 256, 0⟩

theorem writes_countFor (hL : L.Valid) (size n : ℕ) :
    Writes (meter L) (Encoder.countFor L size n) True (leBytes 4 n) (countCost size n) := by
  have h := ((writes_charge (L := L) n (n * max (size * 4) 256)).bind (writes_length32 n)).congr Iff.rfl
    (nil_append _) (add_zero (countCost size n))
  refine h.of_allows ?_
  intro s hs
  have hitems : s.spent.items + n ≤ L.items := hs.2.1
  have := hL.items
  omega

/-- Length-prefixed bytes. -/
def blobWire (b : Bytes) : Bytes := leBytes 4 b.length ++ b

def blobCost (b : Bytes) : Charge := ⟨0, b.length * 8, 0⟩

theorem writes_blob (hL : L.Valid) (b : Bytes) :
    Writes (meter L) (Encoder.blob L b) True (blobWire b) (blobCost b) := by
  have h := ((writes_charge (L := L) 0 (b.length * 8)).bind
    ((writes_length32 b.length).bind (writes_fixed b))).congr
      (show _ ↔ True ∧ b.length < 2 ^ 32 by tauto) (nil_append _)
      (show _ = blobCost b by rw [add_zero, add_zero]; rfl)
  refine h.of_allows ?_
  intro s hs
  have halloc : s.spent.allocation + b.length * 8 ≤ L.allocation := hs.2.2.1
  have := hL.allocation
  rw [maxPayload] at this
  omega

theorem reads_take (n : ℕ) :
    Reads (meter L) (Decoder.take n) fun a w c => w = a ∧ a.length = n ∧ c = 0 := by
  intro s a t hs
  unfold Decoder.take
  split
  · rename_i h
    refine iff_of_false (by simp) ?_
    intro h'
    obtain ⟨w, c, ⟨rfl, hlen, -⟩, hb, -⟩ := h'
    rw [hb, length_append] at h
    omega
  · rename_i h
    constructor
    · intro h'
      cases h'
      refine ⟨s.bytes.take n, 0, ⟨rfl, ?_, rfl⟩, (take_append_drop n s.bytes).symm,
        (add_zero _).symm, hs⟩
      rw [length_take]
      omega
    · intro h'
      obtain ⟨w, c, ⟨rfl, hlen, rfl⟩, hb, hc, -⟩ := h'
      rw [add_zero] at hc
      obtain ⟨bytes, spent⟩ := t
      have hc : spent = s.spent := hc
      have hb : s.bytes = w ++ bytes := hb
      rw [hb, hc, take_left' hlen, drop_left' hlen]

theorem reads_word {α : Type} (n : ℕ) {toNat : α → ℕ} {ofNat : ℕ → α} (hlt : ∀ a, toNat a < 256 ^ n)
    (hof : ∀ a, ofNat (toNat a) = a) (hto : ∀ {k}, k < 256 ^ n → toNat (ofNat k) = k) :
    Reads (meter L) (take n >>= fun bytes => pure (ofNat (leNat bytes)))
      fun a w c => w = leBytes n (toNat a) ∧ c = 0 := by
  refine (Reads.map (reads_take n) fun bytes => ofNat (leNat bytes)).congr fun a w c => ?_
  constructor
  · rintro ⟨bytes, rfl, rfl, rfl, rfl⟩
    rw [hto (leNat_lt w), leBytes_leNat]
    exact ⟨rfl, rfl⟩
  · rintro ⟨rfl, rfl⟩
    exact ⟨_, by rw [leNat_leBytes (hlt a), hof], rfl, length_leBytes _ _, rfl⟩

theorem reads_u8 : Reads (meter L) u8 fun a w c => w = [a] ∧ c = 0 := by
  refine (reads_word 1 UInt8.toNat_lt (fun _ => UInt8.ofNat_toNat)
    fun h => UInt8.toNat_ofNat_of_lt' h).congr fun a w c => ?_
  simp [leBytes]

theorem reads_u32 : Reads (meter L) u32 fun a w c => w = leBytes 4 a.toNat ∧ c = 0 :=
  reads_word 4 UInt32.toNat_lt (fun _ => UInt32.ofNat_toNat) fun h => UInt32.toNat_ofNat_of_lt' h

theorem reads_u64 : Reads (meter L) u64 fun a w c => w = leBytes 8 a.toNat ∧ c = 0 :=
  reads_word 8 UInt64.toNat_lt (fun _ => UInt64.ofNat_toNat) fun h => UInt64.toNat_ofNat_of_lt' h

theorem reads_boolean : Reads (meter L) boolean fun b w c => w = [if b then 1 else 0] ∧ c = 0 := by
  have hbody : ∀ n : UInt8, (if n = 0 then pure false else if n = 1 then pure true
      else fail (.invalid "boolean") : Coding Bool) =
        check fun _ => if n = 0 then .ok false else if n = 1 then .ok true
          else .error (.invalid "boolean") := by
    intro n
    split
    · rfl
    · split
      · rfl
      · rfl
  unfold boolean
  simp only [hbody]
  refine (reads_u8.filter _).congr fun b w c => ?_
  constructor
  · intro h
    obtain ⟨n, hx, rfl, rfl⟩ := h
    split at hx
    · cases hx
      simp_all
    · split at hx
      · cases hx
        simp_all
      · cases hx
  · intro h
    obtain ⟨rfl, rfl⟩ := h
    exact ⟨if b then 1 else 0, by cases b <;> simp, rfl, rfl⟩

theorem length_ok {α : Type} {i a : ℕ → ℕ} {k : ℕ → Coding α} {x : α} {s t : Stream Charge}
    (hs : (meter L).fits s.spent) :
    (do let n ← u32
        available n.toNat
        charge L (i n.toNat) (a n.toNat)
        k n.toNat : Coding α) s = (.ok x, t) ↔
      ∃ n u, n < 2 ^ 32 ∧ s.bytes = leBytes 4 n ++ u.bytes ∧ n ≤ u.bytes.length ∧
        u.spent = s.spent + ⟨i n, a n, 0⟩ ∧ (meter L).fits u.spent ∧ k n u = (.ok x, t) := by
  constructor
  · intro h
    obtain ⟨n, s1, hn, h1⟩ := bind_ok.1 h
    obtain ⟨_, s2, havail, h2⟩ := bind_ok.1 h1
    obtain ⟨_, u, hcharge, hk⟩ := bind_ok.1 h2
    obtain ⟨w, c, ⟨rfl, rfl⟩, hb, hc, hs1⟩ := (reads_u32 s n s1 hs).1 hn
    obtain ⟨hle, rfl⟩ := check_ok.1 havail
    obtain ⟨w, c, ⟨rfl, rfl⟩, hb', hc', hu⟩ := (reads_charge _ _ s2 () u hs1).1 hcharge
    have hle : n.toNat ≤ s2.bytes.length := by
      by_contra hlt
      rw [if_pos (by omega)] at hle
      cases hle
    rw [nil_append] at hb'
    rw [add_zero] at hc
    rw [hc] at hc'
    rw [hb'] at hb hle
    exact ⟨n.toNat, u, n.toNat_lt, hb, hle, hc', hu, hk⟩
  · intro h
    obtain ⟨n, u, hn, hb, hle, hc, hu, h⟩ := h
    have hnat : (UInt32.ofNat n).toNat = n := by
      rw [UInt32.toNat_ofNat', Nat.mod_eq_of_lt hn]
    have h1 : u32 s = (.ok (UInt32.ofNat n), ⟨u.bytes, s.spent⟩) :=
      (reads_u32 (L := L) _ _ _ hs).2 ⟨_, 0, ⟨rfl, rfl⟩, by rw [hnat]; exact hb, (add_zero _).symm, hs⟩
    have h2 : available n ⟨u.bytes, s.spent⟩ = (.ok (), ⟨u.bytes, s.spent⟩) :=
      check_ok.2 ⟨if_neg (by show ¬ u.bytes.length < n; omega), rfl⟩
    have h3 : charge L (i n) (a n) ⟨u.bytes, s.spent⟩ = (.ok (), u) :=
      (reads_charge _ _ ⟨u.bytes, s.spent⟩ () u hs).2 ⟨[], _, ⟨rfl, rfl⟩, rfl, hc, hu⟩
    rw [bind_of_ok h1, hnat, bind_of_ok h2, bind_of_ok h3]
    exact h

theorem countFor_ok {size n : ℕ} {s t : Stream Charge} (hs : (meter L).fits s.spent) :
    countFor L size s = (.ok n, t) ↔ n < 2 ^ 32 ∧ s.bytes = leBytes 4 n ++ t.bytes ∧
      n ≤ t.bytes.length ∧ t.spent = s.spent + countCost size n ∧ (meter L).fits t.spent := by
  unfold countFor
  rw [length_ok (i := fun n => n) (a := fun n => n * max (size * 4) 256) (k := fun n => pure n) hs]
  constructor
  · intro h
    obtain ⟨m, u, hm, hb, hle, hc, hu, h⟩ := h
    cases h
    exact ⟨hm, hb, hle, hc, hu⟩
  · intro h
    exact ⟨n, t, h.1, h.2.1, h.2.2.1, h.2.2.2.1, h.2.2.2.2, rfl⟩

theorem reads_short_blob : Reads (meter L) (blob L) fun a w c =>
    a.length < 2 ^ 32 ∧ w = blobWire a ∧ c = blobCost a := by
  intro s b t hs
  unfold blob
  rw [length_ok (i := fun _ => 0) (a := fun n => n * 8) (k := fun n => Decoder.take n) hs]
  constructor
  · intro h
    obtain ⟨n, u, hn, hb, -, hc, hu, h⟩ := h
    obtain ⟨w, c, ⟨rfl, rfl, rfl⟩, hb', hc', ht⟩ := (reads_take _ u b t hu).1 h
    rw [add_zero, hc] at hc'
    refine ⟨_, _, ⟨hn, rfl, rfl⟩, ?_, hc', ht⟩
    rw [hb, hb', blobWire, append_assoc]
  · intro h
    obtain ⟨w, c, ⟨hlen, rfl, rfl⟩, hb, hc, ht⟩ := h
    refine ⟨b.length, ⟨b ++ t.bytes, t.spent⟩, hlen, ?_, ?_, hc, ht, ?_⟩
    · rw [hb, blobWire, append_assoc]
    · rw [length_append]
      omega
    · exact (reads_take _ ⟨b ++ t.bytes, t.spent⟩ b t ht).2
        ⟨b, 0, ⟨rfl, rfl, rfl⟩, rfl, (add_zero _).symm, ht⟩

theorem reads_blob (hL : L.Valid) :
    Reads (meter L) (blob L) fun a w c => w = blobWire a ∧ c = blobCost a := by
  refine Reads.of_fits (P := fun a => a.length < 2 ^ 32) ?_ ?_
  · exact reads_short_blob
  · intro a w c k h hk
    obtain ⟨-, rfl⟩ := h
    have halloc : k.allocation + a.length * 8 ≤ L.allocation := hk.2.1
    have := hL.allocation
    rw [maxPayload] at this
    omega

/-- The bytes of a text. -/
def utf8Bytes (s : String) : Bytes := s.toByteArray.data.toList

@[simp] theorem length_utf8Bytes (s : String) : (utf8Bytes s).length = s.utf8ByteSize := by
  rw [utf8Bytes, Array.length_toList]
  rfl

theorem fromUTF8_iff {bytes : Bytes} {s : String} :
    String.fromUTF8? ⟨bytes.toArray⟩ = some s ↔ bytes = utf8Bytes s := by
  unfold String.fromUTF8?
  constructor
  · intro h
    split at h
    · cases h
      rfl
    · cases h
  · intro h
    subst h
    exact dif_pos s.isValidUTF8

theorem writes_text (hL : L.Valid) (s : String) :
    Writes (meter L) (Encoder.text L s) True (blobWire (utf8Bytes s)) (blobCost (utf8Bytes s)) :=
  writes_blob hL _

theorem reads_text (hL : L.Valid) : Reads (meter L) (text L) fun s w c =>
    w = blobWire (utf8Bytes s) ∧ c = blobCost (utf8Bytes s) := by
  refine ((reads_blob hL).filter _).congr fun s w c => ?_
  constructor
  · intro h
    obtain ⟨bytes, hx, rfl, rfl⟩ := h
    split at hx
    · rename_i hs
      cases hx
      obtain rfl := fromUTF8_iff.1 hs
      exact ⟨rfl, rfl⟩
    · cases hx
  · intro h
    obtain ⟨rfl, rfl⟩ := h
    refine ⟨utf8Bytes s, ?_, rfl, rfl⟩
    rw [fromUTF8_iff.2 rfl]

end Selene.Logical
