import Mathlib.Data.List.Nodup
import Mathlib.Data.List.Perm.Subperm
import Mathlib.Data.Nat.Digits.Defs
import Selene.Proof.CheckpointAtomic
import Selene.Proof.Tidy

/-!
# A checkpoint after a failed one

When nothing fails, every step of a rotation succeeds on an intact root whose next generation is
free: the control records fit their envelope, the manifest passes its decoder, and the drawn
names are new. A tidy store gets there with one prune. On an orphan no attempt ever succeeds.
-/

namespace Selene.Persist

open Octets Disk Transition List Option Name CurrentSelector Std.ExtTreeMap

variable {N : Native} {t : Traced} {s : Selected} {frames inflight : Frames} {cut k : ℕ} {d e : Dir}

/-! ## Control records fit -/

theorem length_digest (x : Digest) : (Wire.digest.enc x).length = 32 := x.property

theorem length_storeId (x : StoreId) : (Wire.storeId.enc x).length = 16 := x.bytes.property

theorem length_pair {α β : Type} (a : Codec α) (b : Codec β) (x : α × β) :
    ((Codec.pair a b).enc x).length = (a.enc x.1).length + (b.enc x.2).length := length_append

theorem length_record {α β : Type} (c : Codec α) (make : α → β) (fields : β → α)
    (h : ∀ b, make (fields b) = b) (b : β) :
    ((Codec.record c make fields h).enc b).length = (c.enc (fields b)).length := rfl

theorem utf8_ofList (l : List Char) : (String.ofList l).utf8ByteSize ≤ 4 * l.length := by
  induction l with
  | nil => simp
  | cons c l ih =>
    rw [String.ofList_cons, String.utf8ByteSize_append, String.utf8ByteSize_singleton, length_cons]
    have := Char.utf8Size_le_four c
    omega

theorem utf8_padded (n : UInt64) : (padded n).utf8ByteSize ≤ 80 := by
  have hlen : (padded n).length ≤ 20 := by
    have hdigits : (toString n.toNat).length ≤ 20 :=
      Nat.repr_length _ _ (by decide) (by have := n.toNat_lt; omega)
    simp only [padded, String.length_append, String.length_pushn, String.length_empty]
    omega
  have := utf8_ofList (padded n).toList
  rw [String.ofList_toList, String.length_toList] at this
  omega

theorem utf8_manifestName (g : UInt64) : (manifestName g).utf8ByteSize ≤ 97 := by
  have := utf8_padded g
  have h1 : "MANIFEST-".utf8ByteSize = 9 := by decide
  have h2 : ".control".utf8ByteSize = 8 := by decide
  rw [manifestName, String.utf8ByteSize_append, String.utf8ByteSize_append]
  omega

theorem utf8_snapshotName (g : UInt64) : (snapshotName g).utf8ByteSize ≤ 97 := by
  have := utf8_padded g
  have h1 : "SNAPSHOT-".utf8ByteSize = 9 := by decide
  have h2 : ".logical".utf8ByteSize = 8 := by decide
  rw [snapshotName, String.utf8ByteSize_append, String.utf8ByteSize_append]
  omega

variable (N)

theorem length_identity {i : CompatibilityIdentity} (h : i.validate = .ok ()) :
    ((Wire.identity N).enc i).length ≤ 263 := by
  unfold CompatibilityIdentity.validate at h
  split at h
  · cases h
  rename_i hn
  simp only [any_cons, any_nil, Bool.or_false, Bool.or_eq_true, decide_eq_true_eq, not_or] at hn
  simp only [Wire.identity, length_record, length_pair, length_digest]
  have h1 := N.length_text i.profile
  have h2 := N.length_text i.collation
  have h3 := N.length_u32 i.profileVersion
  have h4 := N.length_u32 i.collationVersion
  have h5 := N.length_u16 i.unicodeVersion.1
  have h6 := N.length_u16 i.unicodeVersion.2.1
  have h7 := N.length_u16 i.unicodeVersion.2.2
  omega

theorem length_manifest {m : EmptyManifest} (h : m.identity.validate = .ok ()) :
    ((Wire.manifest N).enc m).length ≤ 348 := by
  have h1 := length_identity N h
  have h2 := N.length_u64 m.epoch
  have h3 := N.length_u64 m.generation
  have h4 := N.length_u16 m.format.1
  have h5 := N.length_u16 m.format.2
  have h6 : ((Codec.option (Wire.parent N)).enc m.parent).length ≤ 43 := by
    cases m.parent with
    | none => simp [Codec.option]
    | some p =>
      have := N.length_u64 p.generation
      simp only [Codec.option, length_cons, Wire.parent, length_record, length_pair, length_digest]
      omega
  simp only [Wire.manifest, length_record, length_pair, length_storeId]
  omega

theorem length_position (p : Position) : ((Wire.position N).enc p).length ≤ 110 := by
  have h1 := N.length_u64 p.epoch
  have h2 := N.length_u64 p.sequence
  have h3 := N.length_u64 p.offset
  simp only [Wire.position, length_record, length_pair, length_storeId, length_digest]
  omega

theorem length_selector {x : CurrentSelector} (h : x.manifestName = manifestName x.generation) :
    ((Wire.selector N).enc x).length ≤ 175 := by
  have h1 := N.length_u64 x.epoch
  have h2 := N.length_u64 x.generation
  have h3 := N.length_text x.manifestName
  have h4 := utf8_manifestName x.generation
  rw [← h] at h4
  simp only [Wire.selector, length_record, length_pair, length_storeId, length_digest]
  omega

theorem length_rotatingManifest {m : RotatingManifest} (hi : m.metadata.identity.validate = .ok ())
    (hname : m.snapshot.name = snapshotName m.metadata.generation)
    (hsel : m.rotation.previous.selector.manifestName =
      manifestName m.rotation.previous.selector.generation) :
    ((Wire.rotatingManifest N).enc m).length ≤ 4000 := by
  have h1 := length_manifest N hi
  have h2 := length_position N m.snapshot.boundary
  have h3 := length_position N m.rotation.base
  have h4 := length_position N m.rotation.snapshotBase
  have h5 := length_position N m.rotation.previous.sealedEnd
  have h6 := length_selector N hsel
  have h7 := N.length_text m.snapshot.name
  have h8 := utf8_snapshotName m.metadata.generation
  have h9 := N.length_u64 m.snapshot.bytes
  have h₀ := N.length_u64 m.snapshot.publication
  rw [← hname] at h8
  simp only [Wire.rotatingManifest, Wire.descriptor, Wire.rotation, length_record, length_pair,
    length_digest]
  omega

variable {N}

theorem Control.encode_fits {α : Type} (c : Codec α) (value : α) (magic : Magic)
    (h : (c.enc value).length ≤ 4000) :
    ∃ bytes, Control.encode N c value magic = .ok bytes := by
  unfold Control.encode
  rw [if_neg (by unfold Dir.maxControl; omega)]
  simp only
  rw [if_neg]
  · exact ⟨_, rfl⟩
  have h1 := N.length_u16 1
  have h2 := N.length_bytes (c.enc value)
  have h3 : ((Codec.fixed 4).enc magic).length = 4 := magic.property
  simp only [Control.envelope, length_record, length_pair, length_digest, Dir.maxControl]
  omega

theorem CurrentSelector.encode_fits {x : CurrentSelector} (h : x.validate = .ok ()) :
    ∃ bytes, x.encode N = .ok bytes := by
  unfold encode
  rw [h]
  exact Control.encode_fits _ _ _ (le_trans (length_selector N (selector_name h)) (by decide))

/-! ## Publication when nothing fails -/

section

variable {n temp dst : Name} {b b' : Bytes}

theorem insert_modify (d : Dir) (n : Name) (b b' : Bytes) :
    (d.insert n b).modify n (· ++ b') = d.insert n (b ++ b') := by
  apply Std.ExtTreeMap.ext_getElem?
  intro m
  by_cases hm : n = m
  · subst hm
    rw [getElem?_modify_self, getElem?_insert_self, getElem?_insert_self]
    rfl
  · rw [getElem?_modify_ne _ _ hm, getElem?_insert_ne _ _ hm, getElem?_insert_ne _ _ hm]

theorem insert_moved (h : temp ∉ d) :
    ((d.insert temp b).erase temp).insert dst b' = d.insert dst b' := by
  apply Std.ExtTreeMap.ext_getElem?
  intro m
  by_cases hm : dst = m
  · subst hm
    rw [getElem?_insert_self, getElem?_insert_self]
  rw [getElem?_insert_ne _ _ hm, getElem?_insert_ne _ _ hm]
  by_cases ht : temp = m
  · subst ht
    rw [getElem?_erase_self, getElem?_eq_none h]
  · rw [getElem?_erase_ne _ ht, getElem?_insert_ne _ _ ht]

theorem runs_sync (d : Dir) : Runs (Dir.sync persistIO) d () d := runs_look rfl

theorem runs_createNew (h : n ∉ d) : Runs (Dir.createNew persistIO n) d () (d.insert n []) :=
  runs_op (if_neg h)

theorem runs_writeAll (d : Dir) (n : Name) (b b' : Bytes) :
    Runs (Dir.writeAll persistIO n b') (d.insert n b) () (d.insert n (b ++ b')) :=
  runs_op (by rw [insert_modify])

theorem runs_publishNew (h : temp ∉ d) (hd : dst ∉ d) (hne : temp ≠ dst) :
    Runs (Dir.publishNew persistIO temp dst) (d.insert temp b) () (d.insert dst b) := by
  refine runs_op ?_
  rw [getElem?_insert_self]
  simp only
  rw [if_neg (by rwa [mem_dir_congr (getElem?_insert_ne _ _ hne)]), insert_moved h]

theorem runs_rename (h : temp ∉ d) :
    Runs (Dir.rename persistIO temp dst) (d.insert temp b) () (d.insert dst b) := by
  refine runs_op ?_
  rw [getElem?_insert_self]
  simp only
  rw [insert_moved h]

theorem runs_observe {α : Type} {read : Dir → Except StreamError α} {a : α} (h : read d = .ok a) :
    Runs (observe read) d a d := runs_look h

theorem runs_stage {id : Uuid} (h : Name.controlTemp id ∉ d) :
    Runs (stage id b) d (.controlTemp id) (d.insert (.controlTemp id) b) := by
  refine (runs_createNew h).bind (Runs.bind (a := .ok ())
    (Runs.attempt ((runs_writeAll d _ [] b).bind (runs_sync _))) ?_)
  exact runs_pure _ _

theorem runs_liftControl {α : Type} {x : Except ControlError α} {a : α} (h : x = .ok a) (d : Dir) :
    Runs (liftControl x) d a d := by
  rw [h]; rfl

theorem runs_liftPersist {α : Type} {x : Except PersistError α} {a : α} (h : x = .ok a) (d : Dir) :
    Runs (liftPersist x) d a d := by
  rw [h]; rfl

end

theorem runs_publishBytes {draws : Draws} {bytes current : Bytes} {selector : CurrentSelector}
    (henc : selector.encode N = .ok current) (hfree : selector.file ∉ d)
    (hm : Name.controlTemp draws.manifestTemp ∉ d) (hc : Name.controlTemp draws.currentTemp ∉ d) :
    Runs (publishBytes N draws bytes selector false) d ()
    ((d.insert selector.file bytes).insert .current current) := by
  have hpub : Runs (publishManifest (.controlTemp draws.manifestTemp) selector.file bytes)
      (d.insert (.controlTemp draws.manifestTemp) bytes) () (d.insert selector.file bytes) := by
    refine Runs.bind (a := .ok ()) (Runs.attempt (runs_publishNew hm hfree (by simp [file]))) ?_
    exact (runs_pure _ _).bind (runs_sync _)
  refine (runs_liftControl henc d).bind (Runs.bind (a := ()) (runs_observe (if_neg hfree))
    ((runs_stage hm).bind ?_))
  refine Runs.bind (a := .ok ()) (Runs.attempt hpub) ?_
  have hc' : Name.controlTemp draws.currentTemp ∉ d.insert selector.file bytes := by
    rwa [mem_dir_congr (getElem?_insert_ne _ _ (by simp [file]))]
  refine (runs_stage hc').bind ?_
  refine Runs.bind (a := .ok ()) (Runs.attempt ?_) (runs_pure _ _)
  exact (runs_rename hc').bind (runs_sync _)

theorem runs_publishSnapshot {draws : Draws} {g : UInt64} {body file : Bytes} {c : SnapshotContext}
    (henc : Snapshot.encode N body c defaultLimit = .ok file) (hv : c.boundary.store.isV4 = true)
    (he : c.boundary.epoch ≠ 0) (hfree : Name.snapshot g ∉ d)
    (ht : Name.snapshotTemp draws.snapshotTemp ∉ d) :
    Runs (publishSnapshot N draws g body c) d (describe g file c)
    (d.insert (.snapshot g) file) := by
  have hdec := Snapshot.decode_encode henc (le_refl _) (le_refl _) hv he
  refine Runs.bind (a := file) (runs_lift (by rw [henc]) d)
    (Runs.bind (a := body) (runs_lift (by rw [hdec]) d) ?_)
  refine (runs_createNew ht).bind ((runs_writeAll d _ [] _).bind
    ((runs_writeAll d _ _ _).bind ((runs_sync _).bind ?_)))
  rw [nil_append, take_append_drop]
  refine Runs.bind (a := body) (runs_observe ?_)
    ((runs_publishNew ht hfree (by simp)).bind ((runs_sync _).bind (runs_pure _ _)))
  rw [openRead_ok.2 (getElem?_insert_self _ _ _)]
  simp only
  rw [take_of_length_le (by omega), hdec]

/-! ## The rotation of an intact root -/

theorem Framed.end_digest (hZ : N.NoZero) {L : ℕ} {p : Position} {bodies : List Bytes}
    (h : Framed N L p bodies frames)
    (hp : p.digest ≠ zeroDigest) : (endPosition p frames).digest ≠ zeroDigest := by
  induction h with
  | nil => exact hp
  | cons _ henc _ hq _ ih =>
    rw [endPosition_cons]
    refine ih ?_
    obtain ⟨_, _, hE⟩ := Frame.encode_spec henc
    obtain ⟨_, -, hq⟩ := bind_eq_some_iff.1 hq
    obtain ⟨_, -, rfl⟩ := map_eq_some_iff.1 hq
    rw [LogicalReader.tailDigest_eq hE]
    exact hZ _

section

variable {c : SnapshotContext} {g : UInt64} {body file : Bytes} {draws : Draws}

theorem Good.snapshot_encodes (hZ : N.NoZero) (h : Good N t s frames inflight cut k)
    (hc : Taken t s frames c) (hbody : body.length ≤ defaultLimit) :
    ∃ file, Snapshot.encode N body c defaultLimit = .ok file := by
  obtain ⟨-, -, hseg⟩ := h.framed.end_kept
  have hctx : Snapshot.validateContext c = .ok () := by
    unfold Snapshot.validateContext
    rw [if_neg]
    push Not
    rw [hc.boundary]
    refine ⟨by rw [hseg]; exact h.sourced.segment, h.framed.end_digest hZ h.sourced.previous,
      fun h0 => ?_⟩
    have hlen := h.framed.end_sequence
    rw [h0, ← h.framed.length] at hlen
    have hnil : frames = [] := length_eq_zero_iff.1 (by have : (0 : UInt64).toNat = 0 := rfl; omega)
    rw [hnil]
    rfl
  unfold Snapshot.encode
  rw [if_neg (by omega), hctx]
  exact ⟨_, rfl⟩

theorem Good.rotation_valid (h : Good N t s frames inflight cut k) (hc : Taken t s frames c)
    (hnext : nextGeneration s.metadata.generation = .ok g)
    (henc : Snapshot.encode N body c defaultLimit = .ok file) (hzero : draws.segment ≠ zeroDigest)
    (hother : draws.segment ≠ s.base.segment) :
    (rotatingManifest s g (describe g file c) c.boundary draws.segment).validate = .ok () := by
  obtain ⟨hstore, hepoch, hseg⟩ := h.framed.end_kept
  obtain ⟨hseg0, hdig0, -⟩ := validateContext_ok henc
  have hend := h.framed.end_sequence
  have hlast := h.boundary_sequence hc
  have hbelow := h.below
  have hag := h.rooted.agrees
  have hsel : s.selector.validate = .ok () := by
    obtain ⟨_, -, -, hdec⟩ := h.rooted.current
    exact (checked_ok hdec).2
  have hgen := nextGeneration_ok hnext
  rw [← hc.boundary] at hstore hepoch hseg hend
  have hst : c.boundary.store = s.metadata.storeId := hstore.trans h.sourced.store
  have hep : c.boundary.epoch = s.metadata.epoch := hepoch.trans h.sourced.epoch
  have hempty : c.boundary.offset = 0 → frames = [] :=
    fun h0 => h.framed.end_zero (hc.boundary ▸ h0)
  unfold RotatingManifest.validate
  rw [show (rotatingManifest s g (describe g file c) c.boundary draws.segment).metadata =
    successor s g from rfl,
    validate_successor h.sourced hnext,
    show (rotatingManifest s g (describe g file c) c.boundary
    draws.segment).rotation.previous.selector = s.selector from rfl,
    hsel]
  simp only
  rw [if_pos]
  refine ⟨hst, hep, rfl, rfl, hstore.symm, hepoch.symm, hseg.symm, rfl, h.sourced.previous,
    h.sourced.segment, ?_, hdig0,
    ⟨fun hs => ?_, fun h0 => ?_⟩, fun h0 => ?_, rfl, ?_, rfl, hzero, ?_, rfl, rfl, ?_, ?_, ?_, ?_,
    rfl, sized_describe henc⟩
  · show s.base.sequence ≤ c.boundary.sequence
    rw [UInt64.le_iff_toNat_le]
    omega
  · have hs : c.boundary.sequence = s.base.sequence := hs
    have hnil : frames = [] := by
      rw [hs, ← h.framed.length] at hend
      exact length_eq_zero_iff.1 (by omega)
    show c.boundary.offset = 0
    rw [hc.boundary, hnil]
    rfl
  · show c.boundary.sequence = s.base.sequence
    rw [hc.boundary, hempty h0]
    rfl
  · show c.boundary.digest = s.base.digest
    rw [hc.boundary, hempty h0]
    rfl
  · show c.boundary.sequence ≠ 0xffffffffffffffff
    intro hmax
    rw [hmax, show (0xffffffffffffffff : UInt64).toNat = 2 ^ 64 - 1 from rfl] at hlast
    omega
  · show draws.segment ≠ c.boundary.segment
    rw [hseg]
    exact hother
  · show s.selector.storeId = c.boundary.store
    rw [hst, hag.storeId]
  · show s.selector.epoch = c.boundary.epoch
    rw [hep, hag.epoch]
  · show s.selector.generation < g
    rw [UInt64.lt_iff_toNat_lt, ← hag.generation]
    omega
  · show some _ = some _
    rw [hag.generation]
    rfl

theorem validate_fromManifest {m : EmptyManifest} (h : m.validate = .ok ()) (x : Digest) :
    (fromManifest m x).validate = .ok () := by
  obtain ⟨-, hid, -, -⟩ := validate_ok h
  unfold validate fromManifest
  rw [if_neg]
  push Not
  exact ⟨by simpa using hid.1, hid.2.1, hid.2.2, rfl⟩

/-- The drawn names are new to the directory, and the segment is another one than that of `s`. -/
structure Draws.New (draws : Draws) (d : Dir) (s : Selected) : Prop where
  snapshotTemp : Name.snapshotTemp draws.snapshotTemp ∉ d
  manifestTemp : Name.controlTemp draws.manifestTemp ∉ d
  currentTemp : Name.controlTemp draws.currentTemp ∉ d
  log : log draws.segment ∉ d
  nonzero : draws.segment ≠ zeroDigest
  other : draws.segment ≠ s.base.segment

/-- **A rotation of an intact root succeeds** when the next generation is free and nothing fails. -/
theorem Good.runs_rotation (hN : N.Lawful) (hZ : N.NoZero) (h : Good N t s frames inflight cut k)
    (hc : Taken t s frames c) (hlater : s.checkpoint.isSome)
    (hsize : t.store.dir.size ≤ Prune.maxArtifacts - 8)
    (hnext : nextGeneration s.metadata.generation = .ok g) (hsnap : Name.snapshot g ∉ t.store.dir)
    (hman : Name.manifest g ∉ t.store.dir) (hnew : draws.New t.store.dir s)
    (hbody : body.length ≤ defaultLimit) :
    ∃ s' d, Runs (publishRotation N draws s body c) t.store.dir s' d := by
  obtain ⟨file, henc⟩ := h.snapshot_encodes hZ hc hbody
  obtain ⟨hv, he⟩ := h.boundary_valid hc
  have hint := h.intact hc.settled
  have hvalid := h.rotation_valid hc hnext henc hnew.nonzero hnew.other
  have hselector := h.rooted.selects.2
  set m := rotatingManifest s g (describe g file c) c.boundary draws.segment with hm
  obtain ⟨bytes, hbytes⟩ : ∃ bytes, Control.encode N (Wire.rotatingManifest N) m rotatingMagic =
    .ok bytes :=
    Control.encode_fits _ _ _ (length_rotatingManifest N h.rooted.identity rfl hselector)
  have hdec : RotatingManifest.decode N bytes = .ok m :=
    checked_of (Control.decode_encode hbytes).1 hvalid
  have hds : RotatingManifest.decodeSelected N bytes
    (.fromManifest m.metadata (N.hash bytes)) s.metadata.identity =
      .ok (m.select (.fromManifest m.metadata (N.hash bytes))) := by
    unfold RotatingManifest.decodeSelected
    rw [checked_of hdec (matchSelector_self (successor s g) _)]
  have hmeta := validate_successor h.sourced hnext
  obtain ⟨current, hcur⟩ : ∃ current, (fromManifest m.metadata (N.hash bytes)).encode N =
    .ok current := by
    exact encode_fits (validate_fromManifest hmeta _)
  have hother : ∀ n : Name, n ≠ .snapshot g →
      (t.store.dir.insert (.snapshot g) file)[n]? = t.store.dir[n]? :=
    fun n hn => getElem?_insert_ne _ _ hn.symm
  have hout : ∀ n : Name, n ≠ .snapshot g → n ≠ .log draws.segment → n ∉ t.store.dir →
      n ∉ (t.store.dir.insert (.snapshot g) file).insert (.log draws.segment) [] := by
    intro n h1 h2 hn
    rwa [mem_dir_congr (getElem?_insert_ne _ _ h2.symm), mem_dir_congr (hother n h1)]
  refine ⟨_, _, Runs.bind (a := ()) (runs_observe (if_neg (by omega)))
    (Runs.bind (a := ()) (runs_observe ?_)
    ((runs_liftPersist hnext _).bind ((runs_publishSnapshot henc hv he hsnap hnew.snapshotTemp).bind
      (Runs.bind (a := ()) (runs_observe ?_) ((runs_sync _).bind ((runs_liftControl hbytes _).bind
        ((runs_liftControl hdec _).bind ((runs_liftControl hds _).bind
          ((runs_createNew ?_).bind ((runs_sync _).bind
          ((runs_sync _).bind ((runs_publishBytes hcur ?_ ?_ ?_).bind (runs_pure _ _)))))))))))))⟩
  · rw [h.rooted.selectIn]
    simp only
    rw [if_neg]
    · exact hint.verify hN h.rooted.manifest_mem (fun q hq => by cases hq; exact hc.boundary) true
    · obtain ⟨x, hx⟩ := isSome_iff_exists.1 hlater
      simp [hx]
  · rw [openRead_ok.2 (hother s.logFile (logFile_ne s _).symm ▸ hint.log_file)]
    simp only
    rw [if_neg]
    rw [not_not, hc.boundary, hint.log.framed.end_offset]
    exact (Nat.zero_add _).symm
  · rw [mem_dir_congr (hother _ (by simp [Selected.logFile, RotatingManifest.select]))]
    exact hnew.log
  · exact hout (.manifest g) (by simp) (by simp) hman
  · exact hout _ (by simp) (by simp) hnew.manifestTemp
  · exact hout _ (by simp) (by simp) hnew.currentTemp

end

/-! ## New names -/

theorem exists_not_mem {α : Type} {f : ℕ → α} {l : List α}
    (hf : ∀ i j, i ≤ l.length → j ≤ l.length → f i = f j → i = j) : ∃ i, f i ∉ l := by
  by_contra hall
  push Not at hall
  have hnodup : ((List.range (l.length + 1)).map f).Nodup := by
    refine List.Nodup.map_on (fun i hi j hj hij => hf i j ?_ ?_ hij) nodup_range
    · have := mem_range.1 hi
      omega
    · have := mem_range.1 hj
      omega
  have hsub : (List.range (l.length + 1)).map f ⊆ l := by
    intro x hx
    obtain ⟨i, -, rfl⟩ := mem_map.1 hx
    exact hall i
  have := (subperm_of_subset hnodup hsub).length_le
  rw [length_map, length_range] at this
  omega

def numbered (w n : ℕ) : { b : Bytes // b.length = w } := ⟨leBytes w n, length_leBytes w n⟩

theorem numbered_injective {w i j : ℕ} (hi : i < 256 ^ w) (hj : j < 256 ^ w)
    (h : numbered w i = numbered w j) : i = j :=
  leBytes_injective hi hj (congrArg Subtype.val h)

theorem exists_new (s : Selected) (hsize : d.size ≤ Prune.maxArtifacts) :
    ∃ draws : Draws, draws.New d s := by
  have hlen : d.keys.length ≤ 4096 := by rw [length_keys]; exact hsize
  have h16 : 5000 < 256 ^ 16 := by decide
  have h32 : 5000 < 256 ^ 32 := by decide
  obtain ⟨i, hi⟩ := exists_not_mem (f := fun n => Name.snapshotTemp (numbered 16 n)) (l := d.keys)
    fun i j hi hj h => numbered_injective (by omega) (by omega) (Name.snapshotTemp.inj h)
  obtain ⟨j, hj⟩ := exists_not_mem (f := fun n => Name.controlTemp (numbered 16 n)) (l := d.keys)
    fun i j hi hj h => numbered_injective (by omega) (by omega) (Name.controlTemp.inj h)
  obtain ⟨n, hn⟩ := exists_not_mem (f := fun n => log (numbered 32 n))
    (l := d.keys ++ [.log zeroDigest, .log s.base.segment])
    fun i j hi hj h => by
      rw [length_append] at hi hj
      simp only [length_cons, length_nil] at hi hj
      exact numbered_injective (by omega) (by omega) (log.inj h)
  simp only [mem_append, mem_cons, not_mem_nil, or_false, not_or, log.injEq] at hn
  rw [Std.ExtTreeMap.mem_keys] at hi hj hn
  exact ⟨⟨numbered 16 i, numbered 16 j, numbered 16 j, numbered 32 n⟩, hi, hj, hj, hn.1, hn.2.1,
    hn.2.2⟩

/-! ## The theorem -/

theorem checkpointReady_established (p : Position) (content : Bytes) :
    (LogicalWal.established p content).checkpointReady = .ok () := by
  unfold LogicalWal.checkpointReady LogicalWal.established
  simp

theorem Good.never (hN : N.Lawful) (h : Good N t s frames inflight cut k)
    (ho : Orphaned t.store.dir s) {bs : List Action} {t' : Traced}
    (hrun : run (Traced.stepBelow N) t bs = some t') (draws : Draws) (acquire : Option PersistError)
    (body : Bytes) (publication : UInt64) (fs : List Fault) (r : Selected) :
    (t'.store.checkpoint N draws acquire body publication fs).1 ≠ .done r := by
  have hinv : ∃ frames inflight cut, Good N t' s frames inflight cut k ∧
      Orphaned t'.store.dir s := by
    refine run_invariant (I := fun t => ∃ frames inflight cut, Good N t s frames inflight cut k ∧
      Orphaned t.store.dir s)
      (fun {t a t'} hs hi => ?_) hrun ⟨frames, inflight, cut, h, ho⟩
    unfold Traced.stepBelow at hs
    split at hs
    · cases hs
      obtain ⟨_, _, _, hg, ho⟩ := hi
      exact hg.stuck hN ho ‹_›
    · cases hs
  obtain ⟨_, _, _, hg, ho'⟩ := hinv
  exact (hg.orphan_checkpoint ho' draws acquire body publication fs).1 r

theorem Good.retry (hN : N.Lawful) (hZ : N.NoZero) (h : Good N t s frames inflight cut k)
    (ht : Tidy N t.store.dir s frames) (hready : t.store.wal.checkpointReady = .ok ())
    (hlater : s.checkpoint.isSome) (hsize : t.store.dir.size ≤ Prune.maxArtifacts - 8)
    (hgen : s.metadata.generation.toNat + 1 < 2 ^ 64) {body : Bytes}
    (hbody : body.length ≤ defaultLimit) (publication : UInt64) :
    ∃ draws r, ((t.step N (.prune none [] [])).store.checkpoint N draws none body publication
      []).1 = .done r := by
  have hlive := checkpointReady_live hready
  obtain ⟨hsel, hnil, -⟩ := h.live hlive
  obtain ⟨g, hg⟩ : ∃ g, nextGeneration s.metadata.generation = .ok g := by
    unfold nextGeneration
    cases hc : checkedAdd s.metadata.generation 1 with
    | none => exact absurd (checkedAdd_eq_none.1 hc) (by omega)
    | some g => exact ⟨g, rfl⟩
  -- the prune
  have hmax : Prune.maxArtifacts - 8 ≤ Prune.maxArtifacts := Nat.sub_le _ _
  obtain ⟨p, hplan⟩ := ht.plan hN h.rooted h.sourced (h.intact hnil) (le_trans hsize hmax)
  obtain ⟨report, hprune, -, -⟩ := Prune.runs_prune hplan
  obtain ⟨hsnap, hman⟩ := ht.pruned h.rooted h.sourced hplan hg
  have hstore : (t.step N (.prune none [] [])).store =
      { t.store with dir := Prune.unlinked t.store.dir (Prune.pending t.store.dir p) } := by
    rw [Traced.step]
    unfold Store.prune
    rw [if_neg (by simp [hlive]), hsel, show Prune.prune N [] s t.store.dir [] = _ from hprune,
      ← hsel]
  have hgood := h.prune none [] []
  generalize t.step N (.prune none [] []) = t' at hstore hgood ⊢
  have hdir : t'.store.dir = Prune.unlinked t.store.dir
      (Prune.pending t.store.dir p) := by rw [hstore]
  have hwal : t'.store.wal = t.store.wal := by rw [hstore]
  rw [← hdir] at hsnap hman
  -- the checkpoint
  have hsize' : t'.store.dir.size ≤ Prune.maxArtifacts - 8 :=
    hdir ▸ le_trans Prune.size_unlinked hsize
  obtain ⟨hsel', hnil', hlink⟩ := hgood.live (by rw [hwal]; exact hlive)
  obtain ⟨draws, hnew⟩ := exists_new (d := t'.store.dir) s (le_trans hsize' hmax)
  obtain ⟨r, d, hrun⟩ := hgood.runs_rotation hN hZ
    (c := ⟨t'.store.wal.progress.synchronized, publication⟩)
    ⟨hlink.synchronized, hnil'⟩ hlater hsize' hg hsnap hman hnew hbody
  refine ⟨draws, r, ?_⟩
  unfold Store.checkpoint Store.publish
  rw [hsel', if_pos hlater, show publishRotation N draws s body _ t'.store.dir [] = _ from hrun,
    hwal, hready]

/-- The run up to a reopening that succeeds. -/
structure Resumed (N : Native) (t : Traced) (r : Reopened) : Prop where
  orderly : Orderly N t
  opened : reopen N t.store.dir t.identity defaultLimit = .ok r

/-- The reopened store holds the selected root, established and behind a snapshot. -/
theorem Resumed.good (hN : N.Lawful) {r : Reopened} (h : Resumed N t r) : ∃ frames k,
    Good N (t.step N .reopen) r.selected frames [] 0 k ∧ r.selected.checkpoint.isSome ∧
      (t.step N .reopen).store.dir = t.store.dir ∧
        (t.step N .reopen).store.wal.checkpointReady = .ok () ∧
      (Tidy N t.store.dir r.selected frames ∨ Orphaned t.store.dir r.selected) := by
  obtain ⟨s, frames, inflight, cut, k, hg, hor⟩ := h.orderly
  obtain ⟨more, hg', -, hlater, hstore⟩ := hg.reopened hN h.opened
  have hsel : r.selected = s := by
    have : (t.step N .reopen).store.selected = r.selected := by rw [Traced.step, h.opened]
    rw [← this, hstore]
  rw [hsel]
  refine ⟨_, k, hg', hlater, by rw [hstore], ?_, ?_⟩
  · rw [hstore]
    exact checkpointReady_established _ _
  rcases hor with ht | ho
  · exact .inl (ht.mono (fun _ _ _ => .inl rfl) (fun _ _ _ _ _ _ _ => rfl) ht.paired more)
  · exact .inr ho

theorem Resumed.never (hN : N.Lawful) {r : Reopened} (h : Resumed N t r)
    (ho : Orphaned t.store.dir r.selected) {bs : List Action} {t' : Traced}
    (hrun : run (Traced.stepBelow N) (t.step N .reopen) bs = some t') (draws : Draws)
    (acquire : Option PersistError) (body : Bytes) (publication : UInt64) (fs : List Fault)
    (root : Selected) :
    (t'.store.checkpoint N draws acquire body publication fs).1 ≠ .done root := by
  obtain ⟨frames, k, hg, -, hdir, -, -⟩ := h.good hN
  exact hg.never hN (hdir.symm ▸ ho) hrun draws acquire body publication fs root

theorem Resumed.retry (hN : N.Lawful) (hZ : N.NoZero) {r : Reopened} (h : Resumed N t r)
    (hno : ¬ Orphaned t.store.dir r.selected) (hsize : t.store.dir.size ≤ Prune.maxArtifacts - 8)
    (hgen : r.selected.metadata.generation.toNat + 1 < 2 ^ 64) {body : Bytes}
    (hbody : body.length ≤ defaultLimit) (publication : UInt64) : ∃ draws root,
      (((t.step N .reopen).step N (.prune none [] [])).store.checkpoint N draws none body
        publication []).1 = .done root := by
  obtain ⟨frames, k, hg, hlater, hdir, hready, hor⟩ := h.good hN
  have ht := hor.resolve_right hno
  exact hg.retry hN hZ (hdir.symm ▸ ht) hready hlater (hdir.symm ▸ hsize) hgen hbody publication

section

variable (hN : N.Lawful) (hZ : N.NoZero) {emptyDraws logDraws : Draws}
    {identity : CompatibilityIdentity} {storeId : StoreId} {st : Store} (hv4 : storeId.isV4 = true)
    (hseg : logDraws.segment ≠ zeroDigest)
    (hcreate : Store.create N emptyDraws logDraws identity storeId = some st) {as : List Action}
      {t : Traced}
    (hrun : run (Traced.stepReady N) (.initial st) as = some t) {r : Reopened}
    (hopen : reopen N t.store.dir t.identity defaultLimit = .ok r)

include hN hZ hv4 hseg hcreate hrun hopen

theorem resumed_of_run : Resumed N t r :=
  ⟨run_orderly hN hrun ⟨_, _, _, _, _, good_initial hZ hv4 hseg hcreate,
    .inl (tidy_initial hZ hv4 hseg hcreate)⟩, hopen⟩

/-- **A checkpoint can be retried unless an interrupted one has left a snapshot without its
manifest.** In every run of commits, checkpoints, prunes and reopens, however each of them fails, a
store that reopens either can be pruned and then checkpointed, or is left with an orphan and
fails every later checkpoint. -/
theorem checkpoint_retry (hsize : t.store.dir.size ≤ Prune.maxArtifacts - 8)
    (hgen : r.selected.metadata.generation.toNat + 1 < 2 ^ 64) :
    (¬ Orphaned t.store.dir r.selected → ∀ body publication, body.length ≤ defaultLimit →
      ∃ draws root,
        (((t.step N .reopen).step N (.prune none [] [])).store.checkpoint N draws none body
          publication []).1 = .done root) ∧
      (Orphaned t.store.dir r.selected → ∀ bs t',
        run (Traced.stepBelow N) (t.step N .reopen) bs = some t' →
        ∀ draws acquire body publication fs root,
          (t'.store.checkpoint N draws acquire body publication fs).1 ≠ .done root) := by
  have h := resumed_of_run hN hZ hv4 hseg hcreate hrun hopen
  constructor
  · intro hno body publication hbody
    exact h.retry hN hZ hno hsize hgen hbody publication
  · intro ho bs t' hbs draws acquire body publication fs root
    exact h.never hN ho hbs draws acquire body publication fs root

end

/-! ## Two interrupted rotations -/

namespace Sample

/-- A first checkpoint, and a second one that dies in its operation `n`. -/
def interruptedAt (n : ℕ) : List Action :=
  [.checkpoint (drawn 21) none [1, 2] 5 [], .checkpoint (drawn 31) none [3] 6
    (List.replicate n .ok ++ [.crash 0])]

def resumeAt (n : ℕ) : Option (Traced × Reopened) :=
  match run (Traced.stepReady native) (.initial created) (interruptedAt n) with
  | none => none
  | some t => (reopen native t.store.dir t.identity defaultLimit).toOption.map fun r => (t, r)

theorem resumeAt_isSome (n : ℕ) (h : (resumeAt n).isSome = true) :
    run (Traced.stepReady native) (.initial created) (interruptedAt n)
    = some ((resumeAt n).get h).1 ∧
      reopen native ((resumeAt n).get h).1.store.dir ((resumeAt n).get h).1.identity defaultLimit =
        .ok ((resumeAt n).get h).2 := by
  obtain ⟨⟨t, r⟩, ht⟩ := isSome_iff_exists.1 h
  have hget : (resumeAt n).get h = (t, r) := get_of_eq_some h ht
  rw [hget]
  unfold resumeAt at ht
  split at ht
  · cases ht
  · rename_i t' hrun
    obtain ⟨r', hr', heq⟩ := map_eq_some_iff.1 ht
    cases heq
    exact ⟨hrun, toOption_eq_some.1 hr'⟩

theorem resumes : (resumeAt 9).isSome = true ∧ (resumeAt 20).isSome = true := by decide +kernel

/-- The store whose second checkpoint died behind its snapshot, and its reopening. -/
@[irreducible] def orphan : Traced × Reopened := (resumeAt 9).get resumes.1

/-- The store whose second checkpoint died behind its manifest, and its reopening. -/
@[irreducible] def leftover : Traced × Reopened := (resumeAt 20).get resumes.2

theorem resumed_files :
    (Name.snapshot 4 ∈ leftover.1.store.dir ∧ Name.manifest 4 ∈ leftover.1.store.dir ∧
      leftover.1.store.dir.size ≤ Prune.maxArtifacts - 8 ∧
        leftover.2.selected.metadata.generation = 3 ∧
      ¬ Orphaned leftover.1.store.dir leftover.2.selected) ∧
    Name.snapshot 4 ∈ orphan.1.store.dir ∧ Name.manifest 4 ∉ orphan.1.store.dir ∧
      Orphaned orphan.1.store.dir orphan.2.selected := by decide +kernel

end Sample

open Sample in
/-- A rotation that died between its manifest and `CURRENT` is pruned away and retried. -/
theorem checkpoint_retry_sample :
    Name.snapshot 4 ∈ leftover.1.store.dir ∧ Name.manifest 4 ∈ leftover.1.store.dir ∧
    ∃ draws root, (((leftover.1.step native .reopen).step native
      (.prune none [] [])).store.checkpoint native draws none
      [9] 6 []).1 = .done root := by
  have hspec := resumeAt_isSome 20 resumes.2
  rw [show (resumeAt 20).get resumes.2 = leftover from by unfold leftover; rfl] at hspec
  obtain ⟨hsnap, hman, hsize, hgen, hno⟩ := resumed_files.1
  refine ⟨hsnap, hman, ?_⟩
  exact (checkpoint_retry native_lawful native_noZero (by decide) (by decide) create_eq hspec.1
    hspec.2 hsize
    (by rw [hgen]; decide)).1 hno [9] 6 (by decide)

open Sample in
/-- **An orphaned snapshot ends all checkpoints.** The first checkpoint of the run succeeds. The
second one dies when it has published its snapshot. The store reopens, and whatever is done then,
no checkpoint succeeds any more. -/
theorem orphan_never_checkpointed :
    run (Traced.stepReady native) (.initial created) (interruptedAt 9) = some orphan.1 ∧
      reopen native orphan.1.store.dir orphan.1.identity defaultLimit = .ok orphan.2 ∧
      Name.snapshot 4 ∈ orphan.1.store.dir ∧ Name.manifest 4 ∉ orphan.1.store.dir ∧
      ∀ bs t', run (Traced.stepBelow native) (orphan.1.step native .reopen) bs = some t' →
        ∀ draws acquire body publication fs root,
          (t'.store.checkpoint native draws acquire body publication fs).1 ≠ .done root := by
  have hspec := resumeAt_isSome 9 resumes.1
  rw [show (resumeAt 9).get resumes.1 = orphan from by unfold orphan; rfl] at hspec
  obtain ⟨hsnap, hman, ho⟩ := resumed_files.2
  refine ⟨hspec.1, hspec.2, hsnap, hman, fun bs t' hbs draws acquire body publication fs root => ?_⟩
  have h := resumed_of_run native_lawful native_noZero (by decide)
    (by decide) create_eq hspec.1 hspec.2
  exact h.never native_lawful ho hbs draws acquire body publication fs root

end Selene.Persist
