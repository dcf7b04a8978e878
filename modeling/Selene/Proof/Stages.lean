import Selene.Persist.Store
import Selene.Proof.RootReading

/-!
# The stages of a publication

A publication writes staged files and renames them into place, one artifact after
another. `Upto e d`: the directory is `e` but for staged files. Whatever fails, and
wherever the process dies, the directory is one of a handful of stages up to staged files:
before, with the new snapshot, with the new segment, with the new manifest, and with
`CURRENT` replaced (`spec_publishRotation`, `spec_publishCheckpoint`).
-/

namespace Selene.Persist

open Octets Disk Dir Spec Std.ExtTreeMap

def Name.isTemp : Name → Bool
  | .controlTemp _ => true
  | .snapshotTemp _ => true
  | _ => false

/-- `d` is `e` but for staged files. -/
def Upto (e d : Dir) : Prop := ∀ n : Name, n.isTemp = false → d[n]? = e[n]?

variable {N : Native} {e d : Dir} {n temp dst : Name} {b : Bytes}

theorem Upto.refl (d : Dir) : Upto d d := fun _ _ => rfl

theorem Upto.mem (h : Upto e d) (hn : n.isTemp = false) : n ∈ d ↔ n ∈ e := mem_dir_congr (h n hn)

theorem ne_of_isTemp (ht : temp.isTemp = true) (hn : n.isTemp = false) : temp ≠ n := by
  rintro rfl
  rw [ht] at hn
  cases hn

theorem getElem?_insert_self (d : Dir) (n : Name) (b : Bytes) : (d.insert n b)[n]? = some b := by
  rw [getElem?_insert]; simp

theorem getElem?_insert_ne (d : Dir) {m : Name} (b : Bytes) (h : m ≠ n) : (d.insert m b)[n]? = d[n]? := by
  rw [getElem?_insert, if_neg]
  intro hc
  exact h (Std.LawfulEqCmp.eq_of_compare hc)

theorem getElem?_erase_ne (d : Dir) {m : Name} (h : m ≠ n) : (d.erase m)[n]? = d[n]? := by
  rw [getElem?_erase, if_neg]
  intro hc
  exact h (Std.LawfulEqCmp.eq_of_compare hc)

theorem getElem?_modify_self (d : Dir) (n : Name) (f : Bytes → Bytes) : (d.modify n f)[n]? = d[n]?.map f := by
  rw [getElem?_modify]; simp

theorem getElem?_modify_ne (d : Dir) {m : Name} (f : Bytes → Bytes) (h : m ≠ n) : (d.modify m f)[n]? = d[n]? := by
  rw [getElem?_modify, if_neg]
  intro hc
  exact h (Std.LawfulEqCmp.eq_of_compare hc)

theorem Upto.moved (h : Upto e d) (dst : Name) (b : Bytes) (ht : temp.isTemp = true) : Upto (e.insert dst b) ((d.erase temp).insert dst b) := by
  intro n hn
  by_cases hd : dst = n
  · subst hd
    rw [getElem?_insert_self, getElem?_insert_self]
  · rw [getElem?_insert_ne _ _ hd, getElem?_insert_ne _ _ hd, getElem?_erase_ne _ (ne_of_isTemp ht hn)]
    exact h n hn

/-! ## Operations on staged files -/

theorem spec_liftControl {α : Type} {x : Except ControlError α} {I : Dir → Prop} {E : StreamError → Dir → Prop}
    {C : Dir → Prop} (hE : ∀ err d, I d → E err d) : Spec I (liftControl x) ⟨fun a d => x = .ok a ∧ I d, E, C⟩ := by
  cases x with
  | error err => exact spec_throw fun d hd => hE _ d hd
  | ok a => exact spec_pure fun d hd => ⟨rfl, hd⟩

theorem spec_liftPersist {α : Type} {x : Except PersistError α} {I : Dir → Prop} {E : StreamError → Dir → Prop}
    {C : Dir → Prop} (hE : ∀ err d, I d → E err d) : Spec I (liftPersist x) ⟨fun a d => x = .ok a ∧ I d, E, C⟩ := by
  cases x with
  | error err => exact spec_throw fun d hd => hE _ d hd
  | ok a => exact spec_pure fun d hd => ⟨rfl, hd⟩

theorem spec_observe {α : Type} {read : Dir → Except StreamError α} {I S : Dir → Prop}
    (hS : ∀ d, I d → S d) : Spec I (observe read) ⟨fun _ => I, fun _ => S, S⟩ :=
  spec_look (fun _ _ h _ => h) (fun _ _ h => hS _ h) hS

theorem spec_syncs {I S : Dir → Prop} (hS : ∀ d, I d → S d) :
    Spec I (sync persistIO) ⟨fun _ => I, fun _ => S, S⟩ :=
  spec_look (fun _ _ h _ => h) (fun _ _ h => hS _ h) hS

section

variable (ht : temp.isTemp = true)
include ht

theorem spec_createTemp :
    Spec (Upto e) (createNew persistIO temp) ⟨fun _ d => Upto e d ∧ d[temp]? = some [], fun _ => Upto e, Upto e⟩ := by
  have hup : ∀ {d}, Upto e d → Upto e (d.insert temp []) := fun h n hn => by
    rw [getElem?_insert_ne _ _ (ne_of_isTemp ht hn)]; exact h n hn
  refine spec_atomic (fun d _ d' hd h => ?_) (fun d _ hd _ => hd) fun d hd => ⟨hd, hd⟩
  split at h
  · cases h
  · cases h
    exact ⟨⟨hup hd, getElem?_insert_self _ _ _⟩, hup hd, hup hd⟩

theorem spec_writeTemp (content bytes : Bytes) :
    Spec (fun d => Upto e d ∧ d[temp]? = some content) (writeAll persistIO temp bytes)
      ⟨fun _ d => Upto e d ∧ d[temp]? = some (content ++ bytes), fun _ => Upto e, Upto e⟩ := by
  have hup : ∀ {d f}, Upto e d → Upto e (d.modify temp f) := fun h n hn => by
    rw [getElem?_modify_ne _ _ (ne_of_isTemp ht hn)]; exact h n hn
  refine spec_op (fun d _ d' hd h => ?_) (fun d _ _ h => by cases h) (fun d _ hd => hup hd.1) fun d _ hd => hup hd.1
  cases h
  exact ⟨hup hd.1, by rw [getElem?_modify_self, hd.2]; rfl⟩

theorem spec_removeTemp :
    Spec (Upto e) (remove persistIO temp) ⟨fun _ => Upto e, fun _ => Upto e, Upto e⟩ := by
  have hup : ∀ {d}, Upto e d → Upto e (d.erase temp) := fun h n hn => by
    rw [getElem?_erase_ne _ (ne_of_isTemp ht hn)]; exact h n hn
  refine spec_atomic (fun d _ d' hd h => ?_) (fun d _ hd _ => hd) fun d hd => ⟨hd, hd⟩
  split at h
  · cases h
    exact ⟨hup hd, hup hd, hup hd⟩
  · cases h

theorem spec_discard : Spec (Upto e) (discard temp) ⟨fun _ => Upto e, fun _ => Upto e, Upto e⟩ := by
  refine spec_bind (spec_attempt (spec_removeTemp ht)) fun x => spec_pure fun d hd => ?_
  cases x <;> exact hd

end

/-- A staged file is there with its bytes. -/
def Staged (e : Dir) (temp : Name) (bytes : Bytes) (d : Dir) : Prop := Upto e d ∧ d[temp]? = some bytes

theorem spec_stage (id : Uuid) (bytes : Bytes) : Spec (Upto e) (stage id bytes)
      ⟨fun n d => n = .controlTemp id ∧ Staged e n bytes d, fun _ => Upto e, Upto e⟩ := by
  have hwrite : Spec (fun d => Upto e d ∧ d[Name.controlTemp id]? = some [])
      (do writeAll persistIO (.controlTemp id) bytes; sync persistIO)
      ⟨fun _ => Staged e (.controlTemp id) bytes, fun _ => Upto e, Upto e⟩ :=
    spec_bind (spec_writeTemp rfl [] bytes) fun _ =>
      spec_syncs (I := Staged e (.controlTemp id) bytes) fun _ h => h.1
  refine spec_bind (spec_createTemp rfl) fun _ => spec_bind (spec_attempt hwrite) fun x => ?_
  cases x with
  | ok _ => exact spec_pure fun d h => ⟨rfl, h⟩
  | error err => exact spec_bind (spec_discard rfl) fun _ => spec_throw fun d h => h

/-! ## Publication under a final name -/

/-- The name is free, or holds these bytes already. -/
def Fits (e : Dir) (n : Name) (bytes : Bytes) : Prop := e[n]? = none ∨ e[n]? = some bytes

/-- The two sides of a step that puts `bytes` under `dst`. -/
def Across (e : Dir) (dst : Name) (bytes : Bytes) (d : Dir) : Prop :=
  Upto e d ∨ (Fits e dst bytes ∧ Upto (e.insert dst bytes) d)

theorem Upto.same (h : Upto e d) (hb : e[n]? = some b) : Upto (e.insert n b) d := by
  intro m hm
  by_cases hn : n = m
  · subst hn
    rw [getElem?_insert_self, h n hm, hb]
  · rw [getElem?_insert_ne _ _ hn]
    exact h m hm

theorem fits_of_not_mem (h : n ∉ e) : Fits e n b := .inl (getElem?_eq_none h)

/-- The two sides of a rename that replaces nothing. -/
def Moved (e : Dir) (dst : Name) (bytes : Bytes) (d : Dir) : Prop :=
  Upto e d ∨ (dst ∉ e ∧ Upto (e.insert dst bytes) d)

theorem Moved.across {bytes : Bytes} (h : Moved e dst bytes d) : Across e dst bytes d :=
  h.imp id fun h => ⟨fits_of_not_mem h.1, h.2⟩

theorem spec_publishNew (e : Dir) (temp dst : Name) (ht : temp.isTemp = true) (hd : dst.isTemp = false) (bytes : Bytes) :
    Spec (Staged e temp bytes) (publishNew persistIO temp dst)
      ⟨fun _ d => dst ∉ e ∧ Upto (e.insert dst bytes) d,
       fun err d => Moved e dst bytes d ∧ (err = .persist .alreadyExists → Upto e d), Moved e dst bytes⟩ := by
  refine spec_atomic (fun d _ d' hs h => ?_) (fun d err hs h => ⟨.inl hs.1, fun _ => hs.1⟩)
    fun d hs => ⟨⟨.inl hs.1, fun h => by cases h⟩, .inl hs.1⟩
  rw [hs.2] at h
  simp only at h
  split at h
  · cases h
  · rename_i hn
    cases h
    have hmoved : dst ∉ e ∧ Upto (e.insert dst bytes) ((d.erase temp).insert dst bytes) :=
      ⟨fun h => hn ((hs.1.mem hd).2 h), hs.1.moved dst bytes ht⟩
    exact ⟨hmoved, ⟨.inr hmoved, fun h => by cases h⟩, .inr hmoved⟩

theorem spec_rename (ht : temp.isTemp = true) (bytes : Bytes) :
    Spec (Staged e temp bytes) (rename persistIO temp dst)
      ⟨fun _ => Upto (e.insert dst bytes), fun _ d => Upto e d ∨ Upto (e.insert dst bytes) d,
       fun d => Upto e d ∨ Upto (e.insert dst bytes) d⟩ := by
  refine spec_atomic (fun d _ d' hs h => ?_) (fun d err hs h => .inl hs.1) fun d hs => ⟨.inl hs.1, .inl hs.1⟩
  rw [hs.2] at h
  cases h
  have hup := hs.1.moved dst bytes ht
  exact ⟨hup, .inr hup, .inr hup⟩

theorem sameBytes_fits {bytes : Bytes} (h : sameBytes n bytes d = .ok ()) : d[n]? = some bytes := by
  unfold sameBytes at h
  split at h
  · cases h
  rename_i b hb
  split at h
  · rename_i heq
    rw [readBounded_ok hb, heq]
  · cases h

/-- The bytes are published, or found there. -/
abbrev placing (e : Dir) (dst : Name) (bytes : Bytes) : Post Dir StreamError Unit :=
  ⟨fun _ d => Fits e dst bytes ∧ Upto (e.insert dst bytes) d, fun _ => Across e dst bytes, Across e dst bytes⟩

theorem spec_publishManifest (e : Dir) (temp dst : Name) (ht : temp.isTemp = true) (hd : dst.isTemp = false) (bytes : Bytes) :
    Spec (Staged e temp bytes) (publishManifest temp dst bytes)
      (placing e dst bytes) := by
  have hend : Spec (fun d => Fits e dst bytes ∧ Upto (e.insert dst bytes) d) (sync persistIO)
      (placing e dst bytes) :=
    spec_syncs fun _ h => .inr h
  have hsame : Spec (Upto e) (do
      observe (sameBytes dst bytes)
      sync persistIO
      remove persistIO temp
      sync persistIO)
      (placing e dst bytes) := by
    refine spec_bind (R := fun _ d => e[dst]? = some bytes ∧ Upto e d)
      (spec_look (fun d _ hup h => ⟨?_, hup⟩) (fun _ _ h => .inl h) fun _ h => .inl h) fun _ => ?_
    · rw [← hup dst hd]
      exact sameBytes_fits h
    refine of_eq fun d1 hd1 => ?_
    refine spec_bind (R := fun _ d => d = d1)
      (spec_syncs fun _ h => .inl (h ▸ hd1.2))
      fun _ => ?_
    refine spec_bind (mono (spec_removeTemp (e := e) ht) (fun d h => h ▸ hd1.2)
      (fun _ _ h => ⟨.inr hd1.1, h.same hd1.1⟩) (fun _ _ h => .inl h) fun _ h => .inl h) fun _ => hend
  refine spec_bind (spec_attempt (mono (spec_publishNew e temp dst ht hd bytes) (fun _ h => h) (fun _ _ h => h)
    (fun _ _ h => h) fun _ h => h.across)) fun x => ?_
  cases x with
  | ok _ => exact mono hend (fun d h => ⟨fits_of_not_mem h.1, h.2⟩) (fun _ _ h => h) (fun _ _ h => h) fun _ h => h
  | error err =>
    by_cases herr : err = .persist .alreadyExists
    · subst herr
      exact mono hsame (fun d h => h.2 rfl) (fun _ _ h => h) (fun _ _ h => h) fun _ h => h
    · simp only
      exact spec_bind (spec_throw fun d h => h.1.across) fun _ => hend

/-- `CURRENT` is the old one or the new one. -/
abbrev swapping (e : Dir) (bytes : Bytes) : Post Dir StreamError Unit :=
  ⟨fun _ => Upto (e.insert .current bytes), fun _ d => Upto e d ∨ Upto (e.insert .current bytes) d,
   fun d => Upto e d ∨ Upto (e.insert .current bytes) d⟩

theorem spec_replaceCurrent (e : Dir) (initial : Bool) (temp : Name) (ht : temp.isTemp = true) (bytes : Bytes) :
    Spec (Staged e temp bytes) (replaceCurrent initial temp)
      (swapping e bytes) := by
  have hput : Spec (Staged e temp bytes)
      (if initial then publishNew persistIO temp .current else rename persistIO temp .current)
      (swapping e bytes) := by
    cases initial with
    | false => exact spec_rename ht bytes
    | true =>
      exact mono (spec_publishNew e temp .current ht rfl bytes) (fun _ h => h) (fun _ _ h => h.2)
        (fun _ _ h => h.1.imp id And.right) fun _ h => h.imp id And.right
  have hswap : Spec (Staged e temp bytes)
      (do
        if initial then publishNew persistIO temp .current else rename persistIO temp .current
        sync persistIO)
      (swapping e bytes) := by
    have hsync : Spec (Upto (e.insert .current bytes)) (sync persistIO) (swapping e bytes) :=
      spec_syncs fun _ h => .inr h
    cases initial <;> exact spec_bind hput fun _ => hsync
  have hdiscard : Spec (fun d => Upto e d ∨ Upto (e.insert .current bytes) d) (discard temp)
      ⟨fun _ d => Upto e d ∨ Upto (e.insert .current bytes) d, fun _ d => Upto e d ∨ Upto (e.insert .current bytes) d,
       fun d => Upto e d ∨ Upto (e.insert .current bytes) d⟩ := by
    exact or
      (mono (spec_discard (e := e) ht) (fun _ h => h) (fun _ _ h => .inl h) (fun _ _ h => .inl h) fun _ h => .inl h)
      (mono (spec_discard (e := e.insert .current bytes) ht) (fun _ h => h) (fun _ _ h => .inr h)
        (fun _ _ h => .inr h) fun _ h => .inr h)
  refine spec_bind (spec_attempt hswap) fun x => ?_
  cases x with
  | ok _ => exact spec_pure fun d h => h
  | error err =>
    refine spec_bind hdiscard fun _ => ?_
    split <;> exact spec_throw fun d h => h

section

variable (N : Native) (e : Dir) (bytes : Bytes) (selector : CurrentSelector) (d : Dir)

/-- The manifest and the selector are in place. -/
def Published : Prop :=
  ∃ current, selector.encode N = .ok current ∧ Fits e selector.file bytes ∧
    Upto ((e.insert selector.file bytes).insert .current current) d

/-- Where a publication of control files may stop. -/
def Publishing : Prop :=
  Across e selector.file bytes d ∨ Published N e bytes selector d

end

theorem spec_publishBytes (draws : Draws) (bytes : Bytes) (selector : CurrentSelector) (initial : Bool) :
    Spec (Upto e) (publishBytes N draws bytes selector initial)
      ⟨fun _ => Published N e bytes selector, fun _ => Publishing N e bytes selector, Publishing N e bytes selector⟩ := by
  have hman : selector.file.isTemp = false := rfl
  refine spec_bind (spec_liftControl fun _ _ h => .inl (.inl h)) fun current => fact fun henc => ?_
  refine spec_bind (spec_observe fun _ h => .inl (.inl h)) fun _ => ?_
  refine spec_bind (R := fun n d => n = .controlTemp draws.manifestTemp ∧ Staged e n bytes d)
    (stops (spec_stage (e := e) draws.manifestTemp bytes) fun _ h => .inl (.inl h)) fun temp => fact fun htemp => ?_
  subst htemp
  refine spec_bind (R := Settled (fun _ d => Fits e selector.file bytes ∧ Upto (e.insert selector.file bytes) d)
      fun _ => Across e selector.file bytes)
    (spec_attempt (mono (spec_publishManifest e (.controlTemp draws.manifestTemp) _ rfl hman bytes)
      (fun d h => h) (fun _ _ h => h) (fun _ _ h => h) fun _ h => .inl h)) fun x => ?_
  have hmore : Spec (fun d => Fits e selector.file bytes ∧ Upto (e.insert selector.file bytes) d)
      (stage draws.currentTemp current >>= replaceCurrent initial)
      ⟨fun _ => Published N e bytes selector, fun _ => Publishing N e bytes selector, Publishing N e bytes selector⟩ := by
    refine fact fun hfit => ?_
    have hmid : ∀ {d}, Upto (e.insert selector.file bytes) d → Publishing N e bytes selector d :=
      fun h => .inl (.inr ⟨hfit, h⟩)
    have hdone : ∀ {d}, Upto ((e.insert selector.file bytes).insert .current current) d →
        Published N e bytes selector d := fun h => ⟨current, henc, hfit, h⟩
    refine spec_bind (stops (spec_stage draws.currentTemp current) fun _ h => hmid h) fun temp => fact fun htemp => ?_
    subst htemp
    exact mono (spec_replaceCurrent _ initial _ rfl current) (fun _ h => h) (fun _ _ h => hdone h)
      (fun _ _ h => h.elim hmid fun h => .inr (hdone h)) fun _ h => h.elim hmid fun h => .inr (hdone h)
  cases x with
  | error err =>
    -- the staged manifest is removed, and the error is the caller's
    refine spec_bind (R := fun _ => Across e selector.file bytes) ?_ fun _ => spec_bind (spec_throw fun d h => .inl h)
      fun _ => hmore
    refine or ?_ (fact fun hfit => ?_)
    · exact mono (spec_discard rfl) (fun _ h => h) (fun _ _ h => .inl h) (fun _ _ h => .inl (.inl h))
        fun _ h => .inl (.inl h)
    · exact mono (spec_discard rfl) (fun _ h => h) (fun _ _ h => .inr ⟨hfit, h⟩)
        (fun _ _ h => .inl (.inr ⟨hfit, h⟩)) fun _ h => .inl (.inr ⟨hfit, h⟩)
  | ok _ => exact hmore

/-! ## Snapshots -/

/-- The descriptor of a published snapshot. -/
def describe (generation : UInt64) (file : Bytes) (c : SnapshotContext) : SnapshotDescriptor :=
  ⟨snapshotName generation, UInt64.ofNat file.length, tailDigest file, c.boundary, c.publication⟩

section

variable (N : Native) (e : Dir) (generation : UInt64) (body : Bytes) (c : SnapshotContext)

/-- The snapshot is in place. -/
def Snapped (file : Bytes)
    (d : Dir) : Prop :=
  Snapshot.encode N body c defaultLimit = .ok file ∧ Name.snapshot generation ∉ e ∧
    Upto (e.insert (.snapshot generation) file) d

def Snapping (d : Dir) : Prop :=
  Upto e d ∨ ∃ file, Snapped N e generation body c file d

end

theorem spec_publishSnapshot (draws : Draws) (generation : UInt64) (body : Bytes) (c : SnapshotContext) :
    Spec (Upto e) (publishSnapshot N draws generation body c)
      ⟨fun s d => ∃ file, s = describe generation file c ∧ Snapped N e generation body c file d,
       fun _ => Snapping N e generation body c, Snapping N e generation body c⟩ := by
  refine spec_bind (R := fun file d => Snapshot.encode N body c defaultLimit = .ok file ∧ Upto e d) ?_
    fun file => fact fun henc => ?_
  · refine spec_lift (fun file d h hd => ⟨?_, hd⟩) fun _ d _ hd => .inl hd
    split at h
    · cases h
    · cases h; assumption
  refine spec_bind (R := fun _ => Upto e) (spec_lift (fun _ d _ hd => hd) fun _ d _ hd => .inl hd) fun _ => ?_
  have htemp : (Name.snapshotTemp draws.snapshotTemp).isTemp = true := rfl
  have hfile : Name.isTemp (.snapshot generation) = false := rfl
  refine spec_bind (stops (spec_createTemp (e := e) htemp) fun _ h => .inl h) fun _ => ?_
  refine spec_bind (stops (spec_writeTemp (e := e) htemp [] _) fun _ h => .inl h) fun _ => ?_
  refine spec_bind (R := fun _ => Staged e (.snapshotTemp draws.snapshotTemp) file)
    (mono (spec_writeTemp (e := e) htemp (file.take (file.length / 2)) (file.drop (file.length / 2)))
      (fun _ h => h) (fun _ d h => ?_) (fun _ _ h => .inl h) fun _ h => .inl h) fun _ => ?_
  · rw [List.take_append_drop] at h
    exact h
  refine spec_bind (R := fun _ => Staged e (.snapshotTemp draws.snapshotTemp) file)
    (spec_syncs fun _ h => .inl h.1) fun _ => ?_
  refine spec_bind (R := fun _ => Staged e (.snapshotTemp draws.snapshotTemp) file)
    (spec_look (fun _ _ h _ => h) (fun _ _ h => .inl h.1) fun _ h => .inl h.1) fun _ => ?_
  have hsnap : ∀ {d}, Moved e (.snapshot generation) file d → Snapping N e generation body c d :=
    fun h => h.imp id fun h => ⟨file, henc, h⟩
  refine spec_bind (mono (spec_publishNew e _ _ htemp hfile file) (fun _ h => h) (fun _ _ h => h)
    (fun _ _ h => hsnap h.1) fun _ h => hsnap h) fun _ => fact fun hn => ?_
  refine spec_bind (R := fun _ => Upto (e.insert (.snapshot generation) file))
    (spec_syncs fun _ h => .inr ⟨file, henc, hn, h⟩) fun _ => ?_
  exact spec_pure fun d h => ⟨file, rfl, henc, hn, h⟩

theorem spec_createNew (e : Dir) (dst : Name) (hd : dst.isTemp = false) :
    Spec (Upto e) (createNew persistIO dst)
      ⟨fun _ d => dst ∉ e ∧ Upto (e.insert dst []) d, fun _ => Moved e dst [], Moved e dst []⟩ := by
  refine spec_atomic (fun d _ d' hup h => ?_) (fun d _ hup _ => .inl hup) fun d hup => ⟨.inl hup, .inl hup⟩
  split at h
  · cases h
  · rename_i hn
    cases h
    have hmoved : dst ∉ e ∧ Upto (e.insert dst []) (d.insert dst []) := by
      refine ⟨fun h => hn ((hup.mem hd).2 h), fun n hn => ?_⟩
      by_cases hdn : dst = n
      · subst hdn; rw [getElem?_insert_self, getElem?_insert_self]
      · rw [getElem?_insert_ne _ _ hdn, getElem?_insert_ne _ _ hdn]; exact hup n hn
    exact ⟨hmoved, .inr hmoved, .inr hmoved⟩

/-! ## Roots -/

/-- What a publication knows about the root it writes: its manifest, and the selection that the
manifest's bytes decode to. -/
structure Successor (N : Native) (previous : Selected) (c : SnapshotContext) (generation : UInt64)
    (file bytes : Bytes) (s : Selected) : Prop where
  next : nextGeneration previous.metadata.generation = .ok generation
  selector : s.selector = .fromManifest (successor previous generation) (N.hash bytes)
  metadata : s.metadata = successor previous generation
  checkpoint : s.checkpoint = some (describe generation file c)

/-- The root of a rotation; its manifest has passed the decoder before it is written. -/
structure Rotated (N : Native) (draws : Draws) (previous : Selected) (c : SnapshotContext) (generation : UInt64)
    (file bytes : Bytes) (s : Selected) : Prop where
  successor : Successor N previous c generation file bytes s
  encoded : Control.encode N (Wire.rotatingManifest N)
    (rotatingManifest previous generation (describe generation file c) c.boundary draws.segment) rotatingMagic = .ok bytes
  valid : (rotatingManifest previous generation (describe generation file c) c.boundary draws.segment).validate = .ok ()
  selected : s = (rotatingManifest previous generation (describe generation file c) c.boundary draws.segment).select
    (.fromManifest (Persist.successor previous generation) (N.hash bytes))

variable (draws : Draws) (previous : Selected) (body : Bytes) (c : SnapshotContext)

/-- The directory when a rotation's snapshot and segment are in place. -/
def rotationBase (e : Dir) (generation : UInt64) (file : Bytes) (s : Selected) : Dir :=
  (e.insert (.snapshot generation) file).insert s.logFile []

/-- Where a rotation may stop. -/
inductive Rotating (N : Native) (e d : Dir) : Prop where
  | before (h : Upto e d)
  | snapped {generation : UInt64} {file : Bytes} (next : nextGeneration previous.metadata.generation = .ok generation)
      (h : Snapped N e generation body c file d)
  | publishing {generation : UInt64} {file bytes : Bytes} {s : Selected}
      (root : Rotated N draws previous c generation file bytes s)
      (encoded : Snapshot.encode N body c defaultLimit = .ok file) (free : Name.snapshot generation ∉ e)
      (freeLog : s.logFile ∉ e) (h : Publishing N (rotationBase e generation file s) bytes s.selector d)

/-- Where a rotation ends. -/
def RotationDone (N : Native) (e : Dir) (s : Selected) (d : Dir) : Prop :=
  ∃ generation file bytes, Rotated N draws previous c generation file bytes s ∧
    Snapshot.encode N body c defaultLimit = .ok file ∧ Name.snapshot generation ∉ e ∧ s.logFile ∉ e ∧
    Published N (rotationBase e generation file s) bytes s.selector d

variable {draws previous body c}

theorem rotated_of_decode {generation : UInt64} {file bytes : Bytes} {s : Selected}
    (hnext : nextGeneration previous.metadata.generation = .ok generation)
    (henc : Control.encode N (Wire.rotatingManifest N)
      (rotatingManifest previous generation (describe generation file c) c.boundary draws.segment) rotatingMagic = .ok bytes)
    (hs : RotatingManifest.decodeSelected N bytes (.fromManifest (successor previous generation) (N.hash bytes))
      previous.metadata.identity = .ok s) : Rotated N draws previous c generation file bytes s := by
  unfold RotatingManifest.decodeSelected at hs
  split at hs
  · cases hs
  rename_i m hm
  obtain ⟨hdec, hv⟩ := checked_ok (checked_ok hm).1
  rw [(Control.decode_encode henc).1] at hdec
  cases hdec
  cases hs
  exact ⟨⟨hnext, rfl, rfl, rfl⟩, henc, hv, rfl⟩

theorem spec_publishRotation (draws : Draws) (previous : Selected) (body : Bytes) (c : SnapshotContext) (e : Dir) :
    Spec (Upto e) (publishRotation N draws previous body c)
      ⟨RotationDone draws previous body c N e, fun _ => Rotating draws previous body c N e,
       Rotating draws previous body c N e⟩ := by
  refine spec_bind (spec_observe fun _ h => .before h) fun _ => ?_
  refine spec_bind (spec_observe fun _ h => .before h) fun _ => ?_
  refine spec_bind (spec_liftPersist fun _ _ h => .before h) fun g => fact fun hnext => ?_
  have hsnap : ∀ {d}, Snapping N e g body c d → Rotating draws previous body c N e d := by
    rintro d (h | ⟨file, h⟩)
    · exact .before h
    · exact .snapped hnext h
  refine spec_bind (stops (spec_publishSnapshot draws g body c) fun _ h => hsnap h) fun snapshot => ?_
  refine of_eq fun d1 h1 => ?_
  obtain ⟨file, rfl, henc, hfree, hup⟩ := h1
  set e1 := e.insert (.snapshot g) file with he1
  have hmid : ∀ {d}, Upto e1 d → Rotating draws previous body c N e d := fun h => .snapped hnext ⟨henc, hfree, h⟩
  refine mono (P := Upto e1) ?_ (fun d h => h ▸ hup) (fun _ _ h => h) (fun _ _ h => h) fun _ h => h
  refine spec_bind (spec_observe fun _ h => hmid h) fun _ => ?_
  refine spec_bind (spec_syncs fun _ h => hmid h) fun _ => ?_
  refine spec_bind (spec_liftControl fun _ _ h => hmid h) fun bytes => fact fun hbytes => ?_
  refine spec_bind (spec_liftControl fun _ _ h => hmid h) fun _ => fact fun _ => ?_
  refine spec_bind (spec_liftControl fun _ _ h => hmid h) fun s => fact fun hs => ?_
  have hroot := rotated_of_decode hnext hbytes hs
  have hlogTemp : s.logFile.isTemp = false := by rw [hroot.selected]; rfl
  have hpub : ∀ {d}, s.logFile ∉ e1 → Publishing N (e1.insert s.logFile []) bytes s.selector d →
      Rotating draws previous body c N e d := fun hlog h =>
    .publishing hroot henc hfree (fun hmem => hlog (mem_insert.2 (.inr hmem))) h
  have hmoved : ∀ {d}, Moved e1 s.logFile [] d → Rotating draws previous body c N e d := by
    rintro d (h | ⟨hn, h⟩)
    · exact hmid h
    · exact hpub hn (.inl (.inl h))
  refine spec_bind (stops (spec_createNew e1 s.logFile hlogTemp) fun _ h => hmoved h) fun _ => fact fun hlog => ?_
  refine spec_bind (spec_syncs fun _ h => hpub hlog (.inl (.inl h))) fun _ => ?_
  refine spec_bind (spec_syncs fun _ h => hpub hlog (.inl (.inl h))) fun _ => ?_
  refine spec_bind (stops (spec_publishBytes draws bytes s.selector false) fun _ h => hpub hlog h) fun _ => ?_
  exact spec_pure fun d h => ⟨g, file, bytes, hroot, henc, hfree,
    fun hmem => hlog (mem_insert.2 (.inr hmem)), h⟩

/-! ### The first checkpoint -/

/-- The manifest of a first checkpoint. -/
def dataManifest (previous : Selected) (generation : UInt64) (snapshot : SnapshotDescriptor) : DataManifest :=
  ⟨successor previous generation, previous.context.segment, previous.context.previous, snapshot⟩

structure Checkpointed (N : Native) (previous : Selected) (c : SnapshotContext) (generation : UInt64)
    (file bytes : Bytes) (s : Selected) : Prop where
  successor : Successor N previous c generation file bytes s
  encoded : Control.encode N (Wire.dataManifest N) (dataManifest previous generation (describe generation file c)) dataMagic =
    .ok bytes
  selected : s = (dataManifest previous generation (describe generation file c)).select
    (.fromManifest (Persist.successor previous generation) (N.hash bytes))

variable (previous body c) in
/-- Where a first checkpoint may stop. -/
inductive Checkpointing (N : Native) (e d : Dir) : Prop where
  | before (h : Upto e d)
  | snapped {generation : UInt64} {file : Bytes} (next : nextGeneration previous.metadata.generation = .ok generation)
      (h : Snapped N e generation body c file d)
  | publishing {generation : UInt64} {file bytes : Bytes} {s : Selected}
      (root : Checkpointed N previous c generation file bytes s)
      (encoded : Snapshot.encode N body c defaultLimit = .ok file) (free : Name.snapshot generation ∉ e)
      (h : Publishing N (e.insert (.snapshot generation) file) bytes s.selector d)

variable (previous body c) in
/-- Where a first checkpoint ends. -/
def CheckpointDone (N : Native) (e : Dir) (s : Selected) (d : Dir) : Prop :=
  ∃ generation file bytes, Checkpointed N previous c generation file bytes s ∧
    Snapshot.encode N body c defaultLimit = .ok file ∧ Name.snapshot generation ∉ e ∧
    Published N (e.insert (.snapshot generation) file) bytes s.selector d

theorem spec_publishCheckpoint (draws : Draws) (previous : Selected) (body : Bytes) (c : SnapshotContext) (e : Dir) :
    Spec (Upto e) (publishCheckpoint N draws previous body c)
      ⟨CheckpointDone previous body c N e, fun _ => Checkpointing previous body c N e,
       Checkpointing previous body c N e⟩ := by
  refine spec_bind (spec_observe fun _ h => .before h) fun _ => ?_
  refine spec_bind (spec_liftPersist fun _ _ h => .before h) fun g => fact fun hnext => ?_
  have hsnap : ∀ {d}, Snapping N e g body c d → Checkpointing previous body c N e d := by
    rintro d (h | ⟨file, h⟩)
    · exact .before h
    · exact .snapped hnext h
  refine spec_bind (stops (spec_publishSnapshot draws g body c) fun _ h => hsnap h) fun snapshot => ?_
  refine of_eq fun d1 h1 => ?_
  obtain ⟨file, rfl, henc, hfree, hup⟩ := h1
  set e1 := e.insert (.snapshot g) file with he1
  have hmid : ∀ {d}, Upto e1 d → Checkpointing previous body c N e d := fun h => .snapped hnext ⟨henc, hfree, h⟩
  refine mono (P := Upto e1) ?_ (fun d h => h ▸ hup) (fun _ _ h => h) (fun _ _ h => h) fun _ h => h
  refine spec_bind (spec_liftControl fun _ _ h => hmid h) fun bytes => fact fun hbytes => ?_
  set s := (dataManifest previous g (describe g file c)).select (.fromManifest (successor previous g) (N.hash bytes))
    with hs
  have hroot : Checkpointed N previous c g file bytes s := ⟨⟨hnext, rfl, rfl, rfl⟩, hbytes, hs⟩
  have hpub : ∀ {d}, Publishing N e1 bytes s.selector d → Checkpointing previous body c N e d :=
    fun h => .publishing hroot henc hfree h
  refine spec_bind (stops (spec_publishBytes draws bytes s.selector false) fun _ h => hpub h) fun _ => ?_
  refine mono (spec_liftControl (I := Published N e1 bytes s.selector)
    (C := Checkpointing previous body c N e) fun _ _ h => hpub (.inr h)) (fun _ h => h) (fun s' d h => ?_) (fun _ _ h => h)
    fun _ h => h
  obtain ⟨hdec, hd⟩ := h
  have : s' = s := by
    unfold DataManifest.decodeSelected at hdec
    split at hdec
    · cases hdec
    rename_i m hm
    have := (checked_ok (checked_ok hm).1).1
    rw [(Control.decode_encode hbytes).1] at this
    cases this
    cases hdec
    rfl
  exact ⟨g, file, bytes, this ▸ hroot, henc, hfree, this ▸ hd⟩

end Selene.Persist
