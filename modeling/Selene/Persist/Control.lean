import Selene.Base.Disk
import Selene.Persist.Wal
import Std.Data.ExtTreeMap
import Std.Data.ExtTreeMap.Lemmas

/-!
# Store control records and the store directory

`control/types.rs`, `control/codec.rs` and `store_directory.rs`: the identities and
control records of a store, their bounded Postcard envelope, and the directory that
holds them. Names are kept in parsed form; a name outside the families of the format
is `foreign`. Every entry is a regular file with one link, as the directory requires.
-/

namespace Selene.Persist

open Octets Disk

/-! ## Names -/

/-- A UUID's 16 bytes. -/
abbrev Uuid := { b : Bytes // b.length = 16 }

inductive Name where
  /-- `.control.{uuid}.tmp` -/
  | controlTemp (id : Uuid)
  /-- `.snapshot.{uuid}.tmp` -/
  | snapshotTemp (id : Uuid)
  /-- `CURRENT` -/
  | current
  /-- `LOCK` -/
  | lock
  /-- `MANIFEST-{:020}.control` -/
  | manifest (generation : UInt64)
  /-- `MANIFEST.lock` -/
  | manifestLock
  /-- `SNAPSHOT-{:020}.logical` -/
  | snapshot (generation : UInt64)
  /-- `WAL-00000000000000000001.logical` -/
  | firstLog
  /-- `WAL-{64 hex digits}.logical` -/
  | log (segment : Digest)
  | foreign (text : String)
deriving DecidableEq

namespace Name

/-- The sort key: families in the order of their texts. -/
def key : Name → List ℕ
  | controlTemp id => 0 :: id.val.map UInt8.toNat
  | snapshotTemp id => 1 :: id.val.map UInt8.toNat
  | current => [2]
  | lock => [3]
  | manifest g => [4, g.toNat]
  | manifestLock => [5]
  | snapshot g => [6, g.toNat]
  | firstLog => [7]
  | log segment => 8 :: segment.val.map UInt8.toNat
  | foreign text => 9 :: text.toList.map Char.toNat

theorem key_injective : Function.Injective key := by
  have hb : ∀ {a b : Bytes}, a.map UInt8.toNat = b.map UInt8.toNat → a = b := fun h =>
    List.map_injective_iff.2 (fun _ _ => UInt8.toNat_inj.1) h
  intro a b h
  cases a <;> cases b <;>
    first
    | rfl
    | (exfalso; simp [key] at h; done)
    | (simp only [key, List.cons.injEq, true_and, and_true] at h
       first
       | exact congrArg _ (Subtype.ext (hb h))
       | exact congrArg _ (UInt64.toNat_inj.1 h)
       | exact congrArg _ (String.toList_inj.1
           (List.map_injective_iff.2 (fun _ _ h => Char.ext (UInt32.toNat_inj.1 h)) h)))

def cmp : Name → Name → Ordering := compareOn key

instance : Std.TransCmp cmp := inferInstanceAs (Std.TransCmp (compareOn key))

instance : Std.LawfulEqCmp cmp where
  eq_of_compare h := key_injective (Std.LawfulEqOrd.eq_of_compare (a := key _) h)

end Name

/-! ## The directory -/

abbrev Dir := Std.ExtTreeMap Name Bytes Name.cmp

namespace Dir

def openRead (d : Dir) (n : Name) : Except PersistError Bytes :=
  match d[n]? with
  | none => .error .notFound
  | some b => .ok b

/-- `MAX_CONTROL_BYTES`. -/
def maxControl : ℕ := 4096

def readBounded (d : Dir) (n : Name) : Except PersistError Bytes :=
  match d.openRead n with
  | .error e => .error e
  | .ok b => if maxControl < b.length then .error (.control .tooLarge) else .ok b

variable {ε : Type} (io : PersistError → ε)

/-- `openat` with `O_EXCL`. -/
def createNew (n : Name) : Prog Dir ε Unit :=
  .atomic (io .io) fun d => if n ∈ d then .error (io .alreadyExists) else .ok ((), d.insert n [])

/-- `write_all` at the end of the file that was created under `n`. -/
def writeAll (n : Name) (bytes : Bytes) : Prog Dir ε Unit :=
  .op (io .io) (fun k d => d.modify n (· ++ bytes.take k)) fun d => .ok ((), d.modify n (· ++ bytes))

/-- `sync_all` on a file or on the directory: it can only fail. -/
def sync : Prog Dir ε Unit := .look (io .io) fun _ => .ok ()

/-- `renameat2` with `RENAME_NOREPLACE`. -/
def publishNew (src dst : Name) : Prog Dir ε Unit :=
  .atomic (io .io) fun d =>
    match d[src]? with
    | none => .error (io .notFound)
    | some b => if dst ∈ d then .error (io .alreadyExists) else .ok ((), (d.erase src).insert dst b)

def rename (src dst : Name) : Prog Dir ε Unit :=
  .atomic (io .io) fun d =>
    match d[src]? with
    | none => .error (io .notFound)
    | some b => .ok ((), (d.erase src).insert dst b)

def remove (n : Name) : Prog Dir ε Unit :=
  .atomic (io .io) fun d => if n ∈ d then .ok ((), d.erase n) else .error (io .notFound)

end Dir

/-! ## Control records -/

structure CompatibilityIdentity where
  profile : String
  profileVersion : UInt32
  profileHash : Digest
  unicodeVersion : UInt16 × UInt16 × UInt16
  collation : String
  collationVersion : UInt32
deriving DecidableEq

def isControl (c : Char) : Bool := c.toNat < 0x20 || (0x7f ≤ c.toNat && c.toNat ≤ 0x9f)

def CompatibilityIdentity.validate (i : CompatibilityIdentity) : Except ControlError Unit :=
  if [i.profile, i.collation].any fun name =>
      name.isEmpty || 96 < name.utf8ByteSize || name.toList.any isControl then
    .error .compatibility
  else .ok ()

structure Parent where
  generation : UInt64
  digest : Digest
deriving DecidableEq

structure EmptyManifest where
  storeId : StoreId
  epoch : UInt64
  generation : UInt64
  format : UInt16 × UInt16
  identity : CompatibilityIdentity
  parent : Option Parent
deriving DecidableEq

def StoreId.isZero (id : StoreId) : Bool := id.bytes.val == List.replicate 16 0

def EmptyManifest.validate (m : EmptyManifest) : Except ControlError Unit :=
  if m.format ≠ (2, 0) then .error .unsupportedVersion
  else if m.storeId.isZero ∨ m.epoch = 0 ∨ m.generation = 0 then .error .lineage
  else
    match m.parent with
    | none => if m.generation = 1 then m.identity.validate else .error .lineage
    | some parent =>
      if parent.generation ≠ 0 ∧ checkedAdd parent.generation 1 = some m.generation then
        m.identity.validate
      else .error .lineage

/-- `{:020}`. -/
def padded (n : UInt64) : String :=
  let digits := toString n.toNat
  "".pushn '0' (20 - digits.length) ++ digits

def manifestName (generation : UInt64) : String := "MANIFEST-" ++ padded generation ++ ".control"
def snapshotName (generation : UInt64) : String := "SNAPSHOT-" ++ padded generation ++ ".logical"

/-- `ManifestGeneration::next`. -/
def nextGeneration (g : UInt64) : Except PersistError UInt64 :=
  match checkedAdd g 1 with
  | none => .error (.control .generationExhausted)
  | some g => .ok g

structure CurrentSelector where
  storeId : StoreId
  epoch : UInt64
  generation : UInt64
  manifestName : String
  digest : Digest
deriving DecidableEq

namespace CurrentSelector

def fromManifest (m : EmptyManifest) (digest : Digest) : CurrentSelector :=
  ⟨m.storeId, m.epoch, m.generation, Persist.manifestName m.generation, digest⟩

def validate (s : CurrentSelector) : Except ControlError Unit :=
  if s.storeId.isZero ∨ s.epoch = 0 ∨ s.generation = 0 ∨
      s.manifestName ≠ Persist.manifestName s.generation then .error .lineage
  else .ok ()

/-- The file a validated selector names. -/
def file (s : CurrentSelector) : Name := .manifest s.generation

end CurrentSelector

/-! ## The envelope -/

namespace Wire

open Codec

variable (N : Native)

def digest : Codec Digest := fixed 32

def storeId : Codec StoreId := record (fixed 16) StoreId.mk StoreId.bytes fun _ => rfl

def identity : Codec CompatibilityIdentity :=
  record (pair N.text (pair N.u32 (pair digest (pair (pair N.u16 (pair N.u16 N.u16)) (pair N.text N.u32)))))
    (fun (p, pv, ph, uv, c, cv) => ⟨p, pv, ph, uv, c, cv⟩)
    (fun i => (i.profile, i.profileVersion, i.profileHash, i.unicodeVersion, i.collation, i.collationVersion))
    fun _ => rfl

def parent : Codec Parent :=
  record (pair N.u64 digest) (fun (g, d) => ⟨g, d⟩) (fun p => (p.generation, p.digest)) fun _ => rfl

def manifest : Codec EmptyManifest :=
  record (pair storeId (pair N.u64 (pair N.u64 (pair (pair N.u16 N.u16) (pair (identity N) (option (parent N)))))))
    (fun (s, e, g, f, i, p) => ⟨s, e, g, f, i, p⟩)
    (fun m => (m.storeId, m.epoch, m.generation, m.format, m.identity, m.parent)) fun _ => rfl

def selector : Codec CurrentSelector :=
  record (pair storeId (pair N.u64 (pair N.u64 (pair N.text digest))))
    (fun (s, e, g, n, d) => ⟨s, e, g, n, d⟩)
    (fun s => (s.storeId, s.epoch, s.generation, s.manifestName, s.digest)) fun _ => rfl

end Wire

/-- The four magic bytes of a control record. -/
abbrev Magic := { b : Bytes // b.length = 4 }

structure Envelope where
  magic : Magic
  version : UInt16
  body : Bytes
  digest : Digest

namespace Control

variable {α : Type} (N : Native)

def envelope : Codec Envelope :=
  .record (.pair (.fixed 4) (.pair N.u16 (.pair N.bytes Wire.digest)))
    (fun (m, v, b, d) => ⟨m, v, b, d⟩) (fun e => (e.magic, e.version, e.body, e.digest)) fun _ => rfl

def encode (c : Codec α) (value : α) (magic : Magic) : Except ControlError Bytes :=
  let body := c.enc value
  if Dir.maxControl < body.length then .error .tooLarge
  else
    let bytes := (envelope N).enc ⟨magic, 1, body, N.hash body⟩
    if Dir.maxControl < bytes.length then .error .tooLarge else .ok bytes

def decode (c : Codec α) (bytes : Bytes) (magic : Magic) : Except ControlError α :=
  if Dir.maxControl < bytes.length then .error .tooLarge
  else
    match (envelope N).dec bytes with
    | none => .error (.envelope "framing")
    | some (e, tail) =>
      if tail ≠ [] ∨ e.magic ≠ magic then .error (.envelope "magic or trailing bytes")
      else if N.hash e.body ≠ e.digest then .error .checksum
      else if e.version ≠ 1 then .error .unsupportedVersion
      else
        match c.dec e.body with
        | none => .error (.envelope "payload")
        | some (value, tail) =>
          if tail ≠ [] then .error (.envelope "payload trailing bytes") else .ok value

theorem decode_encode {N : Native} {c : Codec α} {value : α} {magic : Magic} {bytes : Bytes}
    (h : encode N c value magic = .ok bytes) :
    decode N c bytes magic = .ok value ∧ bytes.take 4 = magic.val ∧ bytes.length ≤ Dir.maxControl := by
  simp only [encode] at h
  split at h
  · cases h
  rename_i hbody
  split at h
  · cases h
  rename_i hlen
  cases h
  have hmax : Dir.maxControl < 2 ^ 64 := by decide
  have henv := (envelope N).dec_enc (a := ⟨magic, 1, c.enc value, N.hash (c.enc value)⟩) [] (by omega)
  have hval := c.dec_enc (a := value) [] (by omega)
  rw [List.append_nil] at henv hval
  refine ⟨?_, ?_, by omega⟩
  · unfold decode
    rw [if_neg hlen, henv]
    simp [hval]
  · simp [envelope, Codec.record, Codec.pair, Codec.fixed, magic.property]

end Control

/-- `SLEM`. -/
def emptyMagic : Magic := ⟨[0x53, 0x4c, 0x45, 0x4d], rfl⟩
/-- `SLCU`. -/
def currentMagic : Magic := ⟨[0x53, 0x4c, 0x43, 0x55], rfl⟩
/-- `SLLM`. -/
def logicalMagic : Magic := ⟨[0x53, 0x4c, 0x4c, 0x4d], rfl⟩
/-- `SLDM`. -/
def dataMagic : Magic := ⟨[0x53, 0x4c, 0x44, 0x4d], rfl⟩
/-- `SLRM`. -/
def rotatingMagic : Magic := ⟨[0x53, 0x4c, 0x52, 0x4d], rfl⟩

/-- Check a decoded record; the first error wins. -/
def checked {α : Type} (x : Except ControlError α) (check : α → Except ControlError Unit) : Except ControlError α :=
  match x with
  | .error e => .error e
  | .ok a => match check a with
    | .error e => .error e
    | .ok () => .ok a

def EmptyManifest.decode (N : Native) (bytes : Bytes) : Except ControlError EmptyManifest :=
  checked (Control.decode N (Wire.manifest N) bytes emptyMagic) EmptyManifest.validate

def CurrentSelector.encode (N : Native) (s : CurrentSelector) : Except ControlError Bytes :=
  match s.validate with
  | .error e => .error e
  | .ok () => Control.encode N (Wire.selector N) s currentMagic

def CurrentSelector.decode (N : Native) (bytes : Bytes) : Except ControlError CurrentSelector :=
  checked (Control.decode N (Wire.selector N) bytes currentMagic) CurrentSelector.validate

end Selene.Persist
