import Selene.Base.Bytes

/-!
# An open file

Content, cursor and the image that the last successful `sync_all` made durable. Writing
happens at the cursor; nothing but a successful `sync` moves the durable image.
-/

namespace Octets

structure File where
  content : Bytes
  cursor : ℕ
  durable : Bytes

namespace File

def empty : File := ⟨[], 0, []⟩

variable (f : File)

/-- One write at the cursor; a hole before it reads as zeros. -/
def write (bytes : Bytes) : File :=
  { f with
    content := f.content.take f.cursor ++ (List.replicate (f.cursor - f.content.length) 0 ++
      (bytes ++ f.content.drop (f.cursor + bytes.length)))
    cursor := f.cursor + bytes.length }

/-- `write_all`; `some k` is a failure after `k` bytes. The flag says whether it succeeded. -/
def writeAll (bytes : Bytes) : Option ℕ → File × Bool
  | none => (f.write bytes, true)
  | some k => (f.write (bytes.take k), false)

def setLen (len : ℕ) : File :=
  { f with content := f.content.take len ++ List.replicate (len - f.content.length) 0 }

def seek (pos : ℕ) : File := { f with cursor := pos }

def sync : File := { f with durable := f.content }

/-- The cursor is at the end: every write appends. -/
def AtEnd : Prop := f.cursor = f.content.length

theorem write_content {f : File} (h : f.AtEnd) (bytes : Bytes) :
    (f.write bytes).content = f.content ++ bytes := by
  unfold AtEnd at h
  simp [write, h]

theorem write_atEnd {f : File} (h : f.AtEnd) (bytes : Bytes) : (f.write bytes).AtEnd := by
  unfold AtEnd
  rw [write_content h, List.length_append, ← h]
  rfl

theorem setLen_content {f : File} {len : ℕ} (h : len ≤ f.content.length) :
    (f.setLen len).content = f.content.take len := by
  simp [setLen, h]

end File

end Octets
