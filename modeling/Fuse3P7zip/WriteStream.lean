/-
# The temporary file an entry is extracted to

`WriteStream.cpp`. A `FileWriteStream` is a reference counter and a stdio
stream over a temporary file. The decoder writes to it through
`IOutStream`, the mount reads it through `IFile`. The `IOutStream` methods
are `noexcept`; `setSize` throws inside when `ftruncate` fails.
-/
import Fuse3P7zip.Com
import Fuse3P7zip.Lib.Stdio

namespace Fuse3P7zip

open Stdio (Outcome File)

structure FileWriteStream where
  refCounter : UInt32
  file : File
  deriving DecidableEq

namespace FileWriteStream

/-- `check_error`: 1, which is `S_FALSE`, when the error flag is up. -/
def checkError (file : File) : HRESULT := if file.ferror then 1 else sOk

/-- The constructor. -/
def new (o : Outcome) : Except Escape FileWriteStream :=
  checkResult (if o.tmpfile then some ⟨1, File.tmpfile⟩ else none) "tmpfile: "

/-! ### IUnknown -/

def addRef (this : FileWriteStream) : UInt32 × FileWriteStream :=
  let n := Fuse3P7zip.addRef this.refCounter
  (n, { this with refCounter := n })

/-- `Release`: the stream is gone when the count is 0. -/
def release (this : FileWriteStream) : UInt32 × Option FileWriteStream :=
  let n := Fuse3P7zip.release this.refCounter
  (n, if n = 0 then none else some { this with refCounter := n })

def queryInterface (this : FileWriteStream) (riid : Iid) : HRESULT × FileWriteStream :=
  match riid with
  | .iOutStream | .iSequentialOutStream | .iUnknown => (sOk, this.addRef.2)
  | _ => (eNoInterface, this)

/-! ### ISequentialOutStream and IOutStream -/

/-- `Write`: the code, `*processedSize`, and the stream. -/
def write (this : FileWriteStream) (data : List UInt8) (o : Outcome) :
    HRESULT × ℕ × FileWriteStream :=
  let (written, file) := this.file.fwrite data o
  (checkError file, written, { this with file := file })

/-- `Seek`: the code, `*newPosition`, and the stream. -/
def seek (this : FileWriteStream) (offset : Int64) (seekOrigin : UInt32) (o : Outcome) :
    HRESULT × ℕ × FileWriteStream :=
  let file := (this.file.fseek offset.toInt seekOrigin.toNat o).2
  (checkError file, file.ftell, { this with file := file })

/-- `SetSize`: a truncation, and a seek back to where the stream was. -/
def setSize (this : FileWriteStream) (newSize : UInt64) (o o' : Outcome) :
    Except Escape (HRESULT × FileWriteStream) :=
  noexcept do
    let pos := this.file.ftell
    let file ← checkResult (this.file.ftruncate newSize.toNat o) "ftruncate"
    let file := (file.fseek pos 0 o').2
    return (checkError file, { this with file := file })

/-! ### IFile -/

/-- `read`: the bytes read. -/
def fileRead (this : FileWriteStream) (size : ℕ) (o : Outcome) : List UInt8 × FileWriteStream :=
  let (data, file) := this.file.fread size o
  (data, { this with file := file })

/-- `seek`: the position, and the stream. -/
def fileSeek (this : FileWriteStream) (pos : UInt64) (whence : ℕ) (o : Outcome) :
    ℕ × FileWriteStream :=
  let file := (this.file.fseek pos.toInt64.toInt whence o).2
  (file.ftell, { this with file := file })

/-! ### What the methods come to -/

theorem new_eq_ok {o : Outcome} {f : FileWriteStream} :
    new o = .ok f ↔ o.tmpfile = true ∧ f = ⟨1, File.tmpfile⟩ := by
  unfold new checkResult
  cases o.tmpfile <;> simp [eq_comm]

theorem checkError_eq_sOk_iff (file : File) : checkError file = sOk ↔ file.err = false := by
  unfold checkError File.ferror
  cases file.err <;> decide

/-- `SetSize` returns exactly when the truncation succeeds, and otherwise
terminates the process. -/
theorem setSize_ok {this : FileWriteStream} {newSize : UInt64} {o o' : Outcome} {file : File}
    (h : this.file.ftruncate newSize.toNat o = some file) :
    this.setSize newSize o o' = .ok (checkError (file.fseek this.file.ftell 0 o').2,
      { this with file := (file.fseek this.file.ftell 0 o').2 }) := by
  unfold setSize
  rw [h]
  rfl

theorem setSize_terminate {this : FileWriteStream} {newSize : UInt64} {o o' : Outcome}
    (h : this.file.ftruncate newSize.toNat o = none) :
    this.setSize newSize o o' = .error .terminate := by
  unfold setSize
  rw [h]
  rfl

theorem setSize_refCounter {this this' : FileWriteStream} {newSize : UInt64} {o o' : Outcome}
    {hr : HRESULT} (h : this.setSize newSize o o' = .ok (hr, this')) :
    this'.refCounter = this.refCounter := by
  cases ht : this.file.ftruncate newSize.toNat o with
  | none => rw [setSize_terminate ht] at h; cases h
  | some file => rw [setSize_ok ht] at h; cases h; rfl

end FileWriteStream

end Fuse3P7zip
