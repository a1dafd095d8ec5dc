/-
# Extracting one entry

`ArchiveExtractor.cpp`. `execute` makes a `FileWriteStream`, hands itself to
`IInArchive::Extract` and gives the stream to its caller. The decoder behind
`Extract` is outside the program: a client that calls the extractor's and
the stream's methods in any order, as it likes, and returns a code.
`callback` is the program's side of every such call.

The extractor does not look at the operation result, and `Write` tells a
full device with the code 1. Neither is FAILED.
-/
import Fuse3P7zip.Lib.Client
import Fuse3P7zip.Strings
import Fuse3P7zip.WriteStream

namespace Fuse3P7zip

open Stdio (Outcome)

/-- `NExtract::NAskMode` -/
def kExtract : Int32 := 0

/-- `NExtract::NOperationResult` -/
def kOK : Int32 := 0
/-- The calls a decoder makes on the extractor and on the stream it got. -/
inductive Call where
  | setTotal (size : UInt64)
  | setCompleted (completeValue : Option UInt64)
  | getStream (index : UInt32) (askExtractMode : Int32)
  | prepareOperation (askExtractMode : Int32)
  | setOperationResult (operationResult : Int32)
  | cryptoGetTextPassword
  | addRef
  | release
  | queryInterface (riid : Iid)
  | streamAddRef
  | streamRelease
  | streamQueryInterface (riid : Iid)
  | write (data : List UInt8)
  | seek (offset : Int64) (seekOrigin : UInt32)
  | setSize (newSize : UInt64)
  deriving DecidableEq

/-- What a call returns and stores through its out-parameters. -/
structure Reply where
  hr : HRESULT := sOk
  /-- The count of `AddRef` and `Release`, `*processedSize`, `*newPosition`. -/
  count : ℕ := 0
  /-- An object was handed out. -/
  object : Bool := false
  password : WStr := []
  deriving DecidableEq

/-- `IInArchive::Extract`: calls, and at the end a code. -/
abbrev Decoder := Client Call Reply HRESULT

/-- Everything around the program. -/
structure Env extends Locale where
  /-- `FUSE3_P7ZIP_MAX_OPEN_SIZE` -/
  maxOpenSize : Option Str
  password : Str
  /-- What the C library does in its `n`-th call. -/
  libc : ℕ → Outcome
  /-- What `Extract` does for an index after `n` calls of the library. -/
  extract : ℕ → UInt32 → Decoder
  /-- The address of a new object, given the ones in use. -/
  malloc : List ℕ → ℕ
  malloc_fresh : ∀ l, malloc l ∉ l

/-- ASCII texts, no limit, a library whose calls all succeed, and one decoder
behind every entry. -/
def Env.plain (d : Decoder) : Env where
  toLocale := .ascii
  maxOpenSize := none
  password := []
  libc := fun _ => {}
  extract := fun _ _ => d
  malloc := fun l => l.foldr max 0 + 1
  malloc_fresh := fun l hl => by
    have h : ∀ l : List ℕ, ∀ n ∈ l, n ≤ l.foldr max 0 := by
      intro l
      induction l with
      | nil => intro n hn; cases hn
      | cons a l ih =>
        intro n hn
        rw [List.foldr_cons]
        rcases List.mem_cons.mp hn with rfl | hn
        · omega
        · have := ih n hn; omega
    have := h l _ hl
    omega

/-- `ImplArchiveExtractor`, while `Extract` runs: `file` is nothing once
`Release` has deleted the stream. `clock` counts the calls of the library. -/
structure Extractor where
  refCounter : UInt32
  total : UInt64
  file : Option FileWriteStream
  clock : ℕ

namespace Extractor

/-- `ExtractCallback::notify_progress` -/
def notifyProgress (_current _of : UInt64) : Bool := true

/-- A call on the stream, which has to be there. -/
def onStream (s : Extractor) (f : FileWriteStream → Except Escape (Reply × Extractor)) :
    Except Escape (Reply × Extractor) :=
  match s.file with
  | some file => f file
  | none => .error (.ub .freedStream)

/-- `QueryInterface` of the extractor. -/
def queryInterface (s : Extractor) (riid : Iid) : HRESULT × Extractor :=
  match riid with
  | .iArchiveExtractCallback | .iCryptoGetTextPassword | .iUnknown =>
    (sOk, { s with refCounter := addRef s.refCounter })
  | _ => (eNoInterface, s)

/-- The program's side of a call, where it is built with `NDEBUG`. Without it the log
of `SetCompleted` reads what its argument points to, which may be null. -/
def callback (env : Env) (s : Extractor) : Call → Except Escape (Reply × Extractor)
  | .setTotal size =>
    .ok ({ hr := if notifyProgress 0 size then sOk else sFalse }, { s with total := size })
  | .setCompleted none => .ok ({}, s)
  | .setCompleted (some v) =>
    .ok ({ hr := if notifyProgress v s.total then sOk else sFalse }, s)
  | .getStream _ askExtractMode =>
    -- the stream goes out as it is, without a reference for the decoder
    .ok ({ object := askExtractMode = kExtract }, s)
  | .prepareOperation _ => .ok ({}, s)
  | .setOperationResult _ => .ok ({}, s)
  | .cryptoGetTextPassword =>
    noexcept do
      let pass ← wideStr env.toLocale env.password
      return ({ password := pass }, s)
  | .addRef =>
    let n := addRef s.refCounter
    .ok ({ count := n.toNat }, { s with refCounter := n })
  | .release =>
    let n := release s.refCounter
    if n = 0 then .error (.ub .freedExtractor)
    else .ok ({ count := n.toNat }, { s with refCounter := n })
  | .queryInterface riid =>
    let (hr, s) := s.queryInterface riid
    .ok ({ hr := hr, object := hr = sOk }, s)
  | .streamAddRef =>
    s.onStream fun file =>
      let (n, file) := file.addRef
      .ok ({ count := n.toNat }, { s with file := some file })
  | .streamRelease =>
    s.onStream fun file =>
      let (n, file) := file.release
      .ok ({ count := n.toNat }, { s with file := file })
  | .streamQueryInterface riid =>
    s.onStream fun file =>
      let (hr, file) := file.queryInterface riid
      .ok ({ hr := hr, object := hr = sOk }, { s with file := some file })
  | .write data =>
    s.onStream fun file =>
      let (hr, written, file) := file.write data (env.libc s.clock)
      .ok ({ hr := hr, count := written }, { s with file := some file, clock := s.clock + 1 })
  | .seek offset seekOrigin =>
    s.onStream fun file =>
      let (hr, pos, file) := file.seek offset seekOrigin (env.libc s.clock)
      .ok ({ hr := hr, count := pos }, { s with file := some file, clock := s.clock + 1 })
  | .setSize newSize =>
    s.onStream fun file => do
      let (hr, file) ← file.setSize newSize (env.libc s.clock) (env.libc (s.clock + 1))
      return ({ hr := hr }, { s with file := some file, clock := s.clock + 2 })

/-- The extractor when `Extract` is called: the stream has the reference of
its constructor and one more. -/
def initial (file : FileWriteStream) (clock : ℕ) : Extractor := ⟨1, 0, some file.addRef.2, clock⟩

/-- `execute`: the stream for the caller, and the clock. -/
def execute (env : Env) (clock : ℕ) (index : UInt32) : Except Escape (FileWriteStream × ℕ) := do
  let file ← FileWriteStream.new (env.libc clock)
  let (hr, s) ← (env.extract clock index).run (callback env) (initial file (clock + 1))
  let _ ← checkCom hr "Extract"
  match s.file with
  | some file => return ((file.fileSeek 0 0 (env.libc s.clock)).2, s.clock + 1)
  | none => .error (.ub .freedStream)

end Extractor

end Fuse3P7zip
