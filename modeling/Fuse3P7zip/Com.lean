/-
# Result codes, exceptions and reference counts

`exception.hpp` and `com.cpp`. A call of the program returns, throws a C++
exception, terminates the process (an exception that leaves a `noexcept`
function) or does something undefined; `Escape` are the three ways not to
return. `checkCom` throws on a code that is FAILED, which is one below 0:
`S_FALSE` is 1 and passes.
-/
import Mathlib.Algebra.Group.Int.Defs
import Mathlib.Algebra.Group.Nat.Defs

namespace Fuse3P7zip

/-- A `std::string`: its bytes. -/
abbrev Str := List Char

/-- A `wchar_t` of a `BSTR` or of a `std::wstring`. -/
abbrev WStr := List UInt32

abbrev HRESULT := Int32

def sOk : HRESULT := 0
def sFalse : HRESULT := 1
def eNoInterface : HRESULT := -2147467262

/-- The `FAILED` macro: the sign bit. -/
def failed (hr : HRESULT) : Prop := hr < 0

instance (hr : HRESULT) : Decidable (failed hr) := inferInstanceAs (Decidable (hr < 0))

/-- What the program does that the language leaves undefined. -/
inductive Ub where
  /-- A call on the stream after its `Release` deleted it. -/
  | freedStream
  /-- The extractor deleted under its own `execute`. -/
  | freedExtractor
  /-- The archive of an end iterator, which has none. -/
  | nullArchive
  /-- A property read as a string that is not one. -/
  | badBstr
  /-- An index outside its vector. -/
  | badIndex
  /-- A handle that is not open. -/
  | badHandle
  deriving DecidableEq, Repr

/-- The ways out of a call other than returning. -/
inductive Escape where
  | exn (what : String)
  | terminate
  | ub (u : Ub)
  deriving DecidableEq, Repr

/-- `CheckCom` -/
def checkCom (hr : HRESULT) (str : String) : Except Escape HRESULT :=
  if failed hr then .error (.exn str) else .ok hr

/-- `CheckErrno` and `CheckResult` on a call that has a result when it succeeds. -/
def checkResult {α : Type} (res : Option α) (str : String) : Except Escape α :=
  match res with
  | some a => .ok a
  | none => .error (.exn str)

/-- A function declared `noexcept`. -/
def noexcept {α : Type} : Except Escape α → Except Escape α
  | .error (.exn _) => .error .terminate
  | r => r

theorem checkCom_ok {hr : HRESULT} (h : ¬ failed hr) (str : String) : checkCom hr str = .ok hr :=
  if_neg h

theorem checkCom_failed {hr : HRESULT} (h : failed hr) (str : String) :
    checkCom hr str = .error (.exn str) :=
  if_pos h

/-- A sequence of two calls returns when both do. -/
theorem bind_eq_ok {α β : Type} {x : Except Escape α} {f : α → Except Escape β} {b : β} :
    (x >>= f) = .ok b ↔ ∃ a, x = .ok a ∧ f a = .ok b := by
  cases x with
  | error e =>
    constructor
    · intro h; cases h
    · rintro ⟨a, h, -⟩; cases h
  | ok a =>
    constructor
    · intro h; exact ⟨a, rfl, h⟩
    · rintro ⟨a', h, h'⟩; cases h; exact h'

/-! ### `UnknownImp`

The counter is a 32-bit atomic, 1 at the start. -/

/-- `AddRef`: the new count. -/
def addRef (refCounter : UInt32) : UInt32 := refCounter + 1

/-- `Release`: the new count, and the object is deleted when it is 0. -/
def release (refCounter : UInt32) : UInt32 := refCounter - 1

/-- The interfaces the callbacks are asked for. -/
inductive Iid where
  | iUnknown
  | iSequentialOutStream
  | iOutStream
  | iArchiveExtractCallback
  | iCryptoGetTextPassword
  | other
  deriving DecidableEq, Repr

end Fuse3P7zip
