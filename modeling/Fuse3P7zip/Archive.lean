/-
# The archive and its items

`Archive.cpp`: an item is known by the properties its handler gives, each a
result code and a variant; the accessors of `ci_iterator` read one property
each, and give a default when it is missing or of another type. `decode` is
what the mount reads of an item.
-/
import Fuse3P7zip.Strings
import Fuse3P7zip.Lib.FsPath

namespace Fuse3P7zip

/-- `timespec` -/
structure Timespec where
  tvSec : Int64
  tvNsec : Int64
  deriving DecidableEq

/-- `struct stat` -/
structure Stat where
  stDev : UInt64
  stIno : UInt64
  stNlink : UInt64
  stMode : UInt32
  stUid : UInt32
  stGid : UInt32
  stRdev : UInt64
  stSize : Int64
  stBlksize : Int64
  stBlocks : Int64
  stAtim : Timespec
  stMtim : Timespec
  stCtim : Timespec
  deriving DecidableEq

/-- `memset(stbuf, 0, sizeof(struct stat))` -/
def zeroStat : Stat := ⟨0, 0, 0, 0, 0, 0, 0, 0, 0, 0, ⟨0, 0⟩, ⟨0, 0⟩, ⟨0, 0⟩⟩

/-- A `PROPVARIANT`, of the types the program tells apart and of those a
size can have. -/
inductive PropVariant where
  | empty
  | bstr (bstrVal : Option WStr)
  | ui1 (v : UInt8)
  | ui2 (v : UInt16)
  | ui4 (v : UInt32)
  | ui8 (v : UInt64)
  | bool (boolVal : Int16)
  | filetime (dwLowDateTime dwHighDateTime : UInt32)
  deriving DecidableEq

/-- The value of a variant of an unsigned integer type. -/
def PropVariant.unsigned? : PropVariant → Option ℕ
  | .ui1 v => some v.toNat
  | .ui2 v => some v.toNat
  | .ui4 v => some v.toNat
  | .ui8 v => some v.toNat
  | _ => none

/-- `GetProperty`: a code, and a variant. -/
abbrev PropResult := HRESULT × PropVariant

/-- What the handler says about an item. -/
structure ItemProps where
  kpidPath : PropResult
  kpidName : PropResult
  kpidExtension : PropResult
  kpidIsDir : PropResult
  kpidSize : PropResult
  kpidATime : PropResult
  kpidMTime : PropResult
  kpidCTime : PropResult
  deriving DecidableEq

/-- `_to_time`: the file time less the epoch's difference, in 64 bits without
sign; its seconds, and itself as the nanoseconds. -/
def toTime (dwLowDateTime dwHighDateTime : UInt32) : Timespec :=
  let date := dwHighDateTime.toUInt64 <<< 32 ||| dwLowDateTime.toUInt64
  let adjust : UInt64 := 11644473600000 * 10000
  let date := date - adjust
  ⟨(date / 10000000).toInt64, date.toInt64⟩

namespace ItemProps

/-- The bits of a variant read as `bstrVal`, which the type is not asked for. -/
def bstrVal : PropVariant → Except Escape (Option WStr)
  | .bstr s => .ok s
  | .empty => .ok none
  | .ui1 v => if v = 0 then .ok none else .error (.ub .badBstr)
  | .ui2 v => if v = 0 then .ok none else .error (.ub .badBstr)
  | .ui4 v => if v = 0 then .ok none else .error (.ub .badBstr)
  | .ui8 v => if v = 0 then .ok none else .error (.ub .badBstr)
  | .bool v => if v = 0 then .ok none else .error (.ub .badBstr)
  | .filetime lo hi => if lo = 0 ∧ hi = 0 then .ok none else .error (.ub .badBstr)

def path (loc : Locale) (item : ItemProps) : Except Escape Str := do
  let (res, prop) := item.kpidPath
  if res = sOk then
    match ← bstrVal prop with
    | some s =>
      match loc.forceEncoding with
      | some encoding => utf8raw loc s encoding
      | none => utf8 loc s
    | none => return []
  else return []

/-- `name()` and `extension()`: a property that has to be a string. -/
def text (loc : Locale) : PropResult → Except Escape Str
  | (res, .bstr (some s)) => if res = sOk then utf8 loc s else .ok []
  | _ => .ok []

def name (loc : Locale) (item : ItemProps) : Except Escape Str := text loc item.kpidName

def extension (loc : Locale) (item : ItemProps) : Except Escape Str := text loc item.kpidExtension

/-- `size()`: only `VT_UI8` counts. -/
def size (item : ItemProps) : UInt64 :=
  match item.kpidSize with
  | (res, .ui8 v) => if res = sOk then v else 0
  | _ => 0

/-- `atime()`, `mtime()` and `ctime()`: a file time that is not 0. -/
def time : PropResult → Timespec
  | (res, .filetime lo hi) => if res = sOk ∧ (lo ≠ 0 ∨ hi ≠ 0) then toTime lo hi else ⟨0, 0⟩
  | _ => ⟨0, 0⟩

def atime (item : ItemProps) : Timespec := time item.kpidATime
def mtime (item : ItemProps) : Timespec := time item.kpidMTime
def ctime (item : ItemProps) : Timespec := time item.kpidCTime

def isDir (item : ItemProps) : Bool :=
  match item.kpidIsDir with
  | (res, .bool v) => res = sOk && v ≠ 0
  | _ => false

end ItemProps

/-- The properties of a regular file: its path, and its size as given. -/
def ItemProps.file (path : WStr) (kpidSize : PropResult) : ItemProps :=
  ⟨(sOk, .bstr (some path)), (sOk, .empty), (sOk, .empty), (sOk, .bool 0), kpidSize,
    (sOk, .empty), (sOk, .empty), (sOk, .empty)⟩

/-- What the accessors give for an item. -/
structure Item where
  path : Str
  name : Str
  extension : Str
  isDir : Bool
  size : UInt64
  atime : Timespec
  mtime : Timespec
  ctime : Timespec
  deriving DecidableEq

/-- A regular file that has a path and a size only. -/
def Item.file (path : Str) (size : UInt64) : Item :=
  ⟨path, [], [], false, size, ⟨0, 0⟩, ⟨0, 0⟩, ⟨0, 0⟩⟩

/-- `ci_iterator`: the archive or null, the index, and the end flag. -/
structure CiIterator where
  seq : Bool
  index : UInt32
  atEnd : Bool
  deriving DecidableEq

/-- `end()` -/
def CiIterator.ending : CiIterator := ⟨false, 0, true⟩

/-- The iterator at item `i`. -/
def CiIterator.item (i : ℕ) : CiIterator := ⟨true, UInt32.ofNat i, false⟩

/-- `ImplArchive`: the path and `lstat` of its file, the extensions of its
format, and its items, whose number is 32 bits wide. -/
structure ImplArchive where
  path : FsPath
  stat : Stat
  extDef : List Str
  extAdd : List Str
  items : List ItemProps
  size_lt : items.length < 2 ^ 32

namespace ImplArchive

/-- An archive `/x` of one item. -/
def single (item : ItemProps) : ImplArchive :=
  ⟨⟨['/', 'x']⟩, zeroStat, [], [], [item], by rw [List.length_singleton]; decide⟩

/-- The loop of `proposed_name` from the `i`-th default extension on. -/
def proposedFrom (name ext : FsPath) (extAdd : List Str) : List Str → ℕ → Except Escape FsPath
  | [], _ => .ok name
  | e :: es, i =>
    if ext.elements = FsPath.elements ⟨'.' :: e⟩ then
      match extAdd[i]? with
      | none => .error (.ub .badIndex)
      | some extNew =>
        if extNew ≠ ['*'] then .ok (name.replaceExtension extNew)
        else proposedFrom name ext extAdd es (i + 1)
    else proposedFrom name ext extAdd es (i + 1)

/-- `proposed_name`: the file name with the additional extension of the
format in place of its own. -/
def proposedName (arc : ImplArchive) : Except Escape Str := do
  let name ← proposedFrom arc.path.filename arc.path.extension arc.extAdd arc.extDef 0
  return name.native

/-- `proposed_name` where it is defined. -/
def proposed (arc : ImplArchive) : Str :=
  match arc.proposedName with
  | .ok s => s
  | .error _ => []

end ImplArchive

end Fuse3P7zip
