/-
# The callbacks of the mount

`Fuse::Operations`. libfuse calls them one after the other; each gets the
path as the kernel sends it, and finds it in the tree by its components.
`cbOpen` extracts the entry and gives the temporary file's address out as
the handle; the other callbacks take that address back from the kernel.

`cbOpen_eq_ok` is what an open that returns can have done.
-/
import Mathlib.Data.Nat.Basic
import Fuse3P7zip.Extractor
import Fuse3P7zip.TreeSpec

namespace Fuse3P7zip

open Stdio (Outcome)

/-- `strtoll` in base 10: blanks, a sign, and the digits, held at the ends of
the range. -/
def strtoll (str : Str) : Int64 :=
  let s := str.dropWhile fun c => c = ' ' ∨ ('\t'.val ≤ c.val ∧ c.val ≤ '\r'.val)
  let (negative, s) := match s with
    | '-' :: t => (true, t)
    | '+' :: t => (false, t)
    | t => (false, t)
  let n := Nat.ofDigitChars 10 (s.takeWhile Char.isDigit) 0
  if negative then Int64.ofInt (max (-n) (-2 ^ 63)) else Int64.ofInt (min n (2 ^ 63 - 1))

/-- A number as one writes it. -/
def decimal (n : Int64) : Str :=
  if n < 0 then '-' :: Nat.toDigits 10 n.toInt.natAbs else Nat.toDigits 10 n.toInt.natAbs

/-- `ci_iterator::extract`. The iterator of a directory without an item has no
archive. -/
def CiIterator.extract (env : Env) (clock : ℕ) (it : CiIterator) :
    Except Escape (FileWriteStream × ℕ) :=
  if it.seq then Extractor.execute env clock it.index else .error (.ub .nullArchive)

namespace Fuse

def enoent : Int32 := 2
def e2big : Int32 := 7
def enotdir : Int32 := 20

/-- `fuse_file_info`, as far as the callbacks look at it. libfuse clears it
before an open. -/
structure FuseFileInfo where
  fh : ℕ := 0
  directIo : Bool := false
  deriving DecidableEq

/-- The mounted archive: the tree, the temporary files by their address, and
the calls of the library so far. -/
structure Mount where
  tree : FileTree
  handles : StdMap (id : ℕ → ℕ) FileWriteStream
  clock : ℕ

/-- The mount before the first request. -/
def Mount.fresh (tree : FileTree) : Mount := ⟨tree, .empty, 0⟩

@[simp] theorem Mount.fresh_tree (tree : FileTree) : (Mount.fresh tree).tree = tree := rfl

/-- The mount of an archive of one item. -/
def Mount.single (it : Item) : Mount := Mount.fresh (treeOf zeroStat false ['x'] [it])

/-- `cb_getattr`: the code and `*stbuf`. -/
def cbGetattr (tree : FileTree) (path : Str) : Int32 × Stat :=
  match tree.find? ⟨path⟩ with
  | none => (-enoent, zeroStat)
  | some el => (0, el.2)

/-- Whether the limit refuses a file of this size. -/
def overLimit (env : Env) (st : Stat) : Prop :=
  ∃ overrideMaxSize ∈ env.maxOpenSize, strtoll overrideMaxSize < st.stSize

instance (env : Env) (st : Stat) : Decidable (overLimit env st) :=
  match h : env.maxOpenSize with
  | none => isFalse (by rintro ⟨s, hs, -⟩; rw [h] at hs; cases hs)
  | some s =>
    if hlt : strtoll s < st.stSize then isTrue ⟨s, h, hlt⟩
    else isFalse (by rintro ⟨s', hs', hlt'⟩; rw [h] at hs'; cases hs'; exact hlt hlt')

/-- `cb_open` -/
def cbOpen (env : Env) (m : Mount) (path : Str) (fi : FuseFileInfo) :
    Except Escape (Int32 × FuseFileInfo × Mount) :=
  match m.tree.find? ⟨path⟩ with
  | none => .ok (-enoent, fi, m)
  | some el =>
    if overLimit env el.2 then .ok (-e2big, fi, m)
    else do
      let (tmpfile, clock) ← el.1.extract env m.clock
      let fh := env.malloc (m.handles.entries.map Prod.fst)
      return (0, { fi with fh := fh },
        { m with handles := m.handles.insertOrAssign fh tmpfile, clock := clock })

/-- `cb_release` -/
def cbRelease (m : Mount) (fi : FuseFileInfo) : Except Escape (Int32 × Mount) :=
  match m.handles.find? fi.fh with
  | none => .error (.ub .badHandle)
  | some _ => .ok (0, { m with handles := m.handles.erase fi.fh })

/-- `cb_read`: the code, what it puts into the buffer, and the mount. -/
def cbRead (env : Env) (m : Mount) (size : UInt64) (offset : Int64) (fi : FuseFileInfo) :
    Except Escape (Int32 × List UInt8 × Mount) :=
  match m.handles.find? fi.fh with
  | none => .error (.ub .badHandle)
  | some file =>
    let file := (file.fileSeek offset.toUInt64 0 (env.libc m.clock)).2
    let (data, file) := file.fileRead size.toNat (env.libc (m.clock + 1))
    .ok (Int32.ofNat data.length, data,
      { m with handles := m.handles.insertOrAssign fi.fh file, clock := m.clock + 2 })

/-- What the loop of `cb_readdir` passes to `filler` for an entry of the tree. -/
def dirEntry (path : FsPath) (it : FsPath × CiIterator × Stat) : Option (Str × Option Stat) :=
  let parent := it.1.parentPath
  let name := it.1.filename
  if path.elements = parent.elements ∧ name.empty = false then some (name.native, some it.2.2)
  else none

/-- `cb_readdir`: the code, and what it passes to `filler`: the names, and the
stats where it has one. -/
def cbReaddir (tree : FileTree) (p : Str) : Int32 × List (Str × Option Stat) :=
  if p ≠ ['/'] ∧ tree.contains ⟨p⟩ = false then (-enotdir, [])
  else (0, (['.'], none) :: (['.', '.'], none) :: tree.entries.filterMap (dirEntry ⟨p⟩))

/-! ### What the callbacks come to -/

theorem find_insert (handles : StdMap (id : ℕ → ℕ) FileWriteStream) (fh : ℕ) (f : FileWriteStream)
    (h : ℕ) : (handles.insertOrAssign fh f).find? h = if h = fh then some f else handles.find? h :=
  StdMap.at_insertOrAssign _ _ _ _

theorem find_erase (handles : StdMap (id : ℕ → ℕ) FileWriteStream) (fh h : ℕ) :
    (handles.erase fh).find? h = if h = fh then none else handles.find? h :=
  StdMap.at_erase _ _ _

/-- The entry of the one file `a` of an archive. -/
theorem find_single (size : UInt64) : (Mount.single (.file ['a'] size)).tree.find? ⟨['/', 'a']⟩ =
    some (.item 0, fileStat zeroStat (.file ['a'] size)) := by
  have h := (treeSpec_treeOf zeroStat ['x'] false [.file ['a'] size]).item 0 (.file ['a'] size) rfl
    fun j jt hj hjt => by
      rw [List.getElem?_eq_none (by rw [List.length_singleton]; omega)] at hjt
      cases hjt
  have he : FsPath.elements ⟨['/', 'a']⟩ = FsPath.absolute (namesOf ['x'] (.file ['a'] size)) := rfl
  rw [StdMap.find?, he, Mount.single, Mount.fresh_tree]
  exact h

theorem cbGetattr_of_find {tree : FileTree} (path : Str) {el : CiIterator × Stat}
    (h : tree.find? ⟨path⟩ = some el) : cbGetattr tree path = (0, el.2) := by
  rw [cbGetattr, h]

/-- An open that returns: the path is not there, the file is over the limit,
or its entry was extracted and has a new handle. -/
theorem cbOpen_eq_ok {env : Env} {m m' : Mount} {path : Str} {fi fi' : FuseFileInfo} {ret : Int32}
    (h : cbOpen env m path fi = .ok (ret, fi', m')) :
    (m.tree.find? ⟨path⟩ = none ∧ ret = -enoent ∧ fi' = fi ∧ m' = m) ∨
    (∃ el, m.tree.find? ⟨path⟩ = some el ∧ overLimit env el.2 ∧ ret = -e2big ∧ fi' = fi ∧ m' = m) ∨
    (∃ el tmpfile clock, m.tree.find? ⟨path⟩ = some el ∧ ¬ overLimit env el.2 ∧
      el.1.seq = true ∧ Extractor.execute env m.clock el.1.index = .ok (tmpfile, clock) ∧ ret = 0 ∧
      fi' = { fi with fh := env.malloc (m.handles.entries.map Prod.fst) } ∧
      m' = { m with
        handles := m.handles.insertOrAssign (env.malloc (m.handles.entries.map Prod.fst)) tmpfile
        clock := clock }) := by
  unfold cbOpen at h
  split at h
  · rename_i hf
    cases h
    exact Or.inl ⟨hf, rfl, rfl, rfl⟩
  · rename_i el hf
    split_ifs at h with hlim
    · cases h
      exact Or.inr (Or.inl ⟨el, hf, hlim, rfl, rfl, rfl⟩)
    · obtain ⟨⟨tmpfile, clock⟩, hx, h⟩ := bind_eq_ok.mp h
      cases h
      unfold CiIterator.extract at hx
      split_ifs at hx with hseq
      exact Or.inr (Or.inr ⟨el, tmpfile, clock, hf, hlim, hseq, hx, rfl, rfl, rfl⟩)

/-- An open that returns 0 has extracted the path's entry. -/
theorem cbOpen_eq_zero {env : Env} {m m' : Mount} {path : Str} {fi fi' : FuseFileInfo}
    (h : cbOpen env m path fi = .ok (0, fi', m')) :
    ∃ el tmpfile clock, m.tree.find? ⟨path⟩ = some el ∧ ¬ overLimit env el.2 ∧ el.1.seq = true ∧
      Extractor.execute env m.clock el.1.index = .ok (tmpfile, clock) ∧
      fi' = { fi with fh := env.malloc (m.handles.entries.map Prod.fst) } ∧
      m' = { m with
        handles := m.handles.insertOrAssign (env.malloc (m.handles.entries.map Prod.fst)) tmpfile
        clock := clock } := by
  rcases cbOpen_eq_ok h with ⟨-, h0, -⟩ | ⟨_, -, -, h0, -⟩ |
    ⟨el, tmpfile, clock, hel, hlim, hseq, hx, -, hfi, hm⟩
  · exact absurd h0 (by decide)
  · exact absurd h0 (by decide)
  · exact ⟨el, tmpfile, clock, hel, hlim, hseq, hx, hfi, hm⟩

theorem cbOpen_of_not_found (env : Env) {m : Mount} {path : Str} (fi : FuseFileInfo)
    (hf : m.tree.find? ⟨path⟩ = none) : cbOpen env m path fi = .ok (-enoent, fi, m) := by
  unfold cbOpen
  rw [hf]

theorem cbOpen_of_overLimit {env : Env} {m : Mount} {path : Str} (fi : FuseFileInfo)
    {el : CiIterator × Stat} (hf : m.tree.find? ⟨path⟩ = some el) (hlim : overLimit env el.2) :
    cbOpen env m path fi = .ok (-e2big, fi, m) := by
  unfold cbOpen
  rw [hf]
  exact if_pos hlim

/-- An open gets to the extraction where the path is there and within the
limit, and fails as the extraction does. -/
theorem cbOpen_eq_error {env : Env} {m : Mount} {path : Str} (fi : FuseFileInfo)
    {el : CiIterator × Stat} {e : Escape} (hf : m.tree.find? ⟨path⟩ = some el)
    (hlim : ¬ overLimit env el.2) (hx : el.1.extract env m.clock = .error e) :
    cbOpen env m path fi = .error e := by
  unfold cbOpen
  rw [hf]
  simp only [if_neg hlim, hx]
  rfl

theorem cbOpen_of_extract {env : Env} {m : Mount} {path : Str} (fi : FuseFileInfo)
    {el : CiIterator × Stat} {tmpfile : FileWriteStream} {clock : ℕ}
    (hf : m.tree.find? ⟨path⟩ = some el) (hlim : ¬ overLimit env el.2)
    (hx : el.1.extract env m.clock = .ok (tmpfile, clock)) :
    cbOpen env m path fi = .ok (0, { fi with fh := env.malloc (m.handles.entries.map Prod.fst) },
      { m with
        handles := m.handles.insertOrAssign (env.malloc (m.handles.entries.map Prod.fst)) tmpfile
        clock := clock }) := by
  unfold cbOpen
  rw [hf]
  simp only [if_neg hlim, hx]
  rfl

/-! ### `strtoll` reads decimals -/

/-- A digit is neither blank nor a sign. -/
theorem digit_first {c : Char} (h : c.isDigit = true) :
    ¬ (c = ' ' ∨ ('\t'.val ≤ c.val ∧ c.val ≤ '\r'.val)) ∧ c ≠ '-' ∧ c ≠ '+' := by
  rw [Char.isDigit, Bool.and_eq_true, decide_eq_true_eq, decide_eq_true_eq] at h
  refine ⟨?_, ?_, ?_⟩
  · rintro (rfl | ⟨-, h2⟩)
    · exact absurd h.1 (by decide)
    · exact absurd (UInt32.le_trans h.1 h2) (by decide)
  · rintro rfl
    exact absurd h.1 (by decide)
  · rintro rfl
    exact absurd h.1 (by decide)

theorem digits_read (k : ℕ) :
    Nat.ofDigitChars 10 ((Nat.toDigits 10 k).takeWhile Char.isDigit) 0 = k := by
  have h : ∀ c ∈ Nat.toDigits 10 k, c.isDigit = true := fun c hc =>
    Nat.isDigit_of_mem_toDigits (by decide) (by decide) hc
  rw [List.takeWhile_eq_self_iff.mpr h, Nat.ofDigitChars_ten_toDigits]

/-- Every number of the range is read as it is written. -/
theorem strtoll_decimal (n : Int64) : strtoll (decimal n) = n := by
  have hlo : -2 ^ 63 ≤ n.toInt := n.le_toInt
  have hhi : n.toInt < 2 ^ 63 := n.toInt_lt
  unfold decimal
  split_ifs with hn
  · have hneg : n.toInt < 0 := Int64.lt_iff_toInt_lt.mp hn
    have hk : -((n.toInt.natAbs : ℕ) : ℤ) = n.toInt := by omega
    have hmax : max n.toInt (-2 ^ 63) = n.toInt := by omega
    have hread : strtoll ('-' :: Nat.toDigits 10 n.toInt.natAbs) = Int64.ofInt
        (max (-(Nat.ofDigitChars 10 ((Nat.toDigits 10 n.toInt.natAbs).takeWhile Char.isDigit) 0 : ℕ))
          (-2 ^ 63)) := rfl
    rw [hread, digits_read, hk, hmax, Int64.ofInt_toInt]
  · have hnn : 0 ≤ n.toInt := by
      have := mt Int64.lt_iff_toInt_lt.mpr hn
      simpa using this
    have hk : ((n.toInt.natAbs : ℕ) : ℤ) = n.toInt := by omega
    have hmin : min n.toInt (2 ^ 63 - 1) = n.toInt := by omega
    obtain ⟨c, l, hcl⟩ := List.exists_cons_of_ne_nil (Nat.toDigits_ne_nil (n := n.toInt.natAbs) (b := 10))
    have hc : c.isDigit = true := Nat.isDigit_of_mem_toDigits (b := 10) (n := n.toInt.natAbs)
      (by decide) (by decide) (by rw [hcl]; exact List.mem_cons_self)
    obtain ⟨h1, h2, h3⟩ := digit_first hc
    have hread := digits_read n.toInt.natAbs
    rw [hcl] at hread ⊢
    rw [strtoll, List.dropWhile_cons_of_neg (by simpa using h1)]
    split
    · rename_i heq
      split at heq
      · rename_i h; exact absurd (List.cons.inj h).1 h2
      · rename_i h; exact absurd (List.cons.inj h).1 h3
      · cases heq
        simp only [hread, hk, hmin, Bool.false_eq_true, ↓reduceIte, Int64.ofInt_toInt]

end Fuse

end Fuse3P7zip
