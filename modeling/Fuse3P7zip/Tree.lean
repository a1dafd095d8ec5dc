/-
# The tree of a mounted archive

The loop of `Fuse::execute`. Every item goes in under its key (`keyOf`),
over whatever is there; then its parents go in one after the other, up to
the first that is there, as directories with the item's stat.
-/
import Fuse3P7zip.Archive
import Fuse3P7zip.Lib.StdMap

namespace Fuse3P7zip

def sIfmt : UInt32 := 0o170000
def sIfdir : UInt32 := 0o040000
def sIfreg : UInt32 := 0o100000

/-- `S_ISDIR` and `S_ISREG` -/
def Stat.isDir (st : Stat) : Prop := st.stMode &&& sIfmt = sIfdir
def Stat.isReg (st : Stat) : Prop := st.stMode &&& sIfmt = sIfreg

instance (st : Stat) : Decidable st.isDir := inferInstanceAs (Decidable (_ = _))
instance (st : Stat) : Decidable st.isReg := inferInstanceAs (Decidable (_ = _))

/-- `Cache::FileTree` -/
abbrev FileTree := StdMap FsPath.elements (CiIterator × Stat)

namespace Fuse

def root : FsPath := ⟨['/']⟩

/-- Whether the archive's own name stands in for the item's. -/
def usesProposed (path name : Str) : Prop :=
  root.elements = (root.append ⟨path⟩).elements ∧ name = []

instance (path name : Str) : Decidable (usesProposed path name) :=
  inferInstanceAs (Decidable (_ ∧ _))

/-- The name that goes behind the item's path. -/
def nameOf (proposed : Str) (it : Item) : Str :=
  let name := if usesProposed it.path it.name then proposed else it.name
  if it.extension = [] then name else name ++ '.' :: it.extension

/-- The key of an item. -/
def keyOf (proposed : Str) (it : Item) : FsPath :=
  let path := root.append ⟨it.path⟩
  let name := nameOf proposed it
  if name = [] then path else path.append ⟨name⟩

def rootStat (arcStat : Stat) (allowOther : Bool) : Stat :=
  let mode := (arcStat.stMode &&& ~~~sIfmt) ||| sIfdir ||| 0o100 ||| 0o010
  { arcStat with stMode := if allowOther then mode ||| 0o004 ||| 0o001 else mode }

def fileStat (arcStat : Stat) (it : Item) : Stat :=
  let mode := arcStat.stMode &&& ~~~sIfmt
  { arcStat with
    stMode := if it.isDir then mode ||| (sIfdir ||| 0o775) else mode ||| (sIfreg ||| 0o664)
    stSize := it.size.toInt64
    stAtim := it.atime
    stMtim := it.mtime
    stCtim := it.ctime }

/-- The item's stat made a directory's, for a parent. -/
def dirStat (st : Stat) (it : Item) : Stat :=
  { st with
    stSize := it.size.toInt64
    stMode := (st.stMode &&& ~~~sIfmt) ||| (sIfdir ||| 0o775) }

/-- The loop over the parents, for at most `fuel` of them. -/
def addParents (it : Item) : ℕ → FileTree → FsPath → Stat → FileTree
  | 0, tree, _, _ => tree
  | fuel + 1, tree, p, st =>
    if p.empty ∨ p.elements = root.elements then tree
    else if tree.contains p then tree
    else
      let st := dirStat st it
      addParents it fuel (tree.emplace p (.ending, st)) p.parentPath st

/-- The body of the loop over the items. A path has fewer parents than
characters. -/
def addItem (arcStat : Stat) (proposed : Str) (i : ℕ) (it : Item) (tree : FileTree) : FileTree :=
  let path := keyOf proposed it
  let st := fileStat arcStat it
  addParents it path.native.length (tree.insertOrAssign path (.item i, st)) path.parentPath st

/-- The items from the `i`-th on. -/
def addItems (arcStat : Stat) (proposed : Str) : ℕ → List Item → FileTree → FileTree
  | _, [], tree => tree
  | i, it :: its, tree => addItems arcStat proposed (i + 1) its (addItem arcStat proposed i it tree)

/-- The tree before the first item. -/
def rootTree (arcStat : Stat) (allowOther : Bool) : FileTree :=
  StdMap.empty.emplace root (.ending, rootStat arcStat allowOther)

/-- The tree of these items. -/
def treeOf (arcStat : Stat) (allowOther : Bool) (proposed : Str) (its : List Item) : FileTree :=
  addItems arcStat proposed 0 its (rootTree arcStat allowOther)

/-- What the loop reads of an item. The archive's own name is asked for only
where it is used. -/
def decode (loc : Locale) (arc : ImplArchive) (item : ItemProps) : Except Escape Item := do
  let path ← item.path loc
  let name ← item.name loc
  if usesProposed path name then
    let _ ← arc.proposedName
  let extension ← item.extension loc
  return {
    path := path, name := name, extension := extension, isDir := item.isDir, size := item.size
    atime := item.atime, mtime := item.mtime, ctime := item.ctime }

/-- The loop of `execute`, with what its accessors throw. -/
def executeFrom (loc : Locale) (arc : ImplArchive) : ℕ → List ItemProps → FileTree →
    Except Escape FileTree
  | _, [], tree => .ok tree
  | i, item :: items, tree => do
    let it ← decode loc arc item
    executeFrom loc arc (i + 1) items (addItem arc.stat arc.proposed i it tree)

/-- `Fuse::execute` up to the mount. -/
def execute (loc : Locale) (arc : ImplArchive) (allowOther : Bool) : Except Escape FileTree :=
  executeFrom loc arc 0 arc.items (rootTree arc.stat allowOther)

/-- The loop gets through when every item can be read, and then the tree is
the tree of the items. -/
theorem executeFrom_ok {loc : Locale} {arc : ImplArchive} : ∀ {items : List ItemProps} {i : ℕ}
    {tree tree' : FileTree}, executeFrom loc arc i items tree = .ok tree' →
    ∃ its, List.Forall₂ (fun item it => decode loc arc item = .ok it) items its ∧
      tree' = addItems arc.stat arc.proposed i its tree
  | [], _, _, _, h => by
    cases h
    exact ⟨[], .nil, rfl⟩
  | item :: items, i, tree, tree', h => by
    rw [executeFrom] at h
    cases hd : decode loc arc item with
    | error e => rw [hd] at h; cases h
    | ok it =>
      rw [hd] at h
      obtain ⟨its, h1, h2⟩ := executeFrom_ok h
      exact ⟨it :: its, .cons hd h1, h2⟩

theorem execute_ok {loc : Locale} {arc : ImplArchive} {allowOther : Bool} {tree : FileTree}
    (h : execute loc arc allowOther = .ok tree) :
    ∃ its, List.Forall₂ (fun item it => decode loc arc item = .ok it) arc.items its ∧
      tree = treeOf arc.stat allowOther arc.proposed its :=
  executeFrom_ok h

/-- What a successful read of an item takes over as it is. -/
theorem decode_ok {loc : Locale} {arc : ImplArchive} {item : ItemProps} {it : Item}
    (h : decode loc arc item = .ok it) : it.isDir = item.isDir ∧ it.size = item.size ∧
      it.atime = item.atime ∧ it.mtime = item.mtime ∧ it.ctime = item.ctime := by
  obtain ⟨path, -, h⟩ := bind_eq_ok.mp h
  obtain ⟨name, -, h⟩ := bind_eq_ok.mp h
  split_ifs at h
  · obtain ⟨_, -, h⟩ := bind_eq_ok.mp h
    obtain ⟨ext, -, h⟩ := bind_eq_ok.mp h
    cases h
    exact ⟨rfl, rfl, rfl, rfl, rfl⟩
  · obtain ⟨ext, -, h⟩ := bind_eq_ok.mp h
    cases h
    exact ⟨rfl, rfl, rfl, rfl, rfl⟩

end Fuse

end Fuse3P7zip
