/-
# The mount as a file system

The mount of an archive is a file system that is only read
(`mount_is_file_system`). What is at a path is told by the items without a
tree: the last of them there, or else a directory above the first of those
below. Whatever the kernel asks, and in whatever order, a stat is that of
the node, a listing has the names of the nodes below with their stats, and a
read is of what an extraction of the item that shows at the path left in the
file. There is a response to every request, but for an open whose extraction
does not return.
-/
import Fuse3P7zip.Lib.ReadOnlyFs
import Fuse3P7zip.Remount
import Fuse3P7zip.Sessions

namespace Fuse3P7zip

namespace Fuse

open FsPath (absolute absolute_inj)

/-! ### The file system of the items -/

/-- What is at a path. -/
def nodeOf (arcStat : Stat) (allowOther : Bool) (proposed : Str) (its : List Item) (path : List Str) : Option Stat :=
  match its.reverse.find? fun it => namesOf proposed it = path with
  | some it => some (fileStat arcStat it)
  | none =>
    if path = [] then some (rootStat arcStat allowOther)
    else (its.find? fun it => path <+: namesOf proposed it).map fun it => dirStat (fileStat arcStat it) it

/-- The file system, with the paths that have no empty name. An open may find
what any extraction of the item leaves, and is refused above the limit. -/
def fileSystem (env : Env) (arcStat : Stat) (allowOther : Bool) (proposed : Str) (its : List Item) :
    ReadOnlyFs Str Stat UInt8 where
  node path := if [] ∈ path then none else nodeOf arcStat allowOther proposed its path
  contents path := {bytes | ∃ i it clock, Shown proposed its i it ∧ namesOf proposed it = path ∧
    Extractor.decoded env clock (UInt32.ofNat i) = some bytes}
  refuses path := ∃ st ∈ nodeOf arcStat allowOther proposed its path, overLimit env st

/-! ### The mount -/

/-- The names of a listing that come with a stat: `.` and `..` do not. -/
def statted (l : List (Str × Option Stat)) : List (Str × Stat) := l.filterMap fun x => x.2.map (x.1, ·)

/-- The callback for a request, and the response that its code stands for. -/
def answer (env : Env) (m : Mount) :
    ReadOnlyFs.Request Str → Except Escape (ReadOnlyFs.Response Str Stat UInt8 × Mount)
  | .stat path =>
    let (ret, st) := cbGetattr m.tree (kernelPath path)
    .ok (if ret = 0 then .node st else .refused, m)
  | .list path =>
    let (ret, names) := cbReaddir m.tree (kernelPath path)
    .ok (if ret = 0 then .names (statted names) else .refused, m)
  | .open path => do
    let (ret, fi, m) ← cbOpen env m (kernelPath path) {}
    return (if ret = 0 then .handle fi.fh else .refused, m)
  | .read handle offset size => do
    let (ret, bytes, m) ← cbRead env m (UInt64.ofNat size) (Int64.ofNat offset) { fh := handle }
    return (.data (bytes.take ret.toInt.toNat), m)
  | .close handle => do
    let (_, m) ← cbRelease m { fh := handle }
    return (.closed, m)

/-- What the kernel keeps to: its paths have names, and it opens regular files,
and reads and closes handles that it has. -/
def Allowed (m : Mount) : ReadOnlyFs.Request Str → Prop
  | .stat path | .list path => ∀ n ∈ path, n ≠ [] ∧ '/' ∉ n
  | .open path => (∀ n ∈ path, n ≠ [] ∧ '/' ∉ n) ∧ (cbGetattr m.tree (kernelPath path)).1 = 0 ∧
      (cbGetattr m.tree (kernelPath path)).2.isReg
  | .read handle offset size => m.handles.find? handle ≠ none ∧ offset < 2 ^ 63 ∧ size < 2 ^ 31
  | .close handle => m.handles.find? handle ≠ none

/-! ### What is at a path -/

theorem first_of_find {α : Type} {P : α → Bool} {l : List α} {x : α} (h : l.find? P = some x) :
    ∃ i, l[i]? = some x ∧ P x = true ∧ ∀ (j : ℕ) y, j < i → l[j]? = some y → P y = false := by
  obtain ⟨hp, i, hi, rfl, hbefore⟩ := List.find?_eq_some_iff_getElem.mp h
  refine ⟨i, List.getElem?_eq_getElem hi, hp, fun j y hj hy => ?_⟩
  obtain ⟨hlt, rfl⟩ := List.getElem?_eq_some_iff.mp hy
  simpa using hbefore j hj

theorem last_of_find {α : Type} {P : α → Bool} {l : List α} {x : α} (h : l.reverse.find? P = some x) :
    ∃ i, l[i]? = some x ∧ P x = true ∧ ∀ (j : ℕ) y, i < j → l[j]? = some y → P y = false := by
  obtain ⟨i, hi, hp, hbefore⟩ := first_of_find h
  obtain ⟨hlt, -⟩ := List.getElem?_eq_some_iff.mp hi
  rw [List.length_reverse] at hlt
  refine ⟨l.length - 1 - i, ?_, hp, fun j y hj hy => ?_⟩
  · rwa [List.getElem?_reverse hlt] at hi
  · obtain ⟨hj', -⟩ := List.getElem?_eq_some_iff.mp hy
    refine hbefore (l.length - 1 - j) y (by omega) ?_
    rw [List.getElem?_reverse (by omega), show l.length - 1 - (l.length - 1 - j) = j by omega]
    exact hy

section nodes

variable {arcStat : Stat} {allowOther : Bool} {proposed : Str} {its : List Item} {tree : FileTree}
  (spec : TreeSpec arcStat proposed allowOther its tree)

include spec

/-- The tree has what the items tell. -/
theorem nodeOf_eq (path : List Str) :
    nodeOf arcStat allowOther proposed its path = (tree.at (absolute path)).map Prod.snd := by
  unfold nodeOf
  cases hlast : its.reverse.find? fun it => namesOf proposed it = path with
  | some it =>
    obtain ⟨i, hi, hnames, hlater⟩ := last_of_find hlast
    obtain rfl := of_decide_eq_true hnames
    rw [spec.item i it hi fun j jt hj hjt => of_decide_eq_false (hlater j jt hj hjt)]
    rfl
  | none =>
    have hno : ∀ it ∈ its, namesOf proposed it ≠ path := fun it hit he =>
      List.find?_eq_none.mp hlast it (List.mem_reverse.mpr hit) (decide_eq_true he)
    by_cases hroot : path = []
    · subst hroot
      rw [spec.root hno]
      rfl
    · show (if path = [] then _ else _) = _
      rw [if_neg hroot]
      cases hfirst : its.find? fun it => path <+: namesOf proposed it with
      | some it =>
        obtain ⟨i, hi, hbelow, hbefore⟩ := first_of_find hfirst
        rw [spec.parent path i it hroot hi (of_decide_eq_true hbelow) hno fun j jt hj hjt =>
          of_decide_eq_false (hbefore j jt hj hjt)]
        rfl
      | none =>
        have hat : tree.at (absolute path) = none := by
          by_contra h
          obtain ⟨it, hit, hp⟩ := ((spec.at_ne_none_iff path).mp h).resolve_left hroot
          exact List.find?_eq_none.mp hfirst it hit (decide_eq_true hp)
        rw [hat]
        rfl

theorem find_kernelPath {path : List Str} (hpath : ∀ n ∈ path, n ≠ [] ∧ '/' ∉ n) (env : Env) :
    (tree.find? ⟨kernelPath path⟩).map Prod.snd = (fileSystem env arcStat allowOther proposed its).node path := by
  have hnil : [] ∉ path := fun h => (hpath [] h).1 rfl
  show _ = if [] ∈ path then none else nodeOf arcStat allowOther proposed its path
  rw [if_neg hnil, nodeOf_eq spec, StdMap.find?, elements_kernelPath hpath]

end nodes

/-! ### What is in a directory -/

theorem mem_statted {l : List (Str × Option Stat)} {n : Str} {st : Stat} : (n, st) ∈ statted l ↔ (n, some st) ∈ l := by
  rw [statted, List.mem_filterMap]
  constructor
  · rintro ⟨⟨m, st'⟩, hx, he⟩
    obtain ⟨a, rfl, ha⟩ := Option.map_eq_some_iff.mp he
    obtain ⟨rfl, rfl⟩ := Prod.mk.inj ha
    exact hx
  · exact fun h => ⟨(n, some st), h, rfl⟩

theorem dirShown_absolute {p : FsPath} {path b : List Str} (hp : p.elements = absolute path) (hb : b ≠ []) {st : Stat}
    {n : Str} {st' : Option Stat} : dirShown p (absolute b, st) = some (n, st') ↔ b = path ++ [n] ∧ some st = st' := by
  have hel : p.elements = toLex ((ofLex (absolute b)).1, (ofLex (absolute b)).2.dropLast) ↔ path = b.dropLast := by
    rw [hp]
    exact absolute_inj
  rw [dirShown]
  obtain ⟨c, m, rfl⟩ : ∃ c m, b = c ++ [m] := by
    rcases List.eq_nil_or_concat b with rfl | ⟨c, m, rfl⟩
    · exact absurd rfl hb
    · exact ⟨c, m, List.concat_eq_append⟩
  rw [List.dropLast_concat] at hel
  have hlast : (ofLex (absolute (c ++ [m]))).2.getLast?.getD [] = m := by
    show (c ++ [m]).getLast?.getD [] = m
    rw [List.getLast?_concat]
    rfl
  by_cases h : path = c
  · rw [if_pos (hel.mpr h), hlast, h, Option.some.injEq, Prod.mk.injEq]
    refine and_congr_left fun _ => ?_
    rw [List.append_cancel_left_eq, List.singleton_inj]
  · rw [if_neg fun he => h (hel.mp he)]
    refine iff_of_false (fun he => by cases he) fun he => h ?_
    exact ((List.append_inj' he.1 rfl).1).symm

/-- The names in a directory are in the order of their paths. -/
theorem lt_of_absolute_lt {path : List Str} {n m : Str} (h : absolute (path ++ [n]) < absolute (path ++ [m])) : n < m := by
  have hlt : path ++ [n] < path ++ [m] := by
    rcases Prod.Lex.toLex_lt_toLex.mp h with h | ⟨-, h⟩
    · exact absurd h (lt_irrefl _)
    · exact h
  rcases lt_trichotomy n m with hnm | rfl | hmn
  · exact hnm
  · exact absurd hlt (lt_irrefl _)
  · have hback : path ++ [m] < path ++ [n] := List.append_left_lt (List.cons_lt_cons_iff.mpr (.inl hmn))
    exact absurd (hlt.trans hback) (lt_irrefl _)

theorem statted_cbReaddir {tree : FileTree} {path : Str} (h : tree.contains ⟨path⟩ = true) : (cbReaddir tree path).1 = 0 ∧
    statted (cbReaddir tree path).2 = statted (((listed tree).map shown).filterMap (dirShown ⟨path⟩)) := by
  have hno : ¬ (path ≠ ['/'] ∧ tree.contains ⟨path⟩ = false) := fun hno => absurd (h.symm.trans hno.2) (by decide)
  rw [cbReaddir, if_neg hno, filterMap_dirEntry]
  exact ⟨rfl, rfl⟩

section listing

variable {arcStat : Stat} {allowOther : Bool} {proposed : Str} {its : List Item} {tree : FileTree}
  (spec : TreeSpec arcStat proposed allowOther its tree)

include spec

theorem mem_dirShown {p : FsPath} {path : List Str} (hp : p.elements = absolute path) {n : Str} {st : Option Stat} :
    (n, st) ∈ ((listed tree).map shown).filterMap (dirShown p) ↔
      [] ∉ path ++ [n] ∧ ∃ it st', tree.at (absolute (path ++ [n])) = some (it, st') ∧ some st' = st := by
  rw [List.mem_filterMap]
  constructor
  · rintro ⟨⟨e, st'⟩, hx, hdir⟩
    obtain ⟨b, it, rfl, hb, hnil, hat⟩ := (mem_shown_iff spec).mp hx
    obtain ⟨rfl, hst⟩ := (dirShown_absolute hp hb).mp hdir
    exact ⟨hnil, it, st', hat, hst⟩
  · rintro ⟨hnil, it, st', hat, hst⟩
    have hne : path ++ [n] ≠ [] := List.append_ne_nil_of_right_ne_nil _ (List.cons_ne_nil n [])
    exact ⟨(absolute (path ++ [n]), st'), (mem_shown_iff spec).mpr ⟨_, it, rfl, hne, hnil, hat⟩,
      (dirShown_absolute hp hne).mpr ⟨rfl, hst⟩⟩

theorem pairwise_dirShown {p : FsPath} {path : List Str} (hp : p.elements = absolute path) :
    (((listed tree).map shown).filterMap (dirShown p)).Pairwise fun x y => x.1 < y.1 := by
  rw [List.pairwise_filterMap]
  refine (pairwise_shown tree).imp_of_mem fun {x y} hx hy hlt u hu v hv => ?_
  obtain ⟨a, ia, ha, ha0, -, -⟩ := (mem_shown_iff spec).mp (show (x.1, x.2) ∈ _ from hx)
  obtain ⟨b, ib, hb, hb0, -, -⟩ := (mem_shown_iff spec).mp (show (y.1, y.2) ∈ _ from hy)
  have hxa : dirShown p (absolute a, x.2) = some (u.1, u.2) := ha ▸ hu
  have hyb : dirShown p (absolute b, y.2) = some (v.1, v.2) := hb ▸ hv
  obtain ⟨rfl, -⟩ := (dirShown_absolute hp ha0).mp hxa
  obtain ⟨rfl, -⟩ := (dirShown_absolute hp hb0).mp hyb
  have hab : absolute (path ++ [u.1]) < absolute (path ++ [v.1]) := by
    rw [← ha, ← hb]
    exact hlt
  exact lt_of_absolute_lt hab

/-- A listing has the names of the nodes below, in order. -/
theorem lists_cbReaddir {path : List Str} (hpath : ∀ n ∈ path, n ≠ [] ∧ '/' ∉ n)
    (h : tree.contains ⟨kernelPath path⟩ = true) (env : Env) :
    (fileSystem env arcStat allowOther proposed its).Lists path (statted (cbReaddir tree (kernelPath path)).2) := by
  have hp := elements_kernelPath hpath
  rw [(statted_cbReaddir h).2]
  constructor
  · unfold statted
    rw [List.pairwise_filterMap]
    refine (pairwise_dirShown spec hp).imp fun {x y} hlt u hu v hv => ?_
    obtain ⟨a, -, rfl⟩ := Option.map_eq_some_iff.mp hu
    obtain ⟨b, -, rfl⟩ := Option.map_eq_some_iff.mp hv
    exact hlt
  · intro n st
    rw [mem_statted, mem_dirShown spec hp]
    show _ ↔ (if [] ∈ path ++ [n] then none else nodeOf arcStat allowOther proposed its (path ++ [n])) = some st
    rw [nodeOf_eq spec]
    by_cases hnil : [] ∈ path ++ [n]
    · rw [if_pos hnil]
      exact iff_of_false (fun hx => hx.1 hnil) fun hx => nomatch hx
    · rw [if_neg hnil, Option.map_eq_some_iff]
      constructor
      · rintro ⟨-, it, st', hat, hst⟩
        exact ⟨(it, st'), hat, Option.some.inj hst⟩
      · rintro ⟨⟨it, st'⟩, hat, rfl⟩
        exact ⟨hnil, it, st', hat, rfl⟩

end listing

/-! ### The mount is the file system -/

section mounted

variable {arcStat : Stat} {allowOther : Bool} {proposed : Str} {its : List Item} {tree : FileTree}
  (spec : TreeSpec arcStat proposed allowOther its tree) {env : Env} (libc : LibcReads env)
  (hcut : ∀ clock index, Extractor.Uncut env clock index)

/-- The mounted tree, and the bytes behind the handles. -/
def Serves (tree : FileTree) (m : Mount) (view : View) : Prop := m.tree = tree ∧ Settled m view

include spec

/-- A regular file's entry is that of the item that shows there. -/
theorem shown_of_isReg {path : List Str} (hpath : ∀ n ∈ path, n ≠ [] ∧ '/' ∉ n) {el : CiIterator × Stat}
    (hel : tree.find? ⟨kernelPath path⟩ = some el) (hreg : el.2.isReg) :
    ∃ i it, Shown proposed its i it ∧ namesOf proposed it = path ∧ el.1 = .item i := by
  rw [StdMap.find?, elements_kernelPath hpath] at hel
  rcases spec.cases hel with ⟨i, it, hi, hnames, hlast, rfl⟩ | ⟨-, _, it, -, -, -, rfl⟩ | ⟨-, -, rfl⟩
  · refine ⟨i, it, ⟨hi, fun j jt hj hjt he => hlast j jt hj hjt ?_⟩, hnames, rfl⟩
    rw [elements_keyOf, elements_keyOf, absolute_inj] at he
    exact he.trans hnames
  · exact absurd hreg (not_isReg_of_isDir (isDir_dirStat _ it))
  · exact absurd hreg (not_isReg_of_isDir (isDir_rootStat _ _))

theorem step_stat {path : List Str} (hpath : ∀ n ∈ path, n ≠ [] ∧ '/' ∉ n) (s : View) :
    (fileSystem env arcStat allowOther proposed its).Step s (.stat path)
      (if (cbGetattr tree (kernelPath path)).1 = 0 then .node (cbGetattr tree (kernelPath path)).2 else .refused) s := by
  have hnode := find_kernelPath spec hpath env
  cases hel : tree.find? ⟨kernelPath path⟩ with
  | none =>
    rw [hel] at hnode
    rw [cbGetattr, hel]
    exact .noNode hnode.symm
  | some el =>
    rw [hel] at hnode
    rw [cbGetattr_of_find _ hel]
    exact .stat hnode.symm

theorem step_list {path : List Str} (hpath : ∀ n ∈ path, n ≠ [] ∧ '/' ∉ n) (s : View) :
    (fileSystem env arcStat allowOther proposed its).Step s (.list path)
      (if (cbReaddir tree (kernelPath path)).1 = 0 then .names (statted (cbReaddir tree (kernelPath path)).2)
        else .refused) s := by
  have hnode := find_kernelPath spec hpath env
  by_cases h : tree.contains ⟨kernelPath path⟩ = true
  · rw [if_pos (statted_cbReaddir h).1]
    refine .list ?_ (lists_cbReaddir spec hpath h env)
    rw [← hnode, Ne, Option.map_eq_none_iff]
    exact (StdMap.contains_iff ..).mp h
  · have hnone : tree.find? ⟨kernelPath path⟩ = none := by
      by_contra hne
      exact h ((StdMap.contains_iff ..).mpr hne)
    have hroot : kernelPath path ≠ ['/'] := by
      intro he
      have hempty : path = [] := by
        have hel := elements_kernelPath hpath
        rw [he] at hel
        exact (absolute_inj.mp (elements_root.symm.trans hel)).symm
      refine absurd hnone ?_
      rw [hempty]
      exact (spec.at_ne_none_iff []).mpr (.inl rfl)
    have hret : cbReaddir tree (kernelPath path) = (-enotdir, []) := if_pos ⟨hroot, Bool.eq_false_iff.mpr h⟩
    rw [hret, if_neg (by decide)]
    rw [hnone] at hnode
    exact .noList hnode.symm

include libc hcut in
theorem step_open {m m' : Mount} {view : View} (hserves : Serves tree m view) {path : List Str}
    (hallowed : Allowed m (.open path)) {ret : Int32} {fi : FuseFileInfo}
    (hopen : cbOpen env m (kernelPath path) {} = .ok (ret, fi, m')) :
    ∃ view', (fileSystem env arcStat allowOther proposed its).Step view (.open path)
      (if ret = 0 then .handle fi.fh else .refused) view' ∧ Serves tree m' view' := by
  obtain ⟨rfl, hsettled⟩ := hserves
  obtain ⟨hpath, hfound, hreg⟩ := hallowed
  have hnode := find_kernelPath spec hpath env
  rcases cbOpen_eq_ok hopen with ⟨hnone, -⟩ | ⟨el, hel, hlim, rfl, -, rfl⟩ | ⟨el, -, -, hel, -, -, -, rfl, -⟩
  · rw [cbGetattr, hnone] at hfound
    exact absurd hfound (by decide)
  · rw [if_neg (by decide)]
    refine ⟨view, .noOpen ⟨el.2, ?_, hlim⟩, rfl, hsettled⟩
    rw [nodeOf_eq spec, ← elements_kernelPath hpath]
    exact congrArg (Option.map Prod.snd) hel
  · rw [cbGetattr_of_find _ hel] at hreg
    obtain ⟨i, it, hshown, hnames, hit⟩ := shown_of_isReg spec hpath hel hreg
    obtain ⟨hfresh, hsome⟩ := opened_fresh hsettled.tracks hopen
    obtain ⟨htree, hsettled'⟩ := hsettled.step libc hcut (serve_open hopen)
    rw [View.after, if_pos rfl] at hsettled' hsome
    rw [Function.update_self] at hsome
    obtain ⟨bytes, hbytes⟩ := Option.ne_none_iff_exists'.mp hsome
    rw [hbytes] at hsettled'
    refine ⟨_, ?_, htree, hsettled'⟩
    rw [if_pos rfl]
    refine .open ⟨i, it, m.clock, hshown, hnames, ?_⟩ hfresh
    rw [hel, Option.bind_some, hit] at hbytes
    exact hbytes

omit spec in
include libc hcut in
theorem step_read {m m' : Mount} {view : View} (hserves : Serves tree m view) {handle offset size : ℕ}
    (hallowed : Allowed m (.read handle offset size)) {ret : Int32} {bytes : List UInt8}
    (hread : cbRead env m (UInt64.ofNat size) (Int64.ofNat offset) { fh := handle } = .ok (ret, bytes, m')) :
    (fileSystem env arcStat allowOther proposed its).Step view (.read handle offset size)
      (.data (bytes.take ret.toInt.toNat)) view ∧ Serves tree m' view := by
  obtain ⟨rfl, hsettled⟩ := hserves
  obtain ⟨hhandle, hoffset, hsize⟩ := hallowed
  obtain ⟨f, hf⟩ := Option.ne_none_iff_exists'.mp hhandle
  obtain ⟨_, hview, rfl, hfresh⟩ := hsettled.find_eq hf
  have hs : (UInt64.ofNat size).toNat = size := UInt64.toNat_ofNat_of_lt' (by show size < 2 ^ 64; omega)
  have ho : (Int64.ofNat offset).toInt = offset := Int64.toInt_ofNat_of_lt hoffset
  have ho' : 0 ≤ (Int64.ofNat offset).toInt := by omega
  have hs' : (UInt64.ofNat size).toNat < 2 ^ 31 := by omega
  obtain ⟨n, m'', heq, hn⟩ := cbRead_eq libc hf hfresh ho' hs'
  cases hread.symm.trans heq
  rw [ho, hs] at hn
  have hdata : (Bytes.slice f.file.content (Int64.ofNat offset).toInt.toNat ret.toInt.toNat).take ret.toInt.toNat =
      (f.file.content.drop offset).take size := by
    rw [ho, Int.toNat_natCast, Bytes.slice, List.take_take, List.take_eq_take_iff, List.length_drop]
    omega
  obtain ⟨htree, hsettled'⟩ := hsettled.step libc hcut (show serve env m
    (.read handle (UInt64.ofNat size) (Int64.ofNat offset)) = .ok (.data ret _, m') from bind_eq_ok.mpr ⟨_, heq, rfl⟩)
  rw [hdata]
  exact ⟨.read hview, htree, hsettled'⟩

omit spec in
include libc hcut in
theorem step_close {m m' : Mount} {view : View} (hserves : Serves tree m view) {handle : ℕ}
    (hallowed : Allowed m (.close handle)) {ret : Int32} (hrel : cbRelease m { fh := handle } = .ok (ret, m')) :
    (fileSystem env arcStat allowOther proposed its).Step view (.close handle) .closed (Function.update view handle none) ∧
      Serves tree m' (Function.update view handle none) := by
  obtain ⟨rfl, hsettled⟩ := hserves
  obtain ⟨htree, hsettled'⟩ := hsettled.step libc hcut (show serve env m (.release handle) = .ok (.released ret, m')
    from bind_eq_ok.mpr ⟨_, hrel, rfl⟩)
  exact ⟨.close ((hsettled.find_ne_none handle).mp hallowed), htree, hsettled'⟩

include libc hcut in
/-- Every response of the mount is one of the file system's. -/
theorem simulates_answer :
    (fileSystem env arcStat allowOther proposed its).Simulates (answer env) Allowed (.fresh tree) (Serves tree) where
  init := ⟨rfl, .fresh _ tree⟩
  step m view req resp m' hserves hallowed hanswer := by
    cases req with
    | stat path =>
      cases hanswer
      rw [hserves.1]
      exact ⟨view, step_stat spec hallowed view, hserves⟩
    | list path =>
      cases hanswer
      rw [hserves.1]
      exact ⟨view, step_list spec hallowed view, hserves⟩
    | «open» path =>
      obtain ⟨⟨ret, fi, m''⟩, hopen, hret⟩ := bind_eq_ok.mp hanswer
      cases hret
      exact step_open spec libc hcut hserves hallowed hopen
    | read handle offset size =>
      obtain ⟨⟨ret, bytes, m''⟩, hread, hret⟩ := bind_eq_ok.mp hanswer
      cases hret
      exact ⟨view, step_read libc hcut hserves hallowed hread⟩
    | close handle =>
      obtain ⟨⟨ret, m''⟩, hrel, hret⟩ := bind_eq_ok.mp hanswer
      cases hret
      exact ⟨_, step_close libc hcut hserves hallowed hrel⟩

/-- Only an open may not come back, and only as its extraction does not. -/
theorem answer_or_throws {m : Mount} (hm : m.tree = tree) {req : ReadOnlyFs.Request Str} (hallowed : Allowed m req) :
    (∃ resp m', answer env m req = .ok (resp, m')) ∨ ∃ path i it e, req = .open path ∧ Shown proposed its i it ∧
      namesOf proposed it = path ∧ Extractor.execute env m.clock (UInt32.ofNat i) = .error e := by
  cases req with
  | stat path => exact .inl ⟨_, _, rfl⟩
  | list path => exact .inl ⟨_, _, rfl⟩
  | «open» path =>
    obtain ⟨hpath, hfound, hreg⟩ := hallowed
    cases hel : m.tree.find? ⟨kernelPath path⟩ with
    | none =>
      rw [cbGetattr, hel] at hfound
      exact absurd hfound (by decide)
    | some el =>
      rw [cbGetattr_of_find _ hel] at hreg
      obtain ⟨i, it, hshown, hnames, hit⟩ := shown_of_isReg spec hpath (hm ▸ hel) hreg
      by_cases hlim : overLimit env el.2
      · exact .inl ⟨_, _, bind_eq_ok.mpr ⟨_, cbOpen_of_overLimit {} hel hlim, rfl⟩⟩
      · have hextract : el.1.extract env m.clock = Extractor.execute env m.clock (UInt32.ofNat i) := by
          rw [hit]
          rfl
        cases hx : Extractor.execute env m.clock (UInt32.ofNat i) with
        | ok r => exact .inl ⟨_, _, bind_eq_ok.mpr ⟨_, cbOpen_of_extract {} hel hlim (hextract.trans hx), rfl⟩⟩
        | error e => exact .inr ⟨path, i, it, e, rfl, hshown, hnames, hx⟩
  | read handle offset size =>
    obtain ⟨ret, bytes, m', hread⟩ := ((comes_back_iff env m handle).2.2 _ _).1 hallowed.1
    exact .inl ⟨_, _, bind_eq_ok.mpr ⟨_, hread, rfl⟩⟩
  | close handle =>
    obtain ⟨m', hrel⟩ := (comes_back_iff env m handle).1 hallowed
    exact .inl ⟨_, _, bind_eq_ok.mpr ⟨_, hrel, rfl⟩⟩

end mounted

/-- **A mount is a file system of its items, to read**, where no extraction sets a
size. Whatever requests the kernel makes, its responses are a trace of that file
system, with as many open handles as the mount has; and there is a response to
each that it may make next, but for an open of an item whose extraction does not
return. -/
theorem mount_is_file_system {loc : Locale} {arc : ImplArchive} {allowOther : Bool} {tree : FileTree} {env : Env}
    (h : execute loc arc allowOther = .ok tree) (libc : LibcReads env)
    (hcut : ∀ clock index, Extractor.Uncut env clock index) :
    ∃ its, List.Forall₂ (fun item it => decode loc arc item = .ok it) arc.items its ∧
      ∀ hist m, ReadOnlyFs.Runs (answer env) Allowed (.fresh tree) hist m →
        (∃ s, (fileSystem env arc.stat allowOther arc.proposed its).Trace hist s ∧
          ∀ handle, m.handles.find? handle ≠ none ↔ s handle ≠ none) ∧
        ∀ req, Allowed m req → (∃ resp m', answer env m req = .ok (resp, m')) ∨
          ∃ path i it e, req = .open path ∧ Shown arc.proposed its i it ∧ namesOf arc.proposed it = path ∧
            Extractor.execute env m.clock (UInt32.ofNat i) = .error e := by
  obtain ⟨its, hits, rfl⟩ := execute_ok h
  have spec := treeSpec_treeOf arc.stat arc.proposed allowOther its
  refine ⟨its, hits, fun hist m hruns => ?_⟩
  obtain ⟨s, htrace, hm, hsettled⟩ := (simulates_answer spec libc hcut).traces hruns
  exact ⟨⟨s, htrace, hsettled.find_ne_none⟩, fun req hallowed => answer_or_throws spec hm hallowed⟩

/-- Three bytes: an open, a read from the second on, and a close. -/
theorem mount_is_file_system_of_three : ∃ its s,
    (fileSystem (Env.plain (writing 0 [1, 2, 3] kOK)) zeroStat false ['x'] its).Trace
      [(.open [['a']], .handle 1), (.read 1 1 10, .data [2, 3]), (.close 1, .closed)] s ∧ s 1 = none := by
  have hlim : ¬ overLimit (Env.plain (writing 0 [1, 2, 3] kOK)) (fileStat zeroStat (.file ['a'] 3)) := by
    decide +kernel
  have hallowed : Allowed (Mount.single (.file ['a'] 3)) (.open [['a']]) := by
    refine ⟨by decide, ?_⟩
    rw [show kernelPath [['a']] = ['/', 'a'] from rfl, cbGetattr_of_find _ (find_single 3)]
    decide
  have hopen : answer (Env.plain (writing 0 [1, 2, 3] kOK)) (Mount.single (.file ['a'] 3)) (.open [['a']]) = .ok _ :=
    bind_eq_ok.mpr ⟨_, cbOpen_of_extract {} (find_single 3) hlim rfl, rfl⟩
  have h1 := ReadOnlyFs.Runs.step .start hallowed hopen
  have h2 := ReadOnlyFs.Runs.step h1 (show Allowed _ (.read 1 1 10) from ⟨Option.some_ne_none _, by decide, by decide⟩) rfl
  have h3 := ReadOnlyFs.Runs.step h2 (show Allowed _ (.close 1) from Option.some_ne_none _) rfl
  have libc : LibcReads (Env.plain (writing 0 [1, 2, 3] kOK)) := ⟨fun _ => rfl, fun _ => rfl⟩
  obtain ⟨its, -, h⟩ := mount_is_file_system (shownAt_single (sOk, .ui8 3)).mounted libc fun _ _ =>
    Extractor.uncut_of_only (Extractor.only_writing 0 [1, 2, 3] kOK)
  obtain ⟨⟨s, htrace, hs⟩, -⟩ := h _ _ h3
  refine ⟨its, s, htrace, ?_⟩
  by_contra hne
  exact (hs 1).mpr hne rfl

end Fuse

end Fuse3P7zip
