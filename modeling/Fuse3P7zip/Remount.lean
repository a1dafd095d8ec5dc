/-
# Packing what a mount shows

An archive made of a mounted tree, with one item for each path that is
listed, its path the names joined by slashes, and its type, size and times
those of the stat. `remount_same`: in whatever order the items are, mounting
it shows the same names with the same types, sizes and times, and packing
that gives the same archive again.

The parents that the loop of `execute` puts in are items then, and an item
that a later one replaced is gone; neither shows.
-/
import Fuse3P7zip.Kernel

namespace Fuse3P7zip
namespace Fuse

open FsPath (absolute absolute_inj pieces)

/-- The path of an item: the names behind each other. -/
def joined (names : List Str) : Str := List.intercalate ['/'] names

/-- The item for a path and its stat. -/
def packed (p : FsPath) (st : Stat) : Item where
  path := joined p.names
  name := []
  extension := []
  isDir := decide st.isDir
  size := st.stSize.toUInt64
  atime := st.stAtim
  mtime := st.stMtim
  ctime := st.stCtim

/-- A path that is listed by some `cb_readdir`: one that has a file name. -/
def listed (tree : FileTree) : List (FsPath × CiIterator × Stat) :=
  tree.entries.filter fun e => e.1.filename.empty = false

/-- The items of an archive of all that is listed. -/
def pack (tree : FileTree) : List Item := (listed tree).map fun e => packed e.1 e.2.2

/-- A stat in the mount of another archive: the type, the size and the times
stay, all else is that of the other archive's file. -/
def restat (arcStat st : Stat) : Stat := fileStat arcStat (packed ⟨[]⟩ st)

/-! ### Names and paths -/

theorem splitOn_joined {ns : List Str} (h0 : ns ≠ []) (h : ∀ n ∈ ns, '/' ∉ n) : (joined ns).splitOn '/' = ns :=
  List.splitOn_intercalate '/' h h0

theorem pieces_joined {ns : List Str} (h : ∀ n ∈ ns, n ≠ [] ∧ '/' ∉ n) : pieces (joined ns) = ns := by
  by_cases h0 : ns = []
  · rw [h0]
    rfl
  · rw [pieces, splitOn_joined h0 fun n hn => (h n hn).2, List.filter_eq_self]
    intro n hn
    exact decide_eq_true (h n hn).1

/-- The names of a path made of names are these. -/
theorem names_joined {ns : List Str} (h : ∀ n ∈ ns, n ≠ [] ∧ '/' ∉ n) : (FsPath.mk (joined ns)).names = ns := by
  by_cases h0 : ns = []
  · rw [h0]
    rfl
  · rw [FsPath.names_of_no_end, pieces_joined h]
    intro hlast
    obtain ⟨t, ht⟩ := List.getLast?_eq_some_iff.mp hlast
    have hsplit := splitOn_joined h0 fun n hn => (h n hn).2
    rw [ht, List.splitOn, List.splitOnP_append_cons t [] (by simp)] at hsplit
    have hnil : [] ∈ ns := by
      rw [← hsplit]
      exact List.mem_append_right _ (List.mem_singleton_self _)
    exact (h [] hnil).1 rfl

/-- The names of a listed path: there are some, none is empty or has a slash. -/
theorem names_of_listed {p : FsPath} (h : p.filename.empty = false) :
    p.names ≠ [] ∧ ∀ n ∈ p.names, n ≠ [] ∧ '/' ∉ n := by
  refine ⟨names_ne_nil_of_filename h, fun n hn => ⟨?_, FsPath.sep_not_mem_of_mem_names hn⟩⟩
  rintro rfl
  exact FsPath.nil_not_mem_of_filename (native_ne_nil_of_filename h) hn

/-- The packed item has the key it was packed from, whatever the archive's name. -/
theorem namesOf_packed (proposed : Str) {p : FsPath} (h : p.filename.empty = false) (st : Stat) :
    namesOf proposed (packed p st) = p.names := by
  obtain ⟨h0, hn⟩ := names_of_listed h
  have hnames : (FsPath.mk (packed p st).path).names = p.names := names_joined hn
  have hu : ¬ usesProposed (packed p st).path (packed p st).name := by
    rintro ⟨he, -⟩
    have hroot := ((FsPath.elements_eq_iff _ _).mp he).2
    rw [names_root_append, hnames] at hroot
    exact h0 hroot.symm
  have hname : nameOf proposed (packed p st) = [] := by
    rw [nameOf, if_neg hu]
    rfl
  rw [namesOf_eq, textNames, text, hname]
  exact hnames

/-! ### Stats -/

/-- The type, the size and the times. -/
theorem restat_keeps (arcStat : Stat) {st : Stat} (h : st.isDir ∨ st.isReg) :
    (restat arcStat st).stMode &&& sIfmt = st.stMode &&& sIfmt ∧ (restat arcStat st).stSize = st.stSize ∧
      (restat arcStat st).stAtim = st.stAtim ∧ (restat arcStat st).stMtim = st.stMtim ∧
      (restat arcStat st).stCtim = st.stCtim := by
  refine ⟨?_, Int64.toInt64_toUInt64 _, rfl, rfl, rfl⟩
  show (if (decide st.isDir) = true then _ else _) &&& sIfmt = _
  rcases h with h | h
  · rw [if_pos (decide_eq_true h), mode_masked, h]
    decide
  · have hnd : ¬ st.isDir := fun hd => not_isReg_of_isDir hd h
    rw [if_neg (by rw [decide_eq_true_iff]; exact hnd), mode_masked, h]
    decide

/-- What the first archive's loop made is what a second would. -/
theorem restat_fileStat (arcStat : Stat) (it : Item) : restat arcStat (fileStat arcStat it) = fileStat arcStat it := by
  have hdir : decide (fileStat arcStat it).isDir = it.isDir := by
    rw [Bool.eq_iff_iff, decide_eq_true_iff, isDir_fileStat]
  have hsize : (fileStat arcStat it).stSize.toUInt64.toInt64 = it.size.toInt64 := Int64.toInt64_toUInt64 _
  unfold restat packed
  rw [fileStat]
  simp only [hdir, hsize]
  rfl

/-- What the masked bits of `x` add to is there already. -/
theorem mode_again {x c d : UInt32} (m : UInt32) (h : (x &&& ~~~c) ||| d = d) :
    (((m &&& ~~~c) ||| x) &&& ~~~c) ||| d = (m &&& ~~~c) ||| d := by
  have hmask : ((m &&& ~~~c) ||| x) &&& ~~~c = (m &&& ~~~c) ||| (x &&& ~~~c) := by
    rw [← UInt32.toBitVec_inj]
    simp only [UInt32.toBitVec_and, UInt32.toBitVec_or, UInt32.toBitVec_not, BitVec.and_or_distrib_right,
      BitVec.and_assoc, BitVec.and_self]
  rw [hmask, UInt32.or_assoc, h]

/-- A parent has the mode bits of a directory, and those of a file besides are
among them. -/
theorem restat_parentEntry (arcStat : Stat) (it : Item) :
    restat arcStat (parentEntry arcStat it).2 = (parentEntry arcStat it).2 := by
  have hdir : decide (parentEntry arcStat it).2.isDir = true :=
    decide_eq_true (isDir_dirStat (fileStat arcStat it) it)
  have hsize : (parentEntry arcStat it).2.stSize.toUInt64.toInt64 = it.size.toInt64 := Int64.toInt64_toUInt64 _
  have hmode : (parentEntry arcStat it).2.stMode = (arcStat.stMode &&& ~~~sIfmt) ||| (sIfdir ||| 0o775) := by
    show ((fileStat arcStat it).stMode &&& ~~~sIfmt) ||| (sIfdir ||| 0o775) = _
    rw [fileStat]
    cases it.isDir
    · exact mode_again _ (by decide)
    · exact mode_again _ (by decide)
  unfold restat packed
  rw [fileStat]
  simp only [hdir, hsize, if_true, ← hmode]
  rfl

theorem isReg_fileStat (arcStat : Stat) {it : Item} (h : it.isDir = false) : (fileStat arcStat it).isReg := by
  show (if it.isDir = true then _ else _) &&& sIfmt = _
  rw [if_neg (by rw [h]; exact Bool.false_ne_true), mode_masked]
  decide

variable {arcStat : Stat} {allowOther : Bool} {proposed : Str} {its : List Item} {tree : FileTree}

/-- Every stat but the root's is one that the loop would make again. -/
theorem restat_shown (spec : TreeSpec arcStat proposed allowOther its tree) {a : List Str} (ha : a ≠ [])
    {v : CiIterator × Stat} (hv : tree.at (absolute a) = some v) :
    restat arcStat v.2 = v.2 ∧ (v.2.isDir ∨ v.2.isReg) := by
  rcases spec.cases hv with ⟨i, it, -, -, -, rfl⟩ | ⟨-, i, it, -, -, -, rfl⟩ | ⟨rfl, -, -⟩
  · refine ⟨restat_fileStat arcStat it, ?_⟩
    cases hd : it.isDir with
    | true => exact .inl ((isDir_fileStat arcStat it).mpr hd)
    | false => exact .inr (isReg_fileStat arcStat hd)
  · exact ⟨restat_parentEntry arcStat it, .inl (isDir_dirStat _ _)⟩
  · exact absurd rfl ha

/-! ### What is listed -/

/-- A listed path as it shows: its elements, and its stat. -/
def shown (e : FsPath × CiIterator × Stat) : (Bool ×ₗ List Str) × Stat := (e.1.elements, e.2.2)

theorem mem_shown {x : (Bool ×ₗ List Str) × Stat} : x ∈ (listed tree).map shown ↔
    ∃ e ∈ tree.entries, e.1.filename.empty = false ∧ shown e = x := by
  simp only [listed, List.mem_map, List.mem_filter, decide_eq_true_eq, and_assoc]

theorem pairwise_shown (tree : FileTree) : ((listed tree).map shown).Pairwise fun x y => x.1 < y.1 :=
  List.pairwise_map.mpr (tree.sorted.sublist List.filter_sublist)

/-- Lists that show the same, both in order, are the same. -/
theorem shown_ext {l l' : List ((Bool ×ₗ List Str) × Stat)} (hl : l.Pairwise fun x y => x.1 < y.1)
    (hl' : l'.Pairwise fun x y => x.1 < y.1) (h : ∀ x, x ∈ l ↔ x ∈ l') : l = l' := by
  have hperm : l.Perm l' := by
    apply (List.perm_ext_iff_of_nodup (hl.imp fun hlt he => ?_) (hl'.imp fun hlt he => ?_)).mpr h
    · exact absurd hlt (by rw [he]; exact lt_irrefl _)
    · exact absurd hlt (by rw [he]; exact lt_irrefl _)
  exact hperm.eq_of_pairwise (fun x y _ _ hxy hyx => absurd (hxy.trans hyx) (lt_irrefl _)) hl hl'

/-- A path of the tree that is listed. -/
theorem mem_shown_iff (spec : TreeSpec arcStat proposed allowOther its tree) {e : Bool ×ₗ List Str} {st : Stat} :
    (e, st) ∈ (listed tree).map shown ↔
      ∃ a it, e = absolute a ∧ a ≠ [] ∧ [] ∉ a ∧ tree.at (absolute a) = some (it, st) := by
  rw [mem_shown]
  constructor
  · rintro ⟨⟨k, it, st'⟩, hk, hf, hx⟩
    obtain ⟨rfl, rfl⟩ := Prod.mk.inj hx
    have hroot := rooted_of_treeSpec spec _ hk
    have hel : k.elements = absolute k.names := FsPath.elements_of_rooted hroot
    have hat : tree.at k.elements = some (it, st') := tree.at_of_mem hk
    obtain ⟨hne, hn⟩ := names_of_listed hf
    exact ⟨k.names, it, hel, hne, fun hnil => (hn [] hnil).1 rfl, by rw [← hel]; exact hat⟩
  · rintro ⟨a, it, rfl, hne, hnil, hat⟩
    obtain ⟨k, hk, hmem⟩ := StdMap.exists_mem_of_at hat
    have hnames : k.names = a := ((FsPath.elements_eq_absolute_iff k a).mp hk).2
    refine ⟨(k, it, st), hmem, ?_, Prod.ext hk rfl⟩
    have hlast : k.filename.native ∈ a := by
      rw [FsPath.filename, hnames, List.getLast?_eq_some_getLast hne]
      exact List.getLast_mem hne
    rw [FsPath.empty, List.isEmpty_eq_false_iff]
    exact fun h0 => hnil (h0 ▸ hlast)

/-! ### The second mount -/

variable {arcStat' : Stat} {allowOther' : Bool} {proposed' : Str} {its' : List Item} {tree' : FileTree}

theorem mem_pack {x : Item} : x ∈ pack tree ↔
    ∃ e ∈ tree.entries, e.1.filename.empty = false ∧ packed e.1 e.2.2 = x := by
  simp only [pack, listed, List.mem_map, List.mem_filter, decide_eq_true_eq, and_assoc]

/-- No two packed items have one key. -/
theorem namesOf_pack_nodup (spec : TreeSpec arcStat proposed allowOther its tree) :
    ((pack tree).map (namesOf proposed')).Nodup := by
  have hnames : (pack tree).map (namesOf proposed') = (listed tree).map fun e => e.1.names := by
    rw [pack, List.map_map]
    apply List.map_congr_left
    intro e he
    exact namesOf_packed proposed' (of_decide_eq_true (List.mem_filter.mp he).2) e.2.2
  have helements : ((listed tree).map fun e => e.1.names).map absolute = (listed tree).map fun e => e.1.elements := by
    rw [List.map_map]
    apply List.map_congr_left
    intro e he
    exact (FsPath.elements_of_rooted (rooted_of_treeSpec spec e (List.mem_of_mem_filter he))).symm
  rw [hnames]
  apply List.Nodup.of_map absolute
  rw [helements]
  exact elements_nodup tree _

/-- What is at a path in the second mount. -/
theorem at_remount (spec : TreeSpec arcStat proposed allowOther its tree)
    (spec' : TreeSpec arcStat' proposed' allowOther' its' tree') (hpack : its'.Perm (pack tree)) {a : List Str}
    (ha : a ≠ []) (hnil : [] ∉ a) :
    (tree'.at (absolute a)).map Prod.snd = (tree.at (absolute a)).map fun v => restat arcStat' v.2 := by
  cases hat : tree.at (absolute a) with
  | none =>
    suffices h : tree'.at (absolute a) = none by rw [h]; rfl
    by_contra hne
    rcases (spec'.at_ne_none_iff a).mp hne with h0 | ⟨x, hx, hp⟩
    · exact ha h0
    · -- a path above an item is above the path it was packed from
      obtain ⟨e, he, hf, rfl⟩ := mem_pack.mp (hpack.subset hx)
      rw [namesOf_packed proposed' hf] at hp
      have hel : e.1.elements = absolute e.1.names :=
        FsPath.elements_of_rooted (rooted_of_treeSpec spec e he)
      have hfound : tree.at (absolute e.1.names) ≠ none := by
        rw [← hel, tree.at_of_mem he]
        exact Option.some_ne_none _
      exact spec.closed a e.1.names ha hp hfound hat
  | some v =>
    have hshown : (absolute a, v.2) ∈ (listed tree).map shown :=
      (mem_shown_iff spec).mpr ⟨a, v.1, rfl, ha, hnil, hat⟩
    obtain ⟨e, he, hf, hx⟩ := mem_shown.mp hshown
    have hel : e.1.elements = absolute a := (Prod.mk.inj hx).1
    have hst : e.2.2 = v.2 := (Prod.mk.inj hx).2
    have hnames : e.1.names = a := ((FsPath.elements_eq_absolute_iff e.1 a).mp hel).2
    have hmem : packed e.1 e.2.2 ∈ its' := hpack.symm.subset (mem_pack.mpr ⟨e, he, hf, rfl⟩)
    obtain ⟨i, hi⟩ := List.getElem?_of_mem hmem
    have hkey : namesOf proposed' (packed e.1 e.2.2) = a := (namesOf_packed proposed' hf _).trans hnames
    have hnodup : (its'.map (namesOf proposed')).Nodup :=
      (hpack.map _).nodup_iff.mpr (namesOf_pack_nodup spec)
    have hlast : ∀ (j : ℕ) jt, i < j → its'[j]? = some jt →
        namesOf proposed' jt ≠ namesOf proposed' (packed e.1 e.2.2) := by
      intro j jt hij hj he
      have hi' : (its'.map (namesOf proposed'))[i]? = some (namesOf proposed' (packed e.1 e.2.2)) := by
        rw [List.getElem?_map, hi]
        rfl
      have hj' : (its'.map (namesOf proposed'))[j]? = some (namesOf proposed' (packed e.1 e.2.2)) := by
        rw [List.getElem?_map, hj, Option.map_some, he]
      have hlt := (List.getElem?_eq_some_iff.mp hi').1
      exact absurd ((List.getElem?_inj hlt hnodup).mp (hi'.trans hj'.symm)) (Nat.ne_of_lt hij)
    have hitem := spec'.item i _ hi hlast
    rw [hkey] at hitem
    rw [hitem, Option.map_some, Option.map_some, ← hst]
    rfl

/-- What the second mount lists is what the first does, with the stats made anew. -/
theorem shown_remount (spec : TreeSpec arcStat proposed allowOther its tree)
    (spec' : TreeSpec arcStat' proposed' allowOther' its' tree') (hpack : its'.Perm (pack tree)) :
    (listed tree').map shown = ((listed tree).map shown).map fun x => (x.1, restat arcStat' x.2) := by
  apply shown_ext (pairwise_shown tree')
  · exact List.pairwise_map.mpr (pairwise_shown tree)
  · rintro ⟨e, st⟩
    rw [mem_shown_iff spec', List.mem_map]
    constructor
    · rintro ⟨a, it, rfl, ha, hnil, hat⟩
      have h := at_remount spec spec' hpack ha hnil
      rw [hat] at h
      obtain ⟨v, hv, hst⟩ := Option.map_eq_some_iff.mp h.symm
      exact ⟨(absolute a, v.2), (mem_shown_iff spec).mpr ⟨a, v.1, rfl, ha, hnil, hv⟩, Prod.ext rfl hst⟩
    · rintro ⟨⟨e', st'⟩, hx, he⟩
      obtain ⟨rfl, rfl⟩ := Prod.mk.inj he
      obtain ⟨a, it, rfl, ha, hnil, hat⟩ := (mem_shown_iff spec).mp hx
      have h := at_remount spec spec' hpack ha hnil
      rw [hat] at h
      obtain ⟨v, hv, hst⟩ := Option.map_eq_some_iff.mp h
      exact ⟨a, v.1, rfl, ha, hnil, hv.trans (congrArg some (Prod.ext rfl hst))⟩

/-! ### What the callbacks see -/

theorem find_remount (spec : TreeSpec arcStat proposed allowOther its tree)
    (spec' : TreeSpec arcStat' proposed' allowOther' its' tree') (hpack : its'.Perm (pack tree)) {p : FsPath}
    (hne : p.names ≠ []) (hnil : [] ∉ p.names) :
    (tree'.find? p).map Prod.snd = (tree.find? p).map fun v => restat arcStat' v.2 := by
  cases hr : p.rooted with
  | true =>
    rw [StdMap.find?, StdMap.find?, FsPath.elements_of_rooted hr]
    exact at_remount spec spec' hpack hne hnil
  | false =>
    -- the paths of a tree all start with a slash
    have habs : ∀ a, p.elements ≠ absolute a := by
      intro a he
      rw [((FsPath.elements_eq_absolute_iff p a).mp he).1] at hr
      cases hr
    have hnone : tree.find? p = none := by
      by_contra h
      obtain ⟨a, he, -⟩ := (spec.keys p.elements).mp h
      exact habs a he
    have hnone' : tree'.find? p = none := by
      by_contra h
      obtain ⟨a, he, -⟩ := (spec'.keys p.elements).mp h
      exact habs a he
    rw [hnone, hnone']
    rfl

/-- `cb_getattr` on a path that is not the root. -/
theorem cbGetattr_remount (spec : TreeSpec arcStat proposed allowOther its tree)
    (spec' : TreeSpec arcStat' proposed' allowOther' its' tree') (hpack : its'.Perm (pack tree)) {p : Str}
    (hne : (FsPath.mk p).names ≠ []) (hnil : [] ∉ (FsPath.mk p).names) :
    (cbGetattr tree p = (-enoent, zeroStat) ∧ cbGetattr tree' p = (-enoent, zeroStat)) ∨
    ∃ a v, a ≠ [] ∧ tree.at (absolute a) = some v ∧ cbGetattr tree p = (0, v.2) ∧
      cbGetattr tree' p = (0, restat arcStat' v.2) := by
  have h := find_remount spec spec' hpack hne hnil
  cases hv : tree.find? ⟨p⟩ with
  | none =>
    rw [hv] at h
    refine .inl ⟨?_, ?_⟩
    · rw [cbGetattr, hv]
    · rw [cbGetattr, Option.map_eq_none_iff.mp h]
  | some v =>
    rw [hv] at h
    obtain ⟨v', hv', hst⟩ := Option.map_eq_some_iff.mp h
    obtain ⟨a, ha, -⟩ := (spec.keys (FsPath.mk p).elements).mp (by
      show tree.find? ⟨p⟩ ≠ none
      rw [hv]
      exact Option.some_ne_none v)
    refine .inr ⟨a, v, ?_, by rw [← ha]; exact hv, cbGetattr_of_find p hv, ?_⟩
    · rw [← ((FsPath.elements_eq_absolute_iff _ a).mp ha).2]
      exact hne
    · rw [cbGetattr_of_find p hv', hst]

/-- What a listing has of a listed path. -/
def dirShown (p : FsPath) (x : (Bool ×ₗ List Str) × Stat) : Option (Str × Option Stat) :=
  if p.elements = toLex ((ofLex x.1).1, (ofLex x.1).2.dropLast) then some ((ofLex x.1).2.getLast?.getD [], some x.2)
  else none

theorem dirEntry_eq_dirShown (p : FsPath) {e : FsPath × CiIterator × Stat} (h : e.1.filename.empty = false) :
    dirEntry p e = dirShown p (shown e) := by
  have hparent : e.1.parentPath.elements = toLex (e.1.rooted, e.1.names.dropLast) := by
    rw [FsPath.elements, FsPath.rooted_parentPath, FsPath.names_parentPath]
  have hl : Listed p e ↔ p.elements = toLex (e.1.rooted, e.1.names.dropLast) := by
    rw [← hparent]
    exact and_iff_left h
  rw [dirEntry_eq, dirShown]
  by_cases he : p.elements = toLex (e.1.rooted, e.1.names.dropLast)
  · rw [if_pos (hl.mpr he)]
    exact (if_pos he).symm
  · rw [if_neg fun h' => he (hl.mp h')]
    exact (if_neg he).symm

theorem filterMap_dirEntry (tree : FileTree) (p : FsPath) :
    tree.entries.filterMap (dirEntry p) = ((listed tree).map shown).filterMap (dirShown p) := by
  rw [listed, List.filterMap_map, List.filterMap_filter]
  apply List.filterMap_congr
  intro e _
  by_cases h : e.1.filename.empty = false
  · rw [if_pos (decide_eq_true h)]
    exact dirEntry_eq_dirShown p h
  · rw [if_neg (by simpa using h), dirEntry_eq, if_neg fun hl => h hl.2]

theorem dirShown_restat (p : FsPath) (x : (Bool ×ₗ List Str) × Stat) :
    dirShown p (x.1, restat arcStat' x.2) = (dirShown p x).map fun y => (y.1, y.2.map (restat arcStat')) := by
  unfold dirShown
  split_ifs <;> rfl

theorem contains_remount (spec : TreeSpec arcStat proposed allowOther its tree)
    (spec' : TreeSpec arcStat' proposed' allowOther' its' tree') (hpack : its'.Perm (pack tree)) {p : FsPath}
    (hnil : [] ∉ p.names) : tree'.contains p = tree.contains p := by
  by_cases hne : p.names = []
  · cases hr : p.rooted with
    | true =>
      -- another way to write the root, which is in every tree
      have hel : p.elements = absolute [] := by rw [FsPath.elements_of_rooted hr, hne]
      have hin : ∀ {st : Stat} {o : Bool} {s : Str} {l : List Item} {t : FileTree}, TreeSpec st s o l t →
          t.contains p = true := by
        intro st o s l t ht
        rw [StdMap.contains_iff, hel]
        exact (ht.at_ne_none_iff []).mpr (.inl rfl)
      rw [hin spec, hin spec']
    | false =>
      have hout : ∀ {st : Stat} {o : Bool} {s : Str} {l : List Item} {t : FileTree}, TreeSpec st s o l t →
          t.contains p = false := by
        intro st o s l t ht
        rw [← Bool.not_eq_true, StdMap.contains_iff, not_not]
        by_contra h
        obtain ⟨a, he, -⟩ := (ht.keys p.elements).mp h
        rw [((FsPath.elements_eq_absolute_iff p a).mp he).1] at hr
        cases hr
      rw [hout spec, hout spec']
  · have h := congrArg Option.isSome (find_remount spec spec' hpack hne hnil)
    rw [Option.isSome_map, Option.isSome_map] at h
    exact h

/-- `cb_readdir`. -/
theorem cbReaddir_remount (spec : TreeSpec arcStat proposed allowOther its tree)
    (spec' : TreeSpec arcStat' proposed' allowOther' its' tree') (hpack : its'.Perm (pack tree)) {p : Str}
    (hnil : [] ∉ (FsPath.mk p).names) :
    cbReaddir tree' p = ((cbReaddir tree p).1,
      (cbReaddir tree p).2.map fun x => (x.1, x.2.map (restat arcStat'))) := by
  have hlisting : tree'.entries.filterMap (dirEntry ⟨p⟩) =
      (tree.entries.filterMap (dirEntry ⟨p⟩)).map fun x => (x.1, x.2.map (restat arcStat')) := by
    rw [filterMap_dirEntry, filterMap_dirEntry, shown_remount spec spec' hpack, List.filterMap_map, List.map_filterMap]
    apply List.filterMap_congr
    intro x _
    exact dirShown_restat ⟨p⟩ x
  unfold cbReaddir
  rw [contains_remount spec spec' hpack hnil, hlisting]
  split_ifs <;> rfl

/-! ### The archive of the second mount -/

theorem packed_restat {st : Stat} (h : st.isDir ∨ st.isReg) {p q : FsPath} (hnames : p.names = q.names) :
    packed p (restat arcStat' st) = packed q st := by
  obtain ⟨hmode, hsize, -⟩ := restat_keeps arcStat' h
  have hdir : decide (restat arcStat' st).isDir = decide st.isDir := by
    apply decide_eq_decide.mpr
    unfold Stat.isDir
    rw [hmode]
  unfold packed
  rw [hnames, hdir, hsize]
  rfl

/-- The item of a listed path as it shows. -/
def packedShown (x : (Bool ×ₗ List Str) × Stat) : Item := { packed ⟨[]⟩ x.2 with path := joined (ofLex x.1).2 }

theorem pack_eq (tree : FileTree) : pack tree = ((listed tree).map shown).map packedShown := by
  rw [pack, List.map_map]
  rfl

theorem pack_remount (spec : TreeSpec arcStat proposed allowOther its tree)
    (spec' : TreeSpec arcStat' proposed' allowOther' its' tree') (hpack : its'.Perm (pack tree)) :
    pack tree' = pack tree := by
  rw [pack_eq, pack_eq, shown_remount spec spec' hpack, List.map_map]
  apply List.map_congr_left
  rintro ⟨e, st⟩ hx
  obtain ⟨a, it, rfl, ha, -, hat⟩ := (mem_shown_iff spec).mp hx
  show packedShown (_, restat arcStat' st) = packedShown (_, st)
  unfold packedShown
  rw [packed_restat (restat_shown spec ha hat).2 rfl]

/-- The type, the size and the times, which are the item's. -/
def seen (st : Stat) : UInt32 × Int64 × Timespec × Timespec × Timespec :=
  (st.stMode &&& sIfmt, st.stSize, st.stAtim, st.stMtim, st.stCtim)

theorem seen_restat (arcStat : Stat) {st : Stat} (h : st.isDir ∨ st.isReg) : seen (restat arcStat st) = seen st := by
  obtain ⟨h1, h2, h3, h4, h5⟩ := restat_keeps arcStat h
  unfold seen
  rw [h1, h2, h3, h4, h5]

/-- A stat in a listing is that of a listed path. -/
theorem stat_of_listing (spec : TreeSpec arcStat proposed allowOther its tree) {p n : Str} {st : Stat}
    (h : (n, some st) ∈ (cbReaddir tree p).2) : ∃ a it, a ≠ [] ∧ tree.at (absolute a) = some (it, st) := by
  unfold cbReaddir at h
  split_ifs at h
  · cases h
  · rcases List.mem_cons.mp h with h | h
    · cases h
    rcases List.mem_cons.mp h with h | h
    · cases h
    rw [filterMap_dirEntry] at h
    obtain ⟨⟨e, st'⟩, hx, hdir⟩ := List.mem_filterMap.mp h
    unfold dirShown at hdir
    split_ifs at hdir
    cases hdir
    obtain ⟨a, it, -, ha, -, hat⟩ := (mem_shown_iff spec).mp hx
    exact ⟨a, it, ha, hat⟩

/-- **A mount packed and mounted again shows the same.** Take the items of all
that a mount lists, in any order, under a path that is the names joined by
slashes: mounted as another archive they list the same names, and every path
but the root has the same type, size and times; all of the stat is the same if
the archives' files have one stat. Packing the second mount gives the same
items. -/
theorem remount_same (arcStat arcStat' : Stat) (allowOther allowOther' : Bool) (proposed proposed' : Str)
    (its : List Item) {its' : List Item} (hpack : its'.Perm (pack (treeOf arcStat allowOther proposed its))) :
    (∀ p, [] ∉ (FsPath.mk p).names →
      (cbReaddir (treeOf arcStat' allowOther' proposed' its') p).1 =
        (cbReaddir (treeOf arcStat allowOther proposed its) p).1 ∧
      ((cbReaddir (treeOf arcStat' allowOther' proposed' its') p).2.map fun x => (x.1, x.2.map seen)) =
        ((cbReaddir (treeOf arcStat allowOther proposed its) p).2.map fun x => (x.1, x.2.map seen)) ∧
      ((FsPath.mk p).names ≠ [] →
        (cbGetattr (treeOf arcStat' allowOther' proposed' its') p).1 =
          (cbGetattr (treeOf arcStat allowOther proposed its) p).1 ∧
        seen (cbGetattr (treeOf arcStat' allowOther' proposed' its') p).2 =
          seen (cbGetattr (treeOf arcStat allowOther proposed its) p).2) ∧
      (arcStat' = arcStat →
        cbReaddir (treeOf arcStat' allowOther' proposed' its') p = cbReaddir (treeOf arcStat allowOther proposed its) p ∧
        ((FsPath.mk p).names ≠ [] → cbGetattr (treeOf arcStat' allowOther' proposed' its') p =
          cbGetattr (treeOf arcStat allowOther proposed its) p))) ∧
    pack (treeOf arcStat' allowOther' proposed' its') = pack (treeOf arcStat allowOther proposed its) := by
  have spec := treeSpec_treeOf arcStat proposed allowOther its
  have spec' := treeSpec_treeOf arcStat' proposed' allowOther' its'
  refine ⟨fun p hnil => ⟨?_, ?_, fun hne => ?_, ?_⟩, pack_remount spec spec' hpack⟩
  · rw [cbReaddir_remount spec spec' hpack hnil]
  · rw [cbReaddir_remount spec spec' hpack hnil, List.map_map]
    apply List.map_congr_left
    rintro ⟨n, _ | st⟩ hx
    · rfl
    · obtain ⟨a, it, ha, hat⟩ := stat_of_listing spec hx
      show (n, some (seen (restat arcStat' st))) = (n, some (seen st))
      rw [seen_restat arcStat' (restat_shown spec ha hat).2]
  · rcases cbGetattr_remount spec spec' hpack hne hnil with ⟨h1, h2⟩ | ⟨a, v, ha, hat, h1, h2⟩
    · rw [h1, h2]
      exact ⟨rfl, rfl⟩
    · rw [h1, h2]
      exact ⟨rfl, seen_restat arcStat' (restat_shown spec ha hat).2⟩
  · rintro rfl
    constructor
    · have hsame : (cbReaddir (treeOf arcStat' allowOther proposed its) p).2.map
          (fun x => (x.1, x.2.map (restat arcStat'))) = (cbReaddir (treeOf arcStat' allowOther proposed its) p).2 := by
        refine (List.map_congr_left  ?_).trans (List.map_id _)
        rintro ⟨n, _ | st⟩ hx
        · rfl
        · obtain ⟨a, it, ha, hat⟩ := stat_of_listing spec hx
          show (n, some (restat arcStat' st)) = (n, some st)
          rw [(restat_shown spec ha hat).1]
      rw [cbReaddir_remount spec spec' hpack hnil, hsame]
    · intro hne
      rcases cbGetattr_remount spec spec' hpack hne hnil with ⟨h1, h2⟩ | ⟨a, v, ha, hat, h1, h2⟩
      · rw [h1, h2]
      · rw [h1, h2, (restat_shown spec ha hat).1]

/-- A file in a directory that is no item, packed in reverse: there are two items
now, and the listings are the same. -/
theorem remount_same_reversed :
    (pack (treeOf zeroStat false ['x'] [.file ['a', '/', 'b'] 3])).length = 2 ∧
    cbReaddir (treeOf zeroStat true ['y'] (pack (treeOf zeroStat false ['x'] [.file ['a', '/', 'b'] 3])).reverse)
      ['/', 'a'] = cbReaddir (treeOf zeroStat false ['x'] [.file ['a', '/', 'b'] 3]) ['/', 'a'] := by
  refine ⟨by decide +kernel, ?_⟩
  have h := remount_same zeroStat zeroStat false true ['x'] ['y'] [.file ['a', '/', 'b'] 3] (List.reverse_perm _)
  exact ((h.1 ['/', 'a'] (by decide)).2.2.2 rfl).1

end Fuse
end Fuse3P7zip
