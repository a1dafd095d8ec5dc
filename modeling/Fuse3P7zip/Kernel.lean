/-
# What the kernel can reach

The kernel sends a path as `/` and names with single slashes between them,
none of them empty, `.` or `..`, and goes below a path only when it is a
directory. An archive's texts come as they are: a `.` or `..` in one of
them, or a slash at the end of a file's, makes a key no kernel path finds
(`reachable_iff`); a file's text that another text goes on from, or that is
empty, makes a file where the mount needs a directory (`dirsAreDirs_iff`).

`text` is an item's text, and its names are the key's (`namesOf_eq`).
-/
import Fuse3P7zip.Walk

namespace Fuse3P7zip
namespace Fuse

open FsPath (absolute pieces)

/-! ### An item's text -/

/-- The item's path, with its name behind a slash; only the name when it
begins with one. -/
def text (proposed : Str) (it : Item) : Str :=
  let name := nameOf proposed it
  if name = [] then it.path
  else if name.head? = some '/' then name
  else it.path ++ '/' :: name

/-- The names in an item's text. -/
def textNames (proposed : Str) (it : Item) : List Str := (FsPath.mk (text proposed it)).names

theorem names_root_append (s : Str) : (root.append ⟨s⟩).names = (FsPath.mk s).names := by
  by_cases h : s = []
  · subst h; rfl
  · by_cases hr : (FsPath.mk s).rooted = true
    · rw [FsPath.append_of_rooted hr]
    · have hn : (FsPath.mk s).rooted = false := by simpa using hr
      have := FsPath.names_append root ⟨s⟩ (by decide) h hn
      simpa [root] using this

/-- The key of an item has the names of its text. -/
theorem namesOf_eq (proposed : Str) (it : Item) : namesOf proposed it = textNames proposed it := by
  unfold namesOf keyOf textNames text
  generalize nameOf proposed it = name
  simp only
  split_ifs with h hr
  · exact names_root_append it.path
  · rw [FsPath.append_of_rooted]
    simpa [FsPath.rooted] using hr
  · have hrn : (FsPath.mk name).rooted = false := by
      simpa [FsPath.rooted] using hr
    have hp : (root.append ⟨it.path⟩).native ≠ [] :=
      FsPath.native_ne_nil_of_rooted (FsPath.rooted_append _ rooted_root)
    rw [FsPath.names_append _ _ hp h hrn, FsPath.names_append_sep _ _ h (by simpa using hr),
      FsPath.pieces_eq_filter, names_root_append, ← FsPath.pieces_eq_filter]

/-- The names of a key that are not empty are the pieces of the text. -/
theorem mem_pieces_iff {proposed : Str} {it : Item} {n : Str} :
    n ∈ pieces (text proposed it) ↔ n ∈ textNames proposed it ∧ n ≠ [] := by
  have h := FsPath.pieces_eq_filter ⟨text proposed it⟩
  rw [show pieces (text proposed it) = _ from h, List.mem_filter]
  simp [textNames]

theorem nil_mem_textNames_iff {proposed : Str} {it : Item} : [] ∈ textNames proposed it ↔
    pieces (text proposed it) ≠ [] ∧ (text proposed it).getLast? = some '/' := by
  rw [textNames, FsPath.names]
  split_ifs with h
  · simpa using h
  · constructor
    · intro hm
      exact absurd rfl (FsPath.ne_nil_of_mem_pieces hm)
    · exact fun h' => absurd h' h

/-- The item `it`, the `i`-th, with no later one under its key. -/
def Shown (proposed : Str) (its : List Item) (i : ℕ) (it : Item) : Prop :=
  its[i]? = some it ∧ ∀ (j : ℕ) jt, i < j → its[j]? = some jt →
    (keyOf proposed jt).elements ≠ (keyOf proposed it).elements

theorem keyOf_elements_eq_iff (proposed : Str) (it jt : Item) :
    (keyOf proposed it).elements = (keyOf proposed jt).elements ↔
      textNames proposed it = textNames proposed jt := by
  rw [elements_keyOf, elements_keyOf, FsPath.absolute_inj, namesOf_eq, namesOf_eq]

/-! ### Kernel paths -/

def KernelName (n : Str) : Prop := n ≠ [] ∧ n ≠ ['.'] ∧ n ≠ ['.', '.'] ∧ '/' ∉ n

/-- A path as the kernel sends it. -/
def kernelPath (ns : List Str) : Str := if ns = [] then ['/'] else ns.flatMap ('/' :: ·)

theorem pieces_flatMap : ∀ ns : List Str, (∀ n ∈ ns, n ≠ [] ∧ '/' ∉ n) →
    pieces (ns.flatMap ('/' :: ·)) = ns := by
  intro ns
  induction ns using List.reverseRecOn with
  | nil => intro _; rfl
  | append_singleton ns n ih =>
    intro h
    have ih := ih fun m hm => h m (by simp [hm])
    obtain ⟨h0, hs⟩ := h n (by simp)
    rw [List.flatMap_append, List.flatMap_singleton, FsPath.pieces_append_sep, ih,
      FsPath.pieces_of_no_sep hs, if_neg h0]

theorem elements_kernelPath {ns : List Str} (h : ∀ n ∈ ns, n ≠ [] ∧ '/' ∉ n) :
    (FsPath.mk (kernelPath ns)).elements = absolute ns := by
  rw [FsPath.elements_eq_absolute_iff]
  rcases List.eq_nil_or_concat ns with rfl | ⟨l, n, rfl⟩
  · exact ⟨rfl, rfl⟩
  · rw [List.concat_eq_append] at h ⊢
    have hp : kernelPath (l ++ [n]) = (l ++ [n]).flatMap ('/' :: ·) := if_neg (by simp)
    obtain ⟨h0, hs⟩ := h n (by simp)
    rw [hp]
    constructor
    · cases l <;> rfl
    · rw [FsPath.names_of_no_end, pieces_flatMap _ h]
      rw [List.flatMap_append, List.flatMap_singleton]
      intro hl
      have hln : (l.flatMap ('/' :: ·) ++ '/' :: n).getLast? = n.getLast? := by
        rw [List.getLast?_append_of_ne_nil _ (by simp), List.getLast?_cons_of_ne_nil h0]
      rw [hln] at hl
      exact hs (List.mem_of_getLast? hl)

/-! ### Reachable files -/

variable (arcStat : Stat) (allowOther : Bool) (proposed : Str) (its : List Item)

/-- The key of the `i`-th item is `/` and names of a kernel path, and the
callbacks find the item under one. -/
def Reachable (tree : FileTree) (i : ℕ) (it : Item) : Prop :=
  (∀ n ∈ (keyOf proposed it).names, KernelName n) ∧
  ∃ ns, (∀ n ∈ ns, KernelName n) ∧
    tree.find? ⟨kernelPath ns⟩ = some (.item i, fileStat arcStat it)

/-- The names one call of `cb_readdir` passes to `filler`. -/
def listing (tree : FileTree) (p : Str) : List Str := (cbReaddir tree p).2.map Prod.fst

/-- The names of the tree's entries in a directory. -/
def entryNames (tree : FileTree) (p : Str) : List Str :=
  (tree.entries.filter fun e => Listed ⟨p⟩ e).map fun e => e.1.filename.native

theorem mem_entryNames {tree : FileTree} {p n : Str} : n ∈ entryNames tree p ↔
    ∃ e ∈ tree.entries, Listed ⟨p⟩ e ∧ e.1.filename.native = n := by
  simp only [entryNames, List.mem_map, List.mem_filter, decide_eq_true_eq, and_assoc]

theorem listing_eq {tree : FileTree} {p : Str} (hp : tree.contains ⟨p⟩ = true) :
    listing tree p = ['.'] :: ['.', '.'] :: entryNames tree p := by
  rw [listing, cbReaddir_eq hp]
  simp only [entryNames, List.map_cons, List.map_map, Function.comp_def]

/-- Only the root and paths of the tree have a listing. -/
theorem listing_of_not_contains {tree : FileTree} {p : Str} (hp : tree.contains ⟨p⟩ = false)
    (hr : tree.contains root = true) : listing tree p = [] := by
  have hne : p ≠ ['/'] := by
    rintro rfl
    exact absurd (hr.symm.trans hp) (by decide)
  rw [listing, cbReaddir, if_pos ⟨hne, hp⟩]
  rfl

variable {arcStat allowOther proposed its} {tree : FileTree}

/-- The names of the tree's paths are names of the items' texts, and with a
path of an item's text the tree has all in front of it. -/
theorem mem_tree_iff (spec : TreeSpec arcStat proposed allowOther its tree) {a : List Str} :
    (∃ e ∈ tree.entries, e.1.elements = absolute a) ↔
      a = [] ∨ ∃ it ∈ its, a <+: textNames proposed it := by
  have h := spec.at_ne_none_iff a
  simp only [namesOf_eq] at h
  rw [← h]
  constructor
  · rintro ⟨e, he, hea⟩
    rw [← hea, tree.at_of_mem he]
    simp
  · intro hne
    obtain ⟨v, hv⟩ := Option.ne_none_iff_exists'.mp hne
    obtain ⟨k, hk, hkm⟩ := StdMap.exists_mem_of_at hv
    exact ⟨(k, v), hkm, hk⟩

/-- The parent of an entry is in the tree. -/
theorem contains_parentPath (spec : TreeSpec arcStat proposed allowOther its tree)
    {e : FsPath × CiIterator × Stat} (he : e ∈ tree.entries) :
    tree.contains e.1.parentPath = true := by
  have hr := rooted_of_treeSpec spec e he
  have hat : tree.at (absolute e.1.names) ≠ none := by
    rw [← FsPath.elements_of_rooted hr, tree.at_of_mem he]
    simp
  rw [StdMap.contains_iff, FsPath.elements_of_rooted (by rw [FsPath.rooted_parentPath, hr]),
    FsPath.names_parentPath, spec.at_ne_none_iff]
  rcases (spec.at_ne_none_iff _).mp hat with h | ⟨it, hit, h⟩
  · left
    rw [h]
    rfl
  · exact Or.inr ⟨it, hit, (List.dropLast_prefix _).trans h⟩

/-- A piece of a text is the name of an entry, and in the listing of its
parent. -/
theorem exists_listing_of_piece (spec : TreeSpec arcStat proposed allowOther its tree) {it : Item}
    (hit : it ∈ its) {n : Str} (hn : n ∈ pieces (text proposed it)) :
    ∃ p, tree.contains ⟨p⟩ = true ∧ n ∈ entryNames tree p := by
  obtain ⟨hn, h0⟩ := mem_pieces_iff.mp hn
  obtain ⟨a, b, hab⟩ := List.append_of_mem hn
  have hpre : a ++ [n] <+: textNames proposed it := ⟨b, by rw [hab]; simp⟩
  obtain ⟨e, he, hea⟩ := (mem_tree_iff spec).mpr (Or.inr ⟨it, hit, hpre⟩)
  have hf : e.1.filename.native = n := by
    rw [FsPath.filename, ((FsPath.elements_eq_absolute_iff _ _).mp hea).2]
    simp
  have hl : Listed e.1.parentPath e := ⟨rfl, by simpa [FsPath.empty, hf] using h0⟩
  exact ⟨e.1.parentPath.native, contains_parentPath spec he, mem_entryNames.mpr ⟨e, he, hl, hf⟩⟩

/-- The name of an entry is a piece of a text. -/
theorem exists_piece_of_entryNames (spec : TreeSpec arcStat proposed allowOther its tree)
    {p n : Str} (hn : n ∈ entryNames tree p) : ∃ it ∈ its, n ∈ pieces (text proposed it) := by
  obtain ⟨e, he, hl, rfl⟩ := mem_entryNames.mp hn
  have hlast : e.1.filename.native ∈ e.1.names := by
    rw [hl.names_eq]
    simp
  have habs := FsPath.elements_of_rooted (rooted_of_treeSpec spec e he)
  rcases (mem_tree_iff spec).mp ⟨e, he, habs⟩ with h0 | ⟨it, hit, hpre⟩
  · exact absurd h0 (names_ne_nil_of_filename hl.2)
  · exact ⟨it, hit, mem_pieces_iff.mpr ⟨hpre.subset hlast, native_ne_nil_of_filename hl.2⟩⟩

/-- Two entries of a directory have different names. -/
theorem entryNames_nodup (spec : TreeSpec arcStat proposed allowOther its tree) (p : Str) :
    (entryNames tree p).Nodup := by
  have hpw := List.pairwise_map.mp (elements_nodup tree fun e => Listed ⟨p⟩ e)
  refine List.pairwise_map.mpr (hpw.imp_of_mem fun {e e'} he he' hne hf => hne ?_)
  obtain ⟨hem, hl⟩ := List.mem_filter.mp he
  obtain ⟨hem', hl'⟩ := List.mem_filter.mp he'
  have hl : Listed ⟨p⟩ e := by simpa using hl
  have hl' : Listed ⟨p⟩ e' := by simpa using hl'
  have hr := rooted_of_treeSpec spec e hem
  have hr' := rooted_of_treeSpec spec e' hem'
  refine (FsPath.elements_eq_iff _ _).mpr ⟨hr.trans hr'.symm, ?_⟩
  rw [hl.names_eq, hl'.names_eq, hf]

/-- The listings have no name twice exactly when no text has a `.` or `..` in
it. -/
theorem listing_nodup_iff (spec : TreeSpec arcStat proposed allowOther its tree) :
    (∀ p, (listing tree p).Nodup) ↔ ∀ it ∈ its, ['.'] ∉ pieces (text proposed it) ∧
      ['.', '.'] ∉ pieces (text proposed it) := by
  constructor
  · intro h it hit
    constructor
    · intro hn
      obtain ⟨p, hp, hm⟩ := exists_listing_of_piece spec hit hn
      have hnd := h p
      rw [listing_eq hp] at hnd
      exact (List.nodup_cons.mp hnd).1 (List.mem_cons_of_mem _ hm)
    · intro hn
      obtain ⟨p, hp, hm⟩ := exists_listing_of_piece spec hit hn
      have hnd := h p
      rw [listing_eq hp] at hnd
      exact (List.nodup_cons.mp (List.nodup_cons.mp hnd).2).1 hm
  · intro h p
    have h1 : ['.'] ∉ entryNames tree p := fun hm => by
      obtain ⟨it, hit, hn⟩ := exists_piece_of_entryNames spec hm
      exact (h it hit).1 hn
    have h2 : ['.', '.'] ∉ entryNames tree p := fun hm => by
      obtain ⟨it, hit, hn⟩ := exists_piece_of_entryNames spec hm
      exact (h it hit).2 hn
    cases hp : tree.contains ⟨p⟩ with
    | true =>
      rw [listing_eq hp]
      simp [h1, h2, entryNames_nodup spec p]
    | false =>
      rw [listing_of_not_contains hp (good_root spec).2.2]
      exact List.nodup_nil

/-- A file that is shown is found under its key's names. -/
theorem find_shown (spec : TreeSpec arcStat proposed allowOther its tree) {i : ℕ} {it : Item}
    (h : Shown proposed its i it) :
    tree.at (absolute (textNames proposed it)) = some (.item i, fileStat arcStat it) := by
  rw [← namesOf_eq]
  refine spec.item i it h.1 fun j jt hj hjt he => h.2 j jt hj hjt ?_
  rw [elements_keyOf, elements_keyOf, he]

theorem reachable_iff_names (spec : TreeSpec arcStat proposed allowOther its tree) {i : ℕ} {it : Item}
    (h : Shown proposed its i it) : Reachable arcStat proposed tree i it ↔
      [] ∉ textNames proposed it ∧ ['.'] ∉ pieces (text proposed it) ∧
        ['.', '.'] ∉ pieces (text proposed it) := by
  have hnames : (keyOf proposed it).names = textNames proposed it := namesOf_eq proposed it
  constructor
  · rintro ⟨hk, -⟩
    rw [hnames] at hk
    refine ⟨fun hm => (hk _ hm).1 rfl, fun hm => ?_, fun hm => ?_⟩
    · exact (hk _ (mem_pieces_iff.mp hm).1).2.1 rfl
    · exact (hk _ (mem_pieces_iff.mp hm).1).2.2.1 rfl
  · rintro ⟨h0, h1, h2⟩
    have hk : ∀ n ∈ textNames proposed it, KernelName n := by
      intro n hn
      have hne : n ≠ [] := fun h => h0 (h ▸ hn)
      exact ⟨hne, fun h => h1 (mem_pieces_iff.mpr ⟨h ▸ hn, by simp⟩),
        fun h => h2 (mem_pieces_iff.mpr ⟨h ▸ hn, by simp⟩), FsPath.sep_not_mem_of_mem_names hn⟩
    refine ⟨hnames ▸ hk, textNames proposed it, hk, ?_⟩
    rw [StdMap.find?, elements_kernelPath fun n hn => ⟨(hk n hn).1, (hk n hn).2.2.2⟩]
    exact find_shown spec h

variable (arcStat allowOther proposed its)

/-- **When the kernel reaches every file.** Every file that no later item
replaces is found under a kernel path, and no listing has a name twice,
exactly when no item's text has a `.` or `..` between its slashes and no
such file's text has a name and ends with a slash. -/
theorem reachable_iff :
    ((∀ (i : ℕ) it, Shown proposed its i it → it.isDir = false →
        Reachable arcStat proposed (treeOf arcStat allowOther proposed its) i it) ∧
      ∀ p, (listing (treeOf arcStat allowOther proposed its) p).Nodup) ↔
    (∀ it ∈ its, ['.'] ∉ pieces (text proposed it) ∧ ['.', '.'] ∉ pieces (text proposed it)) ∧
    ∀ (i : ℕ) it, Shown proposed its i it → it.isDir = false →
      pieces (text proposed it) = [] ∨ (text proposed it).getLast? ≠ some '/' := by
  have spec := treeSpec_treeOf arcStat proposed allowOther its
  rw [listing_nodup_iff spec, and_comm]
  refine and_congr_right fun hdots => forall₄_congr fun i it hs hd => ?_
  have hit : it ∈ its := List.mem_of_getElem? hs.1
  rw [reachable_iff_names spec hs, nil_mem_textNames_iff, not_and_or, not_not]
  exact and_iff_left (hdots it hit)

/-- In a tar made with `tar c .` the file `./a` is under a key with a `.`. -/
theorem dot_not_reachable :
    let it := Item.file ['.', '/', 'a'] 3
    ¬ ((∀ (i : ℕ) jt, Shown ['x'] [it] i jt → jt.isDir = false →
        Reachable zeroStat ['x'] (treeOf zeroStat false ['x'] [it]) i jt) ∧
      ∀ p, (listing (treeOf zeroStat false ['x'] [it]) p).Nodup) := by
  intro it h
  have hs : Shown ['x'] [it] 0 it := by
    refine ⟨rfl, fun j jt hj hjt => ?_⟩
    have := (List.getElem?_eq_some_iff.mp hjt).1
    simp only [List.length_singleton] at this
    omega
  have hk := (h.1 0 it hs rfl).1 ['.'] (by decide)
  exact hk.2.1 rfl

/-! ### Directories -/

/-- Every parent of a key with a file name is a directory, and so is the
root. -/
def DirsAreDirs (tree : FileTree) : Prop :=
  (∀ e ∈ tree.entries, ∀ e' ∈ tree.entries, e'.1.filename.empty = false →
    e.1.elements = e'.1.parentPath.elements → e.2.2.isDir) ∧
  (cbGetattr tree ['/']).1 = 0 ∧ (cbGetattr tree ['/']).2.isDir

instance (tree : FileTree) : Decidable (DirsAreDirs tree) := inferInstanceAs (Decidable (_ ∧ _))

variable {arcStat allowOther proposed its}

/-- A path of the tree that is no directory is a file that is shown. -/
theorem exists_shown_of_not_isDir (spec : TreeSpec arcStat proposed allowOther its tree)
    {a : List Str} {v : CiIterator × Stat} (hv : tree.at (absolute a) = some v)
    (hnd : ¬ v.2.isDir) :
    ∃ (i : ℕ) (it : Item), Shown proposed its i it ∧ it.isDir = false ∧
      textNames proposed it = a := by
  rcases spec.cases hv with ⟨i, it, hi, ha, hlast, rfl⟩ | ⟨-, i, it, -, -, -, rfl⟩ | ⟨-, -, rfl⟩
  · have hshown : Shown proposed its i it := by
      refine ⟨hi, fun j jt hj hjt he => hlast j jt hj hjt ?_⟩
      rw [← ha, namesOf_eq, namesOf_eq]
      exact (keyOf_elements_eq_iff _ _ _).mp he
    exact ⟨i, it, hshown, by simpa [isDir_fileStat] using hnd, by rw [← namesOf_eq, ha]⟩
  · exact absurd (isDir_dirStat _ it) hnd
  · exact absurd (isDir_rootStat _ _) hnd

variable (arcStat allowOther proposed its)

/-- **When every parent is a directory.** No file that no later item replaces
has a text without names, or one that another item's text goes on from with
a name. -/
theorem dirsAreDirs_iff : DirsAreDirs (treeOf arcStat allowOther proposed its) ↔
    ∀ (i : ℕ) it, Shown proposed its i it → it.isDir = false →
      textNames proposed it ≠ [] ∧ ∀ jt ∈ its, ∀ n, n ≠ [] →
        ¬ textNames proposed it ++ [n] <+: textNames proposed jt := by
  have spec := treeSpec_treeOf arcStat proposed allowOther its
  generalize treeOf arcStat allowOther proposed its = tree at spec ⊢
  constructor
  · rintro ⟨hpar, -, hroot⟩ i it hs hd
    have hat := find_shown spec hs
    have hfile : ¬ (fileStat arcStat it).isDir := by
      rw [isDir_fileStat, hd]
      decide
    refine ⟨fun h0 => hfile ?_, fun jt hjt n hn hpre => hfile ?_⟩
    · -- the file is the root
      rw [h0] at hat
      rwa [cbGetattr_of_find ['/'] hat] at hroot
    · -- the file is the parent of a path of the other item
      obtain ⟨e', he', hea⟩ := (mem_tree_iff spec).mpr (Or.inr ⟨jt, hjt, hpre⟩)
      obtain ⟨k, hk, hkm⟩ := StdMap.exists_mem_of_at hat
      obtain ⟨hr, hnames⟩ := (FsPath.elements_eq_absolute_iff _ _).mp hea
      have hf : e'.1.filename.native = n := by
        rw [FsPath.filename, hnames]
        simp
      have hparent : e'.1.parentPath.elements = absolute (textNames proposed it) := by
        rw [FsPath.elements_eq_absolute_iff, FsPath.rooted_parentPath, FsPath.names_parentPath,
          hnames, List.dropLast_concat]
        exact ⟨hr, rfl⟩
      exact hpar _ hkm e' he' (by simpa [FsPath.empty, hf] using hn) (hk.trans hparent.symm)
  · intro h
    refine ⟨fun e he e' he' hf hpe => ?_, ?_⟩
    · by_contra hnd
      have hat := tree.at_of_mem he
      rw [FsPath.elements_of_rooted (rooted_of_treeSpec spec e he)] at hat
      obtain ⟨i, it, hs, hd, hnames⟩ := exists_shown_of_not_isDir spec hat hnd
      have hl : Listed e.1 e' := ⟨hpe, hf⟩
      have habs := FsPath.elements_of_rooted (rooted_of_treeSpec spec e' he')
      rcases (mem_tree_iff spec).mp ⟨e', he', habs⟩ with h0 | ⟨jt, hjt, hpre⟩
      · exact names_ne_nil_of_filename hf h0
      · apply (h i it hs hd).2 jt hjt e'.1.filename.native (native_ne_nil_of_filename hf)
        rwa [hnames, ← hl.names_eq]
    · obtain ⟨el, hel⟩ := Option.ne_none_iff_exists'.mp ((spec.at_ne_none_iff []).mpr (Or.inl rfl))
      rw [cbGetattr_of_find ['/'] hel]
      refine ⟨rfl, ?_⟩
      by_contra hnd
      obtain ⟨i, it, hs, hd, hnames⟩ := exists_shown_of_not_isDir spec hel hnd
      exact (h i it hs hd).1 hnames

/-- A file `a` and an item `a/b`. -/
theorem file_with_child :
    ¬ DirsAreDirs (treeOf zeroStat false ['x'] [.file ['a'] 3, .file ['a', '/', 'b'] 3]) := by
  decide +kernel

end Fuse
end Fuse3P7zip
