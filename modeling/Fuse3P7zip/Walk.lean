/-
# Walking the mount

A walk starts at `/` and calls `cb_readdir` on `p / name` for the names it
is given, in whatever order. In the tree of any archive it comes to an end,
and then it has been given every key with a file name, each once, with the
stat that `cb_getattr` returns for it (`walk_spec`).

A key that ends with a slash has no file name and is in no listing, and the
root, which is its own parent, has none either.
-/
import Mathlib.Data.List.Nodup
import Fuse3P7zip.Fuse
import Fuse3P7zip.TreeSpec
import Fuse3P7zip.Lib.Frontier

namespace Fuse3P7zip
namespace Fuse

open FsPath (absolute)

/-- A path the walk was given, and the stat it was given with. -/
abbrev Node := FsPath × Option Stat

/-- What a call on a path gives: `p / name` for every name behind `.` and
`..`. -/
def children (tree : FileTree) (p : Node) : List Node :=
  ((cbReaddir tree p.1.native).2.drop 2).map fun entry => (p.1.append ⟨entry.1⟩, entry.2)

/-- `n` calls from `/` on: what is left to call on, and what was given. -/
abbrev Walk (tree : FileTree) (n : ℕ) (pending visited : List Node) : Prop :=
  Frontier.Walk (children tree) n ([(root, none)], []) (pending, visited)

/-! ### One listing -/

/-- The entry `e` of the tree is listed in `p`. -/
def Listed (p : FsPath) (e : FsPath × CiIterator × Stat) : Prop :=
  p.elements = e.1.parentPath.elements ∧ e.1.filename.empty = false

instance (p : FsPath) (e : FsPath × CiIterator × Stat) : Decidable (Listed p e) :=
  inferInstanceAs (Decidable (_ ∧ _))

theorem dirEntry_eq (p : FsPath) (e : FsPath × CiIterator × Stat) : dirEntry p e =
    if Listed p e then some (e.1.filename.native, some e.2.2) else none := rfl

theorem names_ne_nil_of_filename {p : FsPath} (h : p.filename.empty = false) : p.names ≠ [] := by
  intro h0
  rw [FsPath.filename, h0] at h
  cases h

theorem names_eq_concat {p : FsPath} (h : p.filename.empty = false) :
    p.names = p.names.dropLast ++ [p.filename.native] := by
  have hne := names_ne_nil_of_filename h
  rw [FsPath.filename, List.getLast?_eq_some_getLast hne, Option.getD_some]
  exact (List.dropLast_append_getLast hne).symm

theorem native_ne_nil_of_filename {p : FsPath} (h : p.filename.empty = false) :
    p.filename.native ≠ [] := by
  simpa [FsPath.empty] using h

/-- A listed entry's names are the directory's and its file name. -/
theorem Listed.names_eq {p : FsPath} {e : FsPath × CiIterator × Stat} (h : Listed p e) :
    e.1.names = p.names ++ [e.1.filename.native] := by
  have hp := ((FsPath.elements_eq_iff _ _).mp h.1).2
  rw [hp, FsPath.names_parentPath]
  exact names_eq_concat h.2

/-- `p / name` is the entry's key. -/
theorem Listed.append {p : FsPath} {e : FsPath × CiIterator × Stat} (h : Listed p e)
    (hr : e.1.rooted = true) :
    (p.append e.1.filename).rooted = true ∧ (p.append e.1.filename).names = e.1.names := by
  have hp : p.rooted = true := by
    rw [((FsPath.elements_eq_iff _ _).mp h.1).1, FsPath.rooted_parentPath, hr]
  have hmem : e.1.filename.native ∈ e.1.names := by
    rw [h.names_eq]; simp
  have hnil : [] ∉ p.names := by
    have := FsPath.nil_not_mem_of_filename (native_ne_nil_of_filename h.2)
    rw [h.names_eq] at this
    exact fun hm => this (List.mem_append_left _ hm)
  refine ⟨FsPath.rooted_append _ hp, ?_⟩
  have := FsPath.names_append_name hp hnil (native_ne_nil_of_filename h.2)
    (FsPath.sep_not_mem_of_mem_names hmem)
  rw [h.names_eq]
  exact this

/-- A call on a path of the tree: the fixed entries, and the listed ones in
the tree's order. -/
theorem cbReaddir_eq {tree : FileTree} {p : Str} (hp : tree.contains ⟨p⟩ = true) :
    cbReaddir tree p = (0, (['.'], none) :: (['.', '.'], none) ::
      (tree.entries.filter fun e => Listed ⟨p⟩ e).map fun e =>
        (e.1.filename.native, some e.2.2)) := by
  rw [cbReaddir, if_neg]
  · rw [← List.filterMap_eq_map', List.filterMap_filter]
    refine congrArg (fun l => ((0 : Int32), (['.'], none) :: (['.', '.'], none) :: l))
      (List.filterMap_congr fun e _ => ?_)
    by_cases h : Listed ⟨p⟩ e
    · rw [dirEntry_eq, if_pos h, if_pos (by simpa using h)]
    · rw [dirEntry_eq, if_neg h, if_neg (by simpa using h)]
  · rintro ⟨-, h⟩
    rw [hp] at h
    cases h

theorem children_eq {tree : FileTree} {p : Node} (hp : tree.contains p.1 = true) :
    children tree p = (tree.entries.filter fun e => Listed p.1 e).map fun e =>
      (p.1.append e.1.filename, some e.2.2) := by
  rw [children, cbReaddir_eq hp]
  simp only [List.drop_succ_cons, List.drop_zero, List.map_map]
  rfl

/-! ### The walk of a tree -/

variable {tree : FileTree}

/-- A node that can be asked: a path of the tree, with no empty name. -/
def Good (tree : FileTree) (p : Node) : Prop :=
  p.1.rooted = true ∧ [] ∉ p.1.names ∧ tree.contains p.1 = true

/-- The keys with a file name that are properly below a node. -/
def below (tree : FileTree) (p : Node) : List (Bool ×ₗ List (List Char)) :=
  (tree.entries.filter fun e => e.1.filename.empty = false ∧ p.1.names <+: e.1.names ∧
    p.1.names ≠ e.1.names).map fun e => e.1.elements

theorem mem_below {q : Node} {x : Bool ×ₗ List (List Char)} : x ∈ below tree q ↔
    ∃ e ∈ tree.entries, e.1.filename.empty = false ∧ q.1.names <+: e.1.names ∧
      q.1.names ≠ e.1.names ∧ e.1.elements = x := by
  simp only [below, List.mem_map, List.mem_filter, decide_eq_true_eq, and_assoc]

theorem elements_nodup (tree : FileTree) (q : FsPath × CiIterator × Stat → Bool) :
    ((tree.entries.filter q).map fun e => e.1.elements).Nodup :=
  (List.filter_sublist.map _).nodup tree.images_nodup

section closed

variable (hrooted : ∀ e ∈ tree.entries, e.1.rooted = true) (hclosed : Closed tree)

include hrooted

theorem map_children {p : Node} (hp : tree.contains p.1 = true) :
    (children tree p).map (fun c => c.1.elements) =
      (tree.entries.filter fun e => Listed p.1 e).map fun e => e.1.elements := by
  rw [children_eq hp, List.map_map]
  refine List.map_congr_left fun e he => ?_
  obtain ⟨hm, hl⟩ := List.mem_filter.mp he
  have h := Listed.append (by simpa using hl) (hrooted e hm)
  exact (FsPath.elements_eq_iff _ _).mpr ⟨h.1.trans (hrooted e hm).symm, h.2⟩

/-- What a call gives: the entries below the path, with their stat. -/
theorem of_mem_children {p c : Node} (hp : tree.contains p.1 = true) (hc : c ∈ children tree p) :
    ∃ e ∈ tree.entries, Listed p.1 e ∧ c.1.elements = e.1.elements ∧ c.2 = some e.2.2 := by
  rw [children_eq hp, List.mem_map] at hc
  obtain ⟨e, he, rfl⟩ := hc
  obtain ⟨hm, hl⟩ := List.mem_filter.mp he
  have hl : Listed p.1 e := by simpa using hl
  have h := hl.append (hrooted e hm)
  exact ⟨e, hm, hl, (FsPath.elements_eq_iff _ _).mpr ⟨h.1.trans (hrooted e hm).symm, h.2⟩, rfl⟩

theorem good_children {p c : Node} (hp : Good tree p) (hc : c ∈ children tree p) :
    Good tree c ∧ ∃ st, c.2 = some st ∧ cbGetattr tree c.1.native = (0, st) := by
  obtain ⟨e, he, hl, hce, hst⟩ := of_mem_children hrooted hp.2.2 hc
  have hat : tree.at c.1.elements = some e.2 := by rw [hce]; exact tree.at_of_mem he
  obtain ⟨h1, h2⟩ := (FsPath.elements_eq_iff _ _).mp hce
  refine ⟨⟨h1.trans (hrooted e he), ?_, ?_⟩, e.2.2, hst, cbGetattr_of_find _ hat⟩
  · rw [h2]
    exact FsPath.nil_not_mem_of_filename (native_ne_nil_of_filename hl.2)
  · rw [StdMap.contains_iff, hat]
    simp

theorem mem_map_children {p : Node} (hp : tree.contains p.1 = true) {x : Bool ×ₗ List (List Char)} :
    x ∈ (children tree p).map (fun c => c.1.elements) ↔
      ∃ e ∈ tree.entries, Listed p.1 e ∧ e.1.elements = x := by
  rw [map_children hrooted hp]
  simp only [List.mem_map, List.mem_filter, decide_eq_true_eq, and_assoc]

theorem map_children_nodup {p : Node} (hp : tree.contains p.1 = true) :
    ((children tree p).map fun c => c.1.elements).Nodup := by
  rw [map_children hrooted hp]
  exact elements_nodup _ _

/-- A child's names are the node's and one more. -/
theorem names_of_mem_children {p c : Node} (hp : tree.contains p.1 = true)
    (hc : c ∈ children tree p) :
    p.1.names <+: c.1.names ∧ c.1.names.length = p.1.names.length + 1 := by
  obtain ⟨e, he, hl, hce, -⟩ := of_mem_children hrooted hp hc
  rw [((FsPath.elements_eq_iff _ _).mp hce).2, hl.names_eq]
  exact ⟨List.prefix_append _ _, by simp⟩

/-- No key is below two children. -/
theorem below_children_disjoint {p c c' : Node} (hp : Good tree p) (hc : c ∈ children tree p)
    (hc' : c' ∈ children tree p) (hne : c.1.elements ≠ c'.1.elements) :
    (below tree c).Disjoint (below tree c') := by
  intro x hx hx'
  apply hne
  obtain ⟨e, he, -, h1, -, rfl⟩ := mem_below.mp hx
  obtain ⟨e', he', -, h1', -, hee⟩ := mem_below.mp hx'
  rw [((FsPath.elements_eq_iff _ _).mp hee).2] at h1'
  -- both children's names begin the key's, and there are equally many
  have hl : c.1.names.length = c'.1.names.length := by
    rw [(names_of_mem_children hrooted hp.2.2 hc).2, (names_of_mem_children hrooted hp.2.2 hc').2]
  have hnames : c.1.names = c'.1.names :=
    (List.prefix_of_prefix_length_le h1 h1' hl.le).eq_of_length hl
  have hg := (good_children hrooted hp hc).1.1
  have hg' := (good_children hrooted hp hc').1.1
  exact (FsPath.elements_eq_iff _ _).mpr ⟨hg.trans hg'.symm, hnames⟩

/-- No child is below a child. -/
theorem children_below_disjoint {p : Node} (hp : Good tree p) :
    ((children tree p).map fun c => c.1.elements).Disjoint
      ((children tree p).flatMap (below tree)) := by
  intro x hx hy
  obtain ⟨e, -, hl, rfl⟩ := (mem_map_children hrooted hp.2.2).mp hx
  obtain ⟨c, hc, hxc⟩ := List.mem_flatMap.mp hy
  obtain ⟨e', -, -, h1, h2, he⟩ := mem_below.mp hxc
  apply h2
  apply h1.eq_of_length
  rw [((FsPath.elements_eq_iff _ _).mp he).2, (names_of_mem_children hrooted hp.2.2 hc).2,
    hl.names_eq, List.length_append, List.length_singleton]

theorem below_nodup {p : Node} (hp : Good tree p) :
    ((children tree p).map (fun c => c.1.elements) ++
      (children tree p).flatMap (below tree)).Nodup := by
  have hnodup := map_children_nodup hrooted hp.2.2
  refine List.Nodup.append hnodup ?_ (children_below_disjoint hrooted hp)
  refine List.nodup_flatMap.mpr ⟨fun c _ => elements_nodup _ _, ?_⟩
  exact (List.pairwise_map.mp hnodup).imp_of_mem fun hc hc' hne =>
    below_children_disjoint hrooted hp hc hc' hne

include hclosed

/-- Of a key below a node, the ancestor one level below the node is one of its
children. -/
theorem exists_child_above {p : Node} (hp : Good tree p) {e : FsPath × CiIterator × Stat}
    (he : e ∈ tree.entries) (hf : e.1.filename.empty = false) {n : Str} {u : List Str}
    (hnames : e.1.names = p.1.names ++ n :: u) :
    ∃ c ∈ children tree p, c.1.names = p.1.names ++ [n] := by
  have hnil := FsPath.nil_not_mem_of_filename (native_ne_nil_of_filename hf)
  have hn : n ≠ [] := fun h0 => hnil (by rw [hnames, h0]; simp)
  have hpre : p.1.names ++ [n] <+: e.1.names := ⟨u, by rw [hnames]; simp⟩
  have hat : tree.at (absolute e.1.names) ≠ none := by
    rw [← FsPath.elements_of_rooted (hrooted e he), tree.at_of_mem he]
    simp
  -- the tree has the ancestors of its keys
  obtain ⟨v, hv⟩ := Option.ne_none_iff_exists'.mp
    (hclosed (p.1.names ++ [n]) e.1.names (by simp) hpre hat)
  obtain ⟨k, hk, hkm⟩ := StdMap.exists_mem_of_at hv
  obtain ⟨hkr, hkn⟩ := (FsPath.elements_eq_absolute_iff _ _).mp hk
  have hkf : k.filename.native = n := by rw [FsPath.filename, hkn]; simp
  have hkl : Listed p.1 (k, v) := by
    refine ⟨(FsPath.elements_eq_iff _ _).mpr ⟨?_, ?_⟩, ?_⟩
    · rw [FsPath.rooted_parentPath, hkr, hp.1]
    · rw [FsPath.names_parentPath, hkn, List.dropLast_concat]
    · simpa [FsPath.empty, hkf] using hn
  obtain ⟨c, hc, hck⟩ := List.mem_map.mp
    ((mem_map_children hrooted hp.2.2).mpr ⟨(k, v), hkm, hkl, rfl⟩)
  exact ⟨c, hc, ((FsPath.elements_eq_iff _ _).mp hck).2.trans hkn⟩

/-- What is below a node is its children and what is below them. -/
theorem below_perm {p : Node} (hp : Good tree p) : (below tree p).Perm
    ((children tree p).map (fun c => c.1.elements) ++ (children tree p).flatMap (below tree)) := by
  have hnodup : (below tree p).Nodup := elements_nodup _ _
  refine (List.perm_ext_iff_of_nodup hnodup (below_nodup hrooted hp)).mpr fun x => ?_
  rw [List.mem_append, mem_below, mem_map_children hrooted hp.2.2, List.mem_flatMap]
  constructor
  · rintro ⟨e, he, hf, ⟨t, ht⟩, hne, rfl⟩
    -- one name more is a child, and more are below one
    match t, ht with
    | [], ht => exact absurd (by simpa using ht) hne
    | [n], ht =>
      refine Or.inl ⟨e, he, ⟨(FsPath.elements_eq_iff _ _).mpr ⟨?_, ?_⟩, hf⟩, rfl⟩
      · rw [FsPath.rooted_parentPath, hrooted e he, hp.1]
      · rw [FsPath.names_parentPath, ← ht, List.dropLast_concat]
    | n :: n' :: u, ht =>
      obtain ⟨c, hc, hcn⟩ := exists_child_above hrooted hclosed hp he hf ht.symm
      refine Or.inr ⟨c, hc, mem_below.mpr ⟨e, he, hf, ?_, ?_, rfl⟩⟩
      · rw [hcn, ← ht]
        exact ⟨n' :: u, by simp⟩
      · rw [hcn, ← ht]
        simp
  · rintro (⟨e, he, hl, rfl⟩ | ⟨c, hc, hx⟩)
    · refine ⟨e, he, hl.2, ?_, ?_, rfl⟩
      · rw [hl.names_eq]
        exact List.prefix_append _ _
      · rw [hl.names_eq]
        simp
    · obtain ⟨e, he, hf, h1, h2, rfl⟩ := mem_below.mp hx
      obtain ⟨hpre, hl⟩ := names_of_mem_children hrooted hp.2.2 hc
      refine ⟨e, he, hf, hpre.trans h1, fun h => ?_, rfl⟩
      have := h1.length_le
      rw [← h] at this
      omega

end closed

/-! ### The walk of a mounted archive -/

theorem rooted_of_treeSpec {arcStat : Stat} {allowOther : Bool} {proposed : Str} {its : List Item}
    (spec : TreeSpec arcStat proposed allowOther its tree) :
    ∀ e ∈ tree.entries, e.1.rooted = true := by
  intro e he
  obtain ⟨a, ha, -⟩ := (spec.keys e.1.elements).mp (by rw [tree.at_of_mem he]; simp)
  exact ((FsPath.elements_eq_absolute_iff _ _).mp ha).1

theorem good_root {arcStat : Stat} {allowOther : Bool} {proposed : Str} {its : List Item}
    (spec : TreeSpec arcStat proposed allowOther its tree) : Good tree (root, none) := by
  refine ⟨rfl, by decide, ?_⟩
  rw [StdMap.contains_iff]
  exact (spec.at_ne_none_iff []).mpr (Or.inl rfl)

/-- From the root, every key with a file name is below. -/
theorem below_root : below tree (root, none) =
    (tree.entries.filter fun e => e.1.filename.empty = false).map fun e => e.1.elements := by
  refine congrArg _ (List.filter_congr fun e _ => ?_)
  have hr : root.names = [] := rfl
  simp only [hr, List.nil_prefix, true_and]
  by_cases h : e.1.filename.empty = false
  · simp [h, (names_ne_nil_of_filename h).symm]
  · simp [h]

/-- **Walking the mount enumerates it.** A walk makes at most one call for the
root and one for every key; no call fails; every stat is the one
`cb_getattr` returns; and a walk that has nothing left to call on, which
there is, was given every key with a file name, each once, and nothing else. -/
theorem walk_spec (arcStat : Stat) (allowOther : Bool) (proposed : Str) (its : List Item) :
    (∀ n pending visited, Walk (treeOf arcStat allowOther proposed its) n pending visited →
      n ≤ 1 + (treeOf arcStat allowOther proposed its).entries.length ∧
      (∀ p ∈ pending, (cbReaddir (treeOf arcStat allowOther proposed its) p.1.native).1 = 0) ∧
      (∀ c ∈ visited, ∃ st, c.2 = some st ∧
        cbGetattr (treeOf arcStat allowOther proposed its) c.1.native = (0, st)) ∧
      (pending = [] → (visited.map fun c => c.1.elements).Perm
        (((treeOf arcStat allowOther proposed its).entries.filter fun e =>
          e.1.filename.empty = false).map fun e => e.1.elements))) ∧
    ∃ n visited, Walk (treeOf arcStat allowOther proposed its) n [] visited := by
  have spec := treeSpec_treeOf arcStat proposed allowOther its
  generalize treeOf arcStat allowOther proposed its = tree at spec ⊢
  have hrooted := rooted_of_treeSpec spec
  have hroot := good_root spec
  have hbelow : ∀ p, Good tree p → _ := fun p hp => below_perm hrooted spec.closed hp
  have hgood : ∀ p, Good tree p → ∀ c ∈ children tree p, Good tree c := fun p hp c hc =>
    (good_children hrooted hp hc).1
  refine ⟨fun n pending visited hw => ⟨?_, fun p hp => ?_, ?_, ?_⟩, ?_⟩
  · have h := Frontier.Walk.length_add hbelow hgood hw hroot
    have hle : (below tree (root, none)).length ≤ tree.entries.length := by
      rw [below, List.length_map]
      exact List.length_filter_le _ _
    omega
  · have h := Frontier.Walk.pending hgood hw (by simpa using hroot) p hp
    rw [cbReaddir_eq h.2.2]
  · exact Frontier.Walk.visited hgood (fun p hp c hc => (good_children hrooted hp hc).2) hw
      (by simpa using hroot) (by simp)
  · rintro rfl
    have h := Frontier.Walk.perm hbelow hgood hw hroot
    rwa [below_root, List.flatMap_nil, List.append_nil] at h
  · obtain ⟨n, ⟨pending, visited⟩, hw, rfl⟩ :=
      Frontier.Walk.finish hbelow hgood hroot _ 0 (.here _) (Nat.zero_add _)
    exact ⟨n, visited, hw⟩

end Fuse
end Fuse3P7zip
