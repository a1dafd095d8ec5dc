/-
# What the tree of a list of items is

`TreeSpec its tree` says it without a loop: an item's key holds the last
item with that key; a path that is only above items is a directory with the
stat of the first item below it; the root keeps its entry unless an item
has its key; and there is nothing else.

The loop keeps it (`TreeSpec.step`, `TreeSpec.run`). Its parents' loop
stops at the first parent it finds. That is right because a tree that meets
the specification holds with a path all its parents (`TreeSpec.closed`).

`tree_spec` is the result on paths.
-/
import Mathlib.Data.Nat.Find
import Fuse3P7zip.Tree

namespace Fuse3P7zip
namespace Fuse

open FsPath (absolute absolute_inj)

/-! ### Modes -/

theorem mode_masked (m x c : UInt32) : ((m &&& ~~~c) ||| x) &&& c = x &&& c := by
  rw [← UInt32.toBitVec_inj]
  simp only [UInt32.toBitVec_and, UInt32.toBitVec_or, UInt32.toBitVec_not, BitVec.and_or_distrib_right,
    BitVec.and_assoc, BitVec.and_comm (~~~_), BitVec.and_not_self]
  simp

theorem isDir_dirStat (st : Stat) (it : Item) : (dirStat st it).isDir := by
  rw [Stat.isDir, dirStat, mode_masked]
  decide

theorem isDir_fileStat (st : Stat) (it : Item) : (fileStat st it).isDir ↔ it.isDir = true := by
  rw [Stat.isDir, fileStat]
  cases it.isDir
  · simp only [Bool.false_eq_true, ↓reduceIte, mode_masked]
    decide
  · simp only [↓reduceIte, mode_masked]
    decide

theorem isDir_rootStat (st : Stat) (allowOther : Bool) : (rootStat st allowOther).isDir := by
  rw [Stat.isDir, rootStat]
  cases allowOther <;>
    simp only [Bool.false_eq_true, ↓reduceIte, UInt32.or_assoc, mode_masked] <;> decide

theorem not_isReg_of_isDir {st : Stat} (h : st.isDir) : ¬ st.isReg := by
  intro h'
  rw [Stat.isDir] at h
  rw [Stat.isReg, h] at h'
  exact absurd h' (by decide)

/-- A parent's stat is the same whether the item's mode was a file's or
already made a directory's. -/
theorem dirStat_dirStat (st : Stat) (it : Item) : dirStat (dirStat st it) it = dirStat st it := by
  have h : ((st.stMode &&& ~~~sIfmt) ||| (sIfdir ||| 0o775)) &&& ~~~sIfmt ||| (sIfdir ||| 0o775) =
      (st.stMode &&& ~~~sIfmt) ||| (sIfdir ||| 0o775) := by
    rw [← UInt32.toBitVec_inj]
    simp only [UInt32.toBitVec_and, UInt32.toBitVec_or, UInt32.toBitVec_not,
      BitVec.and_or_distrib_right, BitVec.and_assoc, BitVec.and_self, BitVec.or_assoc]
    congr 1
  simp only [dirStat, h]

/-! ### Keys -/

theorem rooted_root : root.rooted = true := rfl

theorem elements_root : root.elements = absolute [] := rfl

theorem rooted_keyOf (proposed : Str) (it : Item) : (keyOf proposed it).rooted = true := by
  unfold keyOf
  simp only
  split_ifs
  · exact FsPath.rooted_append _ rooted_root
  · exact FsPath.rooted_append _ (FsPath.rooted_append _ rooted_root)

/-- The names of an item's key. -/
def namesOf (proposed : Str) (it : Item) : List Str := (keyOf proposed it).names

theorem elements_keyOf (proposed : Str) (it : Item) :
    (keyOf proposed it).elements = absolute (namesOf proposed it) :=
  FsPath.elements_of_rooted (rooted_keyOf proposed it)

/-! ### The parents' loop -/

/-- The entry of a parent. -/
def parentEntry (arcStat : Stat) (it : Item) : CiIterator × Stat :=
  (.ending, dirStat (fileStat arcStat it) it)

theorem prefix_dropLast_iff {a l : List Str} :
    a <+: l ∧ a ≠ l ↔ l ≠ [] ∧ a <+: l.dropLast := by
  rcases List.eq_nil_or_concat l with rfl | ⟨m, x, rfl⟩
  · simp
  · rw [List.concat_eq_append, List.prefix_concat_iff, List.dropLast_concat]
    constructor
    · rintro ⟨h | h, hne⟩
      · exact absurd h hne
      · exact ⟨by simp, h⟩
    · rintro ⟨-, h⟩
      refine ⟨Or.inr h, fun he => ?_⟩
      have := h.length_le
      rw [he, List.length_append, List.length_singleton] at this
      omega

/-- From a path whose parents are all there or, from some point down, all
missing, the loop puts in the ones that are missing. -/
theorem at_addParents (it : Item) : ∀ (fuel : ℕ) (tree : FileTree) (p : FsPath) (st : Stat),
    p.rooted = true → p.names.length ≤ fuel →
    (∀ a b, a ≠ [] → a <+: b → b <+: p.names → tree.at (absolute b) ≠ none →
      tree.at (absolute a) ≠ none) →
    ∀ a, (addParents it fuel tree p st).at (absolute a) =
      if a ≠ [] ∧ a <+: p.names ∧ tree.at (absolute a) = none then some (.ending, dirStat st it)
      else tree.at (absolute a)
  | 0, tree, p, st, _, hl, _, a => by
    rw [addParents, if_neg]
    rintro ⟨h0, h1, -⟩
    exact h0 (List.eq_nil_of_length_eq_zero (by have := h1.length_le; omega))
  | fuel + 1, tree, p, st, hp, hl, hc, a => by
    have he : p.elements = absolute p.names := FsPath.elements_of_rooted hp
    have hempty : p.empty = false := by
      simpa [FsPath.empty] using FsPath.native_ne_nil_of_rooted hp
    unfold addParents
    simp only [hempty, Bool.false_eq_true, false_or, he, elements_root, absolute_inj]
    by_cases hn : p.names = []
    · rw [if_pos hn, if_neg]
      rintro ⟨h0, h1, -⟩
      rw [hn] at h1
      exact h0 (List.prefix_nil.mp h1)
    · rw [if_neg hn]
      by_cases hcon : tree.contains p = true
      · -- the parents of a path that is there are there
        rw [if_pos hcon, if_neg]
        rintro ⟨h0, h1, h2⟩
        rw [StdMap.contains_iff, he] at hcon
        exact hc a p.names h0 h1 (List.prefix_refl _) hcon h2
      · rw [if_neg hcon]
        rw [StdMap.contains_iff, he, not_not] at hcon
        have hat : ∀ b, (tree.emplace p (.ending, dirStat st it)).at (absolute b) =
            if b = p.names then some (.ending, dirStat st it) else tree.at (absolute b) := by
          intro b
          rw [StdMap.at_emplace, he]
          simp only [absolute_inj]
          split_ifs with hb
          · rw [hb, hcon]; rfl
          · rfl
        have hne : ∀ b, b <+: p.names.dropLast → b ≠ p.names := fun b hb =>
          (prefix_dropLast_iff.mpr ⟨hn, hb⟩).2
        have hpar : p.parentPath.names = p.names.dropLast := FsPath.names_parentPath p
        have ih := at_addParents it fuel (tree.emplace p (.ending, dirStat st it)) p.parentPath
          (dirStat st it) (by rw [FsPath.rooted_parentPath, hp])
          (by rw [hpar, List.length_dropLast]; omega)
          (by
            intro b c hb hbc hcp
            rw [hpar] at hcp
            rw [hat, if_neg (hne c hcp), hat, if_neg (hne b (hbc.trans hcp))]
            exact hc b c hb hbc (hcp.trans (List.dropLast_prefix _))) a
        rw [ih, hpar, hat, dirStat_dirStat]
        by_cases ha : a = p.names
        · subst ha
          rw [if_pos rfl, if_neg (by simp), if_pos ⟨hn, List.prefix_refl _, hcon⟩]
        · rw [if_neg ha]
          have hiff : a <+: p.names.dropLast ↔ a <+: p.names :=
            ⟨fun h => (prefix_dropLast_iff.mpr ⟨hn, h⟩).1, fun h => (prefix_dropLast_iff.mp ⟨h, ha⟩).2⟩
          simp only [hiff]

/-! ### One item -/

variable (arcStat : Stat) (proposed : Str)

/-- The tree holds with a path its parents. -/
def Closed (tree : FileTree) : Prop := ∀ a b, a ≠ [] → a <+: b → tree.at (absolute b) ≠ none →
  tree.at (absolute a) ≠ none

/-- What one item does to a closed tree. -/
theorem at_addItem {tree : FileTree} (hc : Closed tree) (i : ℕ) (it : Item) (a : List Str) :
    (addItem arcStat proposed i it tree).at (absolute a) =
      if a = namesOf proposed it then some (.item i, fileStat arcStat it)
      else if a ≠ [] ∧ a <+: namesOf proposed it ∧ tree.at (absolute a) = none then
        some (parentEntry arcStat it)
      else tree.at (absolute a) := by
  set κ := keyOf proposed it with hκ
  have hκn : κ.names = namesOf proposed it := rfl
  have hins : ∀ b, (tree.insertOrAssign κ (.item i, fileStat arcStat it)).at (absolute b) =
      if b = κ.names then some (.item i, fileStat arcStat it) else tree.at (absolute b) := by
    intro b
    rw [StdMap.at_insertOrAssign, hκ, elements_keyOf]
    simp only [absolute_inj, namesOf]
  have hpar : κ.parentPath.names = κ.names.dropLast := FsPath.names_parentPath κ
  have hlen := FsPath.length_names_le κ
  have key := at_addParents it κ.native.length
    (tree.insertOrAssign κ (.item i, fileStat arcStat it)) κ.parentPath (fileStat arcStat it)
    (by rw [FsPath.rooted_parentPath]; exact rooted_keyOf proposed it)
    (by rw [hpar, List.length_dropLast]; omega)
    (by
      intro b c hb hbc hcp
      rw [hpar] at hcp
      by_cases hn : κ.names = []
      · rw [hn] at hcp
        exact absurd (List.prefix_nil.mp (hbc.trans hcp)) hb
      · rw [hins, if_neg (prefix_dropLast_iff.mpr ⟨hn, hcp⟩).2, hins,
          if_neg (prefix_dropLast_iff.mpr ⟨hn, hbc.trans hcp⟩).2]
        exact hc b c hb hbc) a
  rw [addItem, key, hpar, hins, hκn]
  by_cases ha : a = namesOf proposed it
  · rw [if_pos ha, if_neg (by simp), if_pos ha]
  · rw [if_neg ha, if_neg ha]
    have hiff : a ≠ [] ∧ a <+: (namesOf proposed it).dropLast ∧ tree.at (absolute a) = none ↔
        a ≠ [] ∧ a <+: namesOf proposed it ∧ tree.at (absolute a) = none := by
      constructor
      · rintro ⟨h0, h1, h2⟩
        exact ⟨h0, h1.trans (List.dropLast_prefix _), h2⟩
      · rintro ⟨h0, h1, h2⟩
        exact ⟨h0, (prefix_dropLast_iff.mp ⟨h1, ha⟩).2, h2⟩
    simp only [hiff, parentEntry]

theorem at_addParents_of_not_rooted (it : Item) (e : Bool ×ₗ List (List Char)) (he : ∀ a, e ≠ absolute a) :
    ∀ (fuel : ℕ) (tree : FileTree) (p : FsPath) (st : Stat), p.rooted = true →
      (addParents it fuel tree p st).at e = tree.at e
  | 0, _, _, _, _ => rfl
  | fuel + 1, tree, p, st, hp => by
    unfold addParents
    simp only
    split_ifs
    · rfl
    · rfl
    · rw [at_addParents_of_not_rooted it e he fuel _ _ _ (by rw [FsPath.rooted_parentPath, hp]),
        StdMap.at_emplace, if_neg fun h => he _ (h.trans (FsPath.elements_of_rooted hp))]

theorem at_addItem_of_not_rooted {tree : FileTree} (i : ℕ) (it : Item) (e : Bool ×ₗ List (List Char))
    (he : ∀ a, e ≠ absolute a) : (addItem arcStat proposed i it tree).at e = tree.at e := by
  rw [addItem, at_addParents_of_not_rooted it e he _ _ _ _
    (by rw [FsPath.rooted_parentPath]; exact rooted_keyOf proposed it), StdMap.at_insertOrAssign,
    if_neg fun h => he _ (h.trans (elements_keyOf proposed it))]

/-! ### The first and the last item -/

theorem exists_last {α : Type} {P : α → Prop} {l : List α} (h : ∃ x ∈ l, P x) :
    ∃ (i : ℕ) (x : α), l[i]? = some x ∧ P x ∧ ∀ (j : ℕ) y, i < j → l[j]? = some y → ¬ P y := by
  classical
  obtain ⟨x, hx, hP⟩ := h
  obtain ⟨i, hi⟩ := List.getElem?_of_mem hx
  let Q : ℕ → Prop := fun i => ∃ x, l[i]? = some x ∧ P x
  have hle : ∀ i, Q i → i ≤ l.length := fun i ⟨x, h, _⟩ => (List.getElem?_eq_some_iff.mp h).1.le
  have hQ : Q i := ⟨x, hi, hP⟩
  obtain ⟨y, hy, hPy⟩ := Nat.findGreatest_spec (P := Q) (hle i hQ) hQ
  refine ⟨Nat.findGreatest Q l.length, y, hy, hPy, fun j z hj hz hPz => ?_⟩
  exact Nat.findGreatest_is_greatest hj (hle j ⟨z, hz, hPz⟩) ⟨z, hz, hPz⟩

theorem exists_first {α : Type} {P : α → Prop} {l : List α} (h : ∃ x ∈ l, P x) :
    ∃ (i : ℕ) (x : α), l[i]? = some x ∧ P x ∧ ∀ (j : ℕ) y, j < i → l[j]? = some y → ¬ P y := by
  classical
  obtain ⟨x, hx, hP⟩ := h
  obtain ⟨i, hi⟩ := List.getElem?_of_mem hx
  have hex : ∃ i : ℕ, ∃ x, l[i]? = some x ∧ P x := ⟨i, x, hi, hP⟩
  obtain ⟨y, hy, hPy⟩ := Nat.find_spec hex
  exact ⟨Nat.find hex, y, hy, hPy, fun j z hj hz hPz => Nat.find_min hex hj ⟨z, hz, hPz⟩⟩

/-- The items with one more behind them: the items, and that one. -/
theorem getElem?_concat {α : Type} {l : List α} {x y : α} {i : ℕ} (h : (l ++ [x])[i]? = some y) :
    l[i]? = some y ∨ i = l.length ∧ y = x := by
  rcases Nat.lt_or_ge i l.length with hlt | hge
  · left
    rwa [List.getElem?_append_left hlt] at h
  · rw [List.getElem?_append_right hge] at h
    obtain ⟨h1, h2⟩ := List.getElem?_eq_some_iff.mp h
    simp only [List.length_singleton] at h1
    exact Or.inr ⟨by omega, by simpa using h2.symm⟩

theorem getElem?_concat_of {α : Type} {l : List α} {y : α} {i : ℕ} (h : l[i]? = some y) (x : α) :
    i < l.length ∧ (l ++ [x])[i]? = some y := by
  have hlt := (List.getElem?_eq_some_iff.mp h).1
  exact ⟨hlt, by rw [List.getElem?_append_left hlt, h]⟩

theorem getElem?_concat_length {α : Type} (l : List α) (x : α) : (l ++ [x])[l.length]? = some x := by
  simp

/-! ### The specification -/

variable (allowOther : Bool)

/-- The tree of the items `its`, in their order. -/
structure TreeSpec (its : List Item) (tree : FileTree) : Prop where
  /-- A key holds the last item that has it. -/
  item : ∀ (i : ℕ) it, its[i]? = some it →
    (∀ (j : ℕ) jt, i < j → its[j]? = some jt → namesOf proposed jt ≠ namesOf proposed it) →
    tree.at (absolute (namesOf proposed it)) = some (.item i, fileStat arcStat it)
  /-- A path that is only above items holds a directory with the stat of the
  first of them. -/
  parent : ∀ a (i : ℕ) it, a ≠ [] → its[i]? = some it → a <+: namesOf proposed it →
    (∀ jt ∈ its, namesOf proposed jt ≠ a) →
    (∀ (j : ℕ) jt, j < i → its[j]? = some jt → ¬ a <+: namesOf proposed jt) →
    tree.at (absolute a) = some (parentEntry arcStat it)
  root : (∀ it ∈ its, namesOf proposed it ≠ []) →
    tree.at (absolute []) = some (.ending, rootStat arcStat allowOther)
  /-- There is nothing but the root, the keys and the paths above them. -/
  keys : ∀ e, tree.at e ≠ none ↔
    ∃ a, e = absolute a ∧ (a = [] ∨ ∃ it ∈ its, a <+: namesOf proposed it)

variable {arcStat proposed allowOther}

theorem TreeSpec.at_ne_none_iff {its : List Item} {tree : FileTree}
    (h : TreeSpec arcStat proposed allowOther its tree) (a : List Str) :
    tree.at (absolute a) ≠ none ↔ a = [] ∨ ∃ it ∈ its, a <+: namesOf proposed it := by
  rw [h.keys]
  constructor
  · rintro ⟨b, hb, h⟩
    rwa [absolute_inj.mp hb]
  · exact fun h => ⟨a, rfl, h⟩

theorem TreeSpec.closed {its : List Item} {tree : FileTree}
    (h : TreeSpec arcStat proposed allowOther its tree) : Closed tree := by
  intro a b ha hab hb
  rw [h.at_ne_none_iff] at hb ⊢
  rcases hb with rfl | ⟨it, hit, hp⟩
  · exact absurd (List.prefix_nil.mp hab) ha
  · exact Or.inr ⟨it, hit, hab.trans hp⟩

/-- Every path of the tree: the root as it was, an item that no later one
replaced, or a directory above items and without one. -/
theorem TreeSpec.cases {its : List Item} {tree : FileTree}
    (h : TreeSpec arcStat proposed allowOther its tree) {a : List Str} {v : CiIterator × Stat}
    (hv : tree.at (absolute a) = some v) :
    (∃ (i : ℕ) (it : Item), its[i]? = some it ∧ namesOf proposed it = a ∧
      (∀ (j : ℕ) jt, i < j → its[j]? = some jt → namesOf proposed jt ≠ a) ∧
      v = (.item i, fileStat arcStat it)) ∨
    ((∀ it ∈ its, namesOf proposed it ≠ a) ∧ ∃ (i : ℕ) (it : Item), a ≠ [] ∧ its[i]? = some it ∧
      a <+: namesOf proposed it ∧ v = parentEntry arcStat it) ∨
    (a = [] ∧ (∀ it ∈ its, namesOf proposed it ≠ a) ∧ v = (.ending, rootStat arcStat allowOther)) := by
  by_cases hk : ∃ it ∈ its, namesOf proposed it = a
  · left
    obtain ⟨i, it, hi, rfl, hlast⟩ := exists_last hk
    exact ⟨i, it, hi, rfl, hlast, Option.some.inj (hv.symm.trans (h.item i it hi hlast))⟩
  · right
    have hk' : ∀ it ∈ its, namesOf proposed it ≠ a := fun it hit he => hk ⟨it, hit, he⟩
    by_cases ha : a = []
    · right
      subst ha
      exact ⟨rfl, hk', Option.some.inj (hv.symm.trans (h.root hk'))⟩
    · left
      have hne : tree.at (absolute a) ≠ none := by rw [hv]; simp
      have hex := ((h.at_ne_none_iff a).mp hne).resolve_left ha
      obtain ⟨i, it, hi, hp, hfirst⟩ := exists_first hex
      have hat := h.parent a i it ha hi hp hk' hfirst
      exact ⟨hk', i, it, ha, hi, hp, Option.some.inj (hv.symm.trans hat)⟩

/-! ### The loop keeps it -/

theorem TreeSpec.nil : TreeSpec arcStat proposed allowOther [] (rootTree arcStat allowOther) where
  item i it h := by simp at h
  parent a i it _ h := by simp at h
  root _ := by
    rw [rootTree, StdMap.at_emplace, elements_root, if_pos rfl]
    rfl
  keys e := by
    rw [rootTree, StdMap.at_emplace, elements_root, StdMap.at_empty]
    constructor
    · intro h
      by_cases he : e = absolute []
      · exact ⟨[], he, Or.inl rfl⟩
      · rw [if_neg he] at h; exact absurd rfl h
    · rintro ⟨a, rfl, rfl | ⟨it, hit, -⟩⟩
      · rw [if_pos rfl]; simp
      · cases hit

section step

variable {its : List Item} {tree : FileTree} (h : TreeSpec arcStat proposed allowOther its tree)
  (x : Item)

include h

theorem TreeSpec.step_item (i : ℕ) (it : Item) (hi : (its ++ [x])[i]? = some it)
    (hlast : ∀ (j : ℕ) jt, i < j → (its ++ [x])[j]? = some jt →
      namesOf proposed jt ≠ namesOf proposed it) :
    (addItem arcStat proposed its.length x tree).at (absolute (namesOf proposed it)) =
      some (.item i, fileStat arcStat it) := by
  rw [at_addItem arcStat proposed h.closed]
  rcases getElem?_concat hi with hi | ⟨rfl, rfl⟩
  · -- an old item stays, as it is there and the new one has another key
    have hne := hlast its.length x (getElem?_concat_of hi x).1 (getElem?_concat_length its x)
    have ih := h.item i it hi fun j jt hj hjt => hlast j jt hj (getElem?_concat_of hjt x).2
    rw [if_neg hne.symm, if_neg (by rw [ih]; simp), ih]
  · rw [if_pos rfl]

theorem TreeSpec.step_parent (a : List Str) (i : ℕ) (it : Item) (ha : a ≠ [])
    (hi : (its ++ [x])[i]? = some it) (hp : a <+: namesOf proposed it)
    (hkey : ∀ jt ∈ its ++ [x], namesOf proposed jt ≠ a)
    (hfirst : ∀ (j : ℕ) jt, j < i → (its ++ [x])[j]? = some jt → ¬ a <+: namesOf proposed jt) :
    (addItem arcStat proposed its.length x tree).at (absolute a) = some (parentEntry arcStat it) := by
  have hx : a ≠ namesOf proposed x := (hkey x (by simp)).symm
  rw [at_addItem arcStat proposed h.closed, if_neg hx]
  rcases getElem?_concat hi with hi | ⟨rfl, rfl⟩
  · have ih := h.parent a i it ha hi hp (fun jt hjt => hkey jt (by simp [hjt]))
      fun j jt hj hjt => hfirst j jt hj (getElem?_concat_of hjt x).2
    rw [if_neg (by rw [ih]; simp), ih]
  · have hnone : tree.at (absolute a) = none := by
      -- nothing before was below `a`
      by_contra hne
      obtain ⟨jt, hjt, hpj⟩ := ((h.at_ne_none_iff a).mp hne).resolve_left ha
      obtain ⟨j, hj⟩ := List.getElem?_of_mem hjt
      obtain ⟨hlt, hj⟩ := getElem?_concat_of hj it
      exact hfirst j jt hlt hj hpj
    rw [if_pos ⟨ha, hp, hnone⟩]

/-- The item's path and what is above it come to the paths of the tree. -/
theorem TreeSpec.step_at_ne_none (a : List Str) :
    (addItem arcStat proposed its.length x tree).at (absolute a) ≠ none ↔
      a = [] ∨ (∃ it ∈ its, a <+: namesOf proposed it) ∨ a <+: namesOf proposed x := by
  have ih := h.at_ne_none_iff a
  rw [at_addItem arcStat proposed h.closed]
  by_cases hax : a = namesOf proposed x
  · rw [if_pos hax]
    simp [hax]
  · rw [if_neg hax]
    by_cases hc : a ≠ [] ∧ a <+: namesOf proposed x ∧ tree.at (absolute a) = none
    · rw [if_pos hc]
      simp [hc.2.1]
    · rw [if_neg hc, ih]
      refine ⟨fun h0 => h0.imp_right Or.inl, ?_⟩
      rintro (h0 | h0 | h0)
      · exact Or.inl h0
      · exact Or.inr h0
      · by_contra hno
        have ha : a ≠ [] := fun h0 => hno (Or.inl h0)
        apply hc
        exact ⟨ha, h0, not_not.mp fun hne => hno (ih.mp hne)⟩

theorem TreeSpec.step_keys (e : Bool ×ₗ List (List Char)) :
    (addItem arcStat proposed its.length x tree).at e ≠ none ↔
      ∃ a, e = absolute a ∧ (a = [] ∨ ∃ it ∈ its ++ [x], a <+: namesOf proposed it) := by
  have hmem : ∀ a, (∃ it ∈ its ++ [x], a <+: namesOf proposed it) ↔
      (∃ it ∈ its, a <+: namesOf proposed it) ∨ a <+: namesOf proposed x := by
    intro a
    simp only [List.mem_append, List.mem_singleton, or_and_right, exists_or, exists_eq_left]
  simp only [hmem]
  by_cases he : ∃ a, e = absolute a
  · obtain ⟨a, rfl⟩ := he
    rw [h.step_at_ne_none x a]
    constructor
    · exact fun hh => ⟨a, rfl, hh⟩
    · rintro ⟨b, hb, hh⟩
      rwa [absolute_inj.mp hb]
  · have he' : ∀ a, e ≠ absolute a := fun a ha => he ⟨a, ha⟩
    rw [at_addItem_of_not_rooted arcStat proposed _ _ e he', h.keys]
    constructor
    · rintro ⟨a, ha, -⟩
      exact absurd ha (he' a)
    · rintro ⟨a, ha, -⟩
      exact absurd ha (he' a)

theorem TreeSpec.step :
    TreeSpec arcStat proposed allowOther (its ++ [x]) (addItem arcStat proposed its.length x tree) where
  item := h.step_item x
  parent := h.step_parent x
  root hroot := by
    have hx : [] ≠ namesOf proposed x := (hroot x (by simp)).symm
    rw [at_addItem arcStat proposed h.closed, if_neg hx, if_neg (by simp)]
    exact h.root fun it hit => hroot it (by simp [hit])
  keys := h.step_keys x

end step

/-- **The loop builds the tree of its items.** -/
theorem TreeSpec.run : ∀ (its done : List Item) (tree : FileTree),
    TreeSpec arcStat proposed allowOther done tree →
    TreeSpec arcStat proposed allowOther (done ++ its)
      (addItems arcStat proposed done.length its tree)
  | [], done, tree, h => by
    rw [List.append_nil]
    exact h
  | x :: its, done, tree, h => by
    have ih := TreeSpec.run its (done ++ [x]) _ (h.step x)
    rw [List.append_assoc, List.singleton_append, List.length_append, List.length_singleton] at ih
    exact ih

theorem treeSpec_treeOf (arcStat : Stat) (proposed : Str) (allowOther : Bool) (its : List Item) :
    TreeSpec arcStat proposed allowOther its (treeOf arcStat allowOther proposed its) :=
  TreeSpec.run its [] _ TreeSpec.nil

/-! ### On paths -/

theorem elements_keyOf_iff (k : FsPath) (it : Item) :
    k.elements = (keyOf proposed it).elements ↔ k.elements = absolute (namesOf proposed it) := by
  rw [elements_keyOf]

/-- Of the paths that are not the root, the ancestors of a key are those
whose names the key's names go on from. -/
theorem isAncestor_keyOf_iff {k : FsPath} (hk : k.elements ≠ root.elements) (it : Item) :
    FsPath.IsAncestor k (keyOf proposed it) ↔ ∃ a, k.elements = absolute a ∧ a ≠ [] ∧
      a <+: namesOf proposed it ∧ a ≠ namesOf proposed it := by
  have hp := rooted_keyOf proposed it
  by_cases hn : k.names = []
  · constructor
    · rintro ⟨n, h⟩
      have hr : k.rooted = true := by
        have := ((FsPath.elements_eq_iff _ _).mp h).1
        rw [this, FsPath.rooted_iterate_parentPath, hp]
      exact absurd ((FsPath.elements_eq_absolute_iff k []).mpr ⟨hr, hn⟩) hk
    · rintro ⟨a, ha, h0, -⟩
      exact absurd (((FsPath.elements_eq_absolute_iff k a).mp ha).2.symm.trans hn) h0
  · rw [FsPath.isAncestor_iff hp hn]
    constructor
    · rintro ⟨hr, h1, h2⟩
      exact ⟨k.names, FsPath.elements_of_rooted hr, hn, h1, h2⟩
    · rintro ⟨a, ha, -, h1, h2⟩
      obtain ⟨hr, rfl⟩ := (FsPath.elements_eq_absolute_iff k a).mp ha
      exact ⟨hr, h1, h2⟩

section paths

variable {its : List Item} {tree : FileTree} (h : TreeSpec arcStat proposed allowOther its tree)

include h

theorem TreeSpec.contains_iff (k : FsPath) : tree.contains k = true ↔
    k.elements = Fuse.root.elements ∨ (∃ it ∈ its, k.elements = (keyOf proposed it).elements) ∨
      (k.elements ≠ Fuse.root.elements ∧ ∃ it ∈ its, FsPath.IsAncestor k (keyOf proposed it)) := by
  rw [StdMap.contains_iff, h.keys]
  constructor
  · rintro ⟨a, ha, rfl | ⟨it, hit, hp⟩⟩
    · exact Or.inl ha
    · by_cases hr : k.elements = Fuse.root.elements
      · exact Or.inl hr
      have h0 : a ≠ [] := fun h0 => hr (by rw [ha, h0]; rfl)
      by_cases he : a = namesOf proposed it
      · exact Or.inr (Or.inl ⟨it, hit, by rw [elements_keyOf_iff, ha, he]⟩)
      · exact Or.inr (Or.inr ⟨hr, it, hit, (isAncestor_keyOf_iff hr it).mpr ⟨a, ha, h0, hp, he⟩⟩)
  · rintro (h | ⟨it, hit, h⟩ | ⟨hr, it, hit, h⟩)
    · exact ⟨[], h, Or.inl rfl⟩
    · exact ⟨_, (elements_keyOf_iff k it).mp h, Or.inr ⟨it, hit, List.prefix_refl _⟩⟩
    · obtain ⟨a, ha, -, hp, -⟩ := (isAncestor_keyOf_iff hr it).mp h
      exact ⟨a, ha, Or.inr ⟨it, hit, hp⟩⟩

/-- A key holds the last item that has it. -/
theorem TreeSpec.find_key {k : FsPath}
    (hk : ∃ it ∈ its, k.elements = (keyOf proposed it).elements) :
    ∃ (i : ℕ) (it : Item), its[i]? = some it ∧ k.elements = (keyOf proposed it).elements ∧
      (∀ (j : ℕ) jt, i < j → its[j]? = some jt → k.elements ≠ (keyOf proposed jt).elements) ∧
      tree.find? k = some (.item i, fileStat arcStat it) := by
  obtain ⟨i, it, hi, hk, hlast⟩ := exists_last hk
  refine ⟨i, it, hi, hk, hlast, ?_⟩
  rw [elements_keyOf_iff] at hk
  rw [StdMap.find?, hk]
  refine h.item i it hi fun j jt hj hjt he => hlast j jt hj hjt ?_
  rw [elements_keyOf_iff, hk, he]

/-- A path that is only above items holds a directory, with the stat of the
first of them. -/
theorem TreeSpec.find_ancestor {k : FsPath} (hroot : k.elements ≠ Fuse.root.elements)
    (hkey : ∀ it ∈ its, k.elements ≠ (keyOf proposed it).elements)
    (hanc : ∃ it ∈ its, FsPath.IsAncestor k (keyOf proposed it)) :
    ∃ (i : ℕ) (it : Item), its[i]? = some it ∧ FsPath.IsAncestor k (keyOf proposed it) ∧
      (∀ (j : ℕ) jt, j < i → its[j]? = some jt → ¬ FsPath.IsAncestor k (keyOf proposed jt)) ∧
      tree.find? k = some (.ending, dirStat (fileStat arcStat it) it) := by
  obtain ⟨i, it, hi, hk, hfirst⟩ := exists_first hanc
  refine ⟨i, it, hi, hk, hfirst, ?_⟩
  obtain ⟨a, ha, h0, hp, -⟩ := (isAncestor_keyOf_iff hroot it).mp hk
  have hno : ∀ jt ∈ its, namesOf proposed jt ≠ a := fun jt hjt he =>
    hkey jt hjt (by rw [elements_keyOf_iff, ha, he])
  rw [StdMap.find?, ha]
  refine h.parent a i it h0 hi hp hno fun j jt hj hjt hpj => hfirst j jt hj hjt ?_
  have hne := (hno jt (List.mem_of_getElem? hjt)).symm
  exact (isAncestor_keyOf_iff hroot jt).mpr ⟨a, ha, h0, hpj, hne⟩

end paths

variable (arcStat proposed allowOther)

/-- **The tree of any list of items.** Its keys are the root, the items'
keys and the ancestors of these; a key holds the last item that has it; a
path that is an ancestor only holds a directory with the stat of the first
item below it; the root keeps its entry unless an item has its key. -/
theorem tree_spec (its : List Item) :
    (∀ k, (treeOf arcStat allowOther proposed its).contains k = true ↔
      k.elements = root.elements ∨
      (∃ it ∈ its, k.elements = (keyOf proposed it).elements) ∨
      (k.elements ≠ root.elements ∧ ∃ it ∈ its, FsPath.IsAncestor k (keyOf proposed it))) ∧
    (∀ k, (∃ it ∈ its, k.elements = (keyOf proposed it).elements) →
      ∃ (i : ℕ) (it : Item), its[i]? = some it ∧ k.elements = (keyOf proposed it).elements ∧
        (∀ (j : ℕ) jt, i < j → its[j]? = some jt → k.elements ≠ (keyOf proposed jt).elements) ∧
        (treeOf arcStat allowOther proposed its).find? k = some (.item i, fileStat arcStat it)) ∧
    (∀ k, k.elements ≠ root.elements → (∀ it ∈ its, k.elements ≠ (keyOf proposed it).elements) →
      (∃ it ∈ its, FsPath.IsAncestor k (keyOf proposed it)) →
      ∃ (i : ℕ) (it : Item), its[i]? = some it ∧ FsPath.IsAncestor k (keyOf proposed it) ∧
        (∀ (j : ℕ) jt, j < i → its[j]? = some jt → ¬ FsPath.IsAncestor k (keyOf proposed jt)) ∧
        (treeOf arcStat allowOther proposed its).find? k =
          some (.ending, dirStat (fileStat arcStat it) it) ∧
        (dirStat (fileStat arcStat it) it).isDir) ∧
    ((∀ it ∈ its, (keyOf proposed it).elements ≠ root.elements) →
      (treeOf arcStat allowOther proposed its).find? root =
        some (.ending, rootStat arcStat allowOther)) := by
  have spec := treeSpec_treeOf arcStat proposed allowOther its
  refine ⟨spec.contains_iff, fun k => spec.find_key, fun k hroot hkey hanc => ?_, fun hroot => ?_⟩
  · obtain ⟨i, it, hi, hk, hfirst, hat⟩ := spec.find_ancestor hroot hkey hanc
    exact ⟨i, it, hi, hk, hfirst, hat, isDir_dirStat _ it⟩
  · rw [StdMap.find?, elements_root]
    refine spec.root fun it hit h => hroot it hit ?_
    rw [elements_keyOf, h, elements_root]

end Fuse
end Fuse3P7zip
