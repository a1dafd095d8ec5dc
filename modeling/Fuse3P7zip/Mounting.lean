/-
# Mounting an archive

`execute` builds the whole tree before it mounts. Its loop has no handler for
the exceptions of the accessors, and so the archive is mounted when all of
its items can be read, and not at all when one cannot (`mounts_iff`).
-/
import Mathlib.Data.List.Forall2
import Fuse3P7zip.TreeSpec

namespace Fuse3P7zip

namespace Fuse

/-- The texts of an item can be converted, and where the name of the archive
stands in for its own there is one. -/
def Decodes (loc : Locale) (arc : ImplArchive) (item : ItemProps) : Prop :=
  ∃ path name extension, item.path loc = .ok path ∧ item.name loc = .ok name ∧
    item.extension loc = .ok extension ∧ (usesProposed path name → ∃ proposed, arc.proposedName = .ok proposed)

/-- There is a mount, with an entry for every item that can be read. -/
def Mounts (loc : Locale) (arc : ImplArchive) (allowOther : Bool) : Prop :=
  ∃ tree, execute loc arc allowOther = .ok tree ∧
    ∀ item ∈ arc.items, ∀ it, decode loc arc item = .ok it → tree.contains (keyOf arc.proposed it) = true

theorem decodes_iff {loc : Locale} {arc : ImplArchive} {item : ItemProps} :
    Decodes loc arc item ↔ ∃ it, decode loc arc item = .ok it := by
  constructor
  · rintro ⟨path, name, extension, hpath, hname, hext, hprop⟩
    refine ⟨⟨path, name, extension, item.isDir, item.size, item.atime, item.mtime, item.ctime⟩, ?_⟩
    refine bind_eq_ok.mpr ⟨path, hpath, bind_eq_ok.mpr ⟨name, hname, ?_⟩⟩
    by_cases huse : usesProposed path name
    · obtain ⟨proposed, hp⟩ := hprop huse
      rw [if_pos huse]
      exact bind_eq_ok.mpr ⟨proposed, hp, bind_eq_ok.mpr ⟨extension, hext, rfl⟩⟩
    · rw [if_neg huse]
      exact bind_eq_ok.mpr ⟨extension, hext, rfl⟩
  · rintro ⟨it, h⟩
    obtain ⟨path, hpath, h⟩ := bind_eq_ok.mp h
    obtain ⟨name, hname, h⟩ := bind_eq_ok.mp h
    by_cases huse : usesProposed path name
    · rw [if_pos huse] at h
      obtain ⟨proposed, hp, h⟩ := bind_eq_ok.mp h
      obtain ⟨extension, hext, -⟩ := bind_eq_ok.mp h
      exact ⟨path, name, extension, hpath, hname, hext, fun _ => ⟨proposed, hp⟩⟩
    · rw [if_neg huse] at h
      obtain ⟨extension, hext, -⟩ := bind_eq_ok.mp h
      exact ⟨path, name, extension, hpath, hname, hext, fun hu => absurd hu huse⟩

theorem executeFrom_of_decodes {loc : Locale} {arc : ImplArchive} : ∀ {items : List ItemProps} (i : ℕ)
    (tree : FileTree), (∀ item ∈ items, ∃ it, decode loc arc item = .ok it) →
    ∃ tree', executeFrom loc arc i items tree = .ok tree'
  | [], _, tree, _ => ⟨tree, rfl⟩
  | item :: items, i, tree, h => by
    obtain ⟨⟨it, hit⟩, hitems⟩ := List.forall_mem_cons.mp h
    obtain ⟨tree', ht⟩ := executeFrom_of_decodes (i + 1) (addItem arc.stat arc.proposed i it tree) hitems
    exact ⟨tree', bind_eq_ok.mpr ⟨it, hit, ht⟩⟩

/-- The first item that cannot be read ends the loop. -/
theorem executeFrom_of_error {loc : Locale} {arc : ImplArchive} {item : ItemProps} {behind : List ItemProps} {e : Escape}
    (he : decode loc arc item = .error e) : ∀ {before : List ItemProps} {i : ℕ} {tree : FileTree},
    (∀ x ∈ before, ∃ it, decode loc arc x = .ok it) → executeFrom loc arc i (before ++ item :: behind) tree = .error e
  | [], _, _, _ => by
    rw [List.nil_append, executeFrom, he]
    rfl
  | x :: before, i, tree, h => by
    obtain ⟨⟨it, hit⟩, hbefore⟩ := List.forall_mem_cons.mp h
    rw [List.cons_append, executeFrom, hit]
    exact executeFrom_of_error he hbefore

/-- A tree that is built has an entry for every item. -/
theorem contains_of_execute {loc : Locale} {arc : ImplArchive} {allowOther : Bool} {tree : FileTree}
    (h : execute loc arc allowOther = .ok tree) {item : ItemProps} (hi : item ∈ arc.items) :
    ∃ it, decode loc arc item = .ok it ∧ tree.contains (keyOf arc.proposed it) = true := by
  obtain ⟨its, hits, rfl⟩ := execute_ok h
  have spec := treeSpec_treeOf arc.stat arc.proposed allowOther its
  obtain ⟨i, hlt, rfl⟩ := List.mem_iff_getElem.mp hi
  have hlt' : i < its.length := by rwa [← hits.length_eq]
  refine ⟨its.get ⟨i, hlt'⟩, hits.get hlt hlt', ?_⟩
  exact (spec.contains_iff _).mpr (.inr (.inl ⟨_, List.get_mem _ _, rfl⟩))

/-- **When an archive is mounted.** It is when all of its items can be read, and
then every one has an entry. Otherwise the first that cannot be read is what
`execute` throws for. -/
theorem mounts_iff (loc : Locale) (arc : ImplArchive) (allowOther : Bool) :
    (Mounts loc arc allowOther ↔ ∀ item ∈ arc.items, Decodes loc arc item) ∧
    (∀ tree, execute loc arc allowOther = .ok tree → ∀ item ∈ arc.items,
      ∃ it, decode loc arc item = .ok it ∧ tree.contains (keyOf arc.proposed it) = true) ∧
    ∀ before item behind e, arc.items = before ++ item :: behind → (∀ x ∈ before, Decodes loc arc x) →
      decode loc arc item = .error e → execute loc arc allowOther = .error e := by
  refine ⟨⟨?_, fun h => ?_⟩, fun tree h item hi => contains_of_execute h hi, ?_⟩
  · rintro ⟨tree, h, -⟩ item hi
    obtain ⟨it, hit, -⟩ := contains_of_execute h hi
    exact decodes_iff.mpr ⟨it, hit⟩
  · obtain ⟨tree, ht⟩ := executeFrom_of_decodes 0 (rootTree arc.stat allowOther)
      fun item hi => decodes_iff.mp (h item hi)
    refine ⟨tree, ht, fun item hi it hit => ?_⟩
    obtain ⟨it', hit', hcon⟩ := contains_of_execute ht hi
    cases hit.symm.trans hit'
    exact hcon
  · intro before item behind e hitems hbefore he
    rw [execute, hitems]
    exact executeFrom_of_error he fun x hx => decodes_iff.mp (hbefore x hx)

/-- An archive of `a` and of one half of a surrogate pair. -/
def twoNames : ImplArchive :=
  ⟨⟨['/', 'x']⟩, zeroStat, [], [], [.file [97] (sOk, .empty), .file [0xD800] (sOk, .empty)], by decide⟩

/-- The file `a` can be read, and there is no mount. -/
theorem bad_name_hides_all : decode .ascii twoNames (.file [97] (sOk, .empty)) = .ok (.file ['a'] 0) ∧
    ¬ Mounts .ascii twoNames false := by
  have hthrows : execute .ascii twoNames false = .error (.exn "iconv: ") := rfl
  refine ⟨rfl, ?_⟩
  rintro ⟨tree, h, -⟩
  cases hthrows.symm.trans h

end Fuse

end Fuse3P7zip
