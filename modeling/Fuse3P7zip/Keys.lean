/-
# Where an item's key is

An item that has a path is meant to stay there: its name goes below the
path, and without a name the path is the key. The extension is put behind
the name before the name is asked for, so an item without a name gets one
from its extension; and a name that begins with a slash takes the place of
the path. `keepsPlace_iff` is when neither happens.
-/
import Fuse3P7zip.Kernel

namespace Fuse3P7zip
namespace Fuse

open FsPath (pieces)

/-- `k` is `p` or has its components in front. -/
def AtOrBelow (p k : FsPath) : Prop := p.rooted = k.rooted ∧ pieces p.native <+: pieces k.native

instance (p k : FsPath) : Decidable (AtOrBelow p k) := inferInstanceAs (Decidable (_ ∧ _))

/-- The key of an item is at its path or below, and without a name at it. -/
def KeepsPlace (proposed : Str) (it : Item) : Prop :=
  AtOrBelow (root.append ⟨it.path⟩) (keyOf proposed it) ∧
    (it.name = [] → (keyOf proposed it).elements = (root.append ⟨it.path⟩).elements)

instance (proposed : Str) (it : Item) : Decidable (KeepsPlace proposed it) :=
  inferInstanceAs (Decidable (_ ∧ (_ → _)))

/-- The extension, as it goes behind the name. -/
def dotted (extension : Str) : Str := if extension = [] then [] else '.' :: extension

theorem pieces_root_append (s : Str) : pieces (root.append ⟨s⟩).native = pieces s := by
  rw [FsPath.pieces_eq_filter, names_root_append, ← FsPath.pieces_eq_filter]

theorem pieces_keyOf (proposed : Str) (it : Item) :
    pieces (keyOf proposed it).native = pieces (text proposed it) := by
  have h : (keyOf proposed it).names = (FsPath.mk (text proposed it)).names := namesOf_eq proposed it
  rw [FsPath.pieces_eq_filter, h, ← FsPath.pieces_eq_filter]

/-- The archive's own name is not asked for where there is a relative path. -/
theorem nameOf_of_relative (proposed : Str) {it : Item} (h0 : it.path ≠ [])
    (h : it.path.head? ≠ some '/') : nameOf proposed it = it.name ++ dotted it.extension := by
  have hu : ¬ usesProposed it.path it.name := by
    intro hu
    have hn := ((FsPath.elements_eq_iff _ _).mp hu.1).2
    have hp := FsPath.pieces_ne_nil_of_head h0 h
    rw [names_root_append] at hn
    exact hp ((FsPath.names_eq_nil_iff ⟨it.path⟩).mp hn.symm)
  unfold nameOf dotted
  simp only [if_neg hu]
  split_ifs
  · rw [List.append_nil]
  · rfl

/-- A name that does not begin with a slash goes below the path. -/
theorem atOrBelow_of_relative (proposed : Str) (it : Item)
    (h : (nameOf proposed it).head? ≠ some '/') :
    AtOrBelow (root.append ⟨it.path⟩) (keyOf proposed it) := by
  refine ⟨?_, ?_⟩
  · rw [rooted_keyOf, FsPath.rooted_append _ rooted_root]
  · rw [pieces_root_append, pieces_keyOf, text]
    simp only [if_neg h]
    split_ifs
    · exact List.prefix_refl _
    · rw [FsPath.pieces_append_sep]
      exact List.prefix_append _ _

/-- A name that begins with one is the key. -/
theorem atOrBelow_of_rooted {proposed : Str} {it : Item}
    (h : (nameOf proposed it).head? = some '/') :
    AtOrBelow (root.append ⟨it.path⟩) (keyOf proposed it) ↔
      pieces it.path <+: pieces (nameOf proposed it) := by
  have h0 : nameOf proposed it ≠ [] := fun h0 => by rw [h0] at h; cases h
  unfold AtOrBelow
  rw [rooted_keyOf, FsPath.rooted_append _ rooted_root, pieces_root_append, pieces_keyOf, text]
  simp only [if_neg h0, if_pos h]
  exact and_iff_right trivial

/-- With something behind it a path is another. -/
theorem elements_keyOf_of_relative {proposed : Str} {it : Item} (h0 : nameOf proposed it ≠ [])
    (h : (nameOf proposed it).head? ≠ some '/') :
    (keyOf proposed it).elements ≠ (root.append ⟨it.path⟩).elements := by
  intro he
  have hn := congrArg List.length (congrArg (List.filter (· ≠ [])) ((FsPath.elements_eq_iff _ _).mp he).2)
  rw [← FsPath.pieces_eq_filter, ← FsPath.pieces_eq_filter, pieces_keyOf, pieces_root_append, text] at hn
  simp only [if_neg h0, if_neg h, FsPath.pieces_append_sep, List.length_append] at hn
  have := List.length_pos_iff.mpr (FsPath.pieces_ne_nil_of_head h0 h)
  omega

/-- An item with a relative path keeps its place exactly when it has no
extension without a name, and an absolute name goes on from the path. -/
theorem keepsPlace_iff (proposed : Str) {it : Item} (h0 : it.path ≠ [])
    (h : it.path.head? ≠ some '/') : KeepsPlace proposed it ↔
      (it.name = [] → it.extension = []) ∧
        (it.name.head? = some '/' → pieces it.path <+: pieces (it.name ++ dotted it.extension)) := by
  have hname := nameOf_of_relative proposed h0 h
  unfold KeepsPlace
  by_cases hn : it.name = []
  · have hhead : (nameOf proposed it).head? ≠ some '/' := by
      rw [hname, hn, dotted]
      split_ifs <;> simp
    rw [and_iff_right (atOrBelow_of_relative proposed it hhead)]
    by_cases hx : it.extension = []
    · have hkey : keyOf proposed it = root.append ⟨it.path⟩ := by
        have : nameOf proposed it = [] := by rw [hname, hn, hx]; rfl
        unfold keyOf
        simp only [if_pos this]
      simp [hn, hx, hkey]
    · have hne : nameOf proposed it ≠ [] := by
        rw [hname, hn, dotted, if_neg hx]
        simp
      simp [hn, hx, elements_keyOf_of_relative hne hhead]
  · have hhead : (nameOf proposed it).head? = it.name.head? := by
      rw [hname, List.head?_append_of_ne_nil _ hn]
    by_cases hr : it.name.head? = some '/'
    · rw [atOrBelow_of_rooted (hhead.trans hr), hname]
      simp [hn, hr]
    · have := atOrBelow_of_relative proposed it (by rwa [hhead])
      simp [hn, hr, this]

theorem keepsPlace_named :
    KeepsPlace ['x'] { Item.file ['a'] 0 with name := ['b'], extension := ['t'] } :=
  (keepsPlace_iff _ (by decide) (by decide)).mpr ⟨by decide, by decide⟩

/-- The file `a` with the extension `txt` is shown as `/a/.txt`. -/
theorem extension_moves_file :
    ¬ KeepsPlace ['x'] { Item.file ['a'] 0 with extension := ['t', 'x', 't'] } ∧
      (keyOf ['x'] { Item.file ['a'] 0 with extension := ['t', 'x', 't'] }).native =
        ['/', 'a', '/', '.', 't', 'x', 't'] := by
  refine ⟨?_, rfl⟩
  decide

end Fuse

end Fuse3P7zip
