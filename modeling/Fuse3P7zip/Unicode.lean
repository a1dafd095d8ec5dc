/-
# Unicode names

The program never looks at the code points of a name: it gets wide texts from
the handler, has iconv write them in UTF-8, and from there on goes by bytes. A
mount of `treeOf` for the texts themselves is what it comes to
(`mount_is_utf8`): the same requests with their paths in UTF-8 get the same
replies, listings are in the order of the code points, and a path that is not
UTF-8 is not there. One text with a surrogate in it, and there is no mount.
-/
import Fuse3P7zip.Encoding
import Fuse3P7zip.Handles
import Fuse3P7zip.Lib.Utf8
import Fuse3P7zip.Mounting
import Fuse3P7zip.Remount

namespace Fuse3P7zip

open Fuse
open FsPath (absolute absolute_inj pieces)
open Utf8 (encode scalars)

/-- A wide text that is not taken to start with a byte order mark. -/
def NoMark (w : WStr) : Prop := w.head? ≠ some 0xFEFF ∧ w.head? ≠ some 0xFFFE0000

/-- The descriptor from UTF-32 to UTF-8: a text of code points comes out in
UTF-8, and any other is an invalid sequence. -/
structure Iconv.Utf32 (cd : Iconv UInt32 Char) : Prop where
  fresh : cd.Fresh
  convert : ∀ w, NoMark w → (cd.convert cd.initial w).map Prod.fst = (scalars w).map encode

/-- Such a descriptor. -/
def Iconv.utf32 : Iconv UInt32 Char :=
  ⟨Unit, (), fun s w => (scalars w).map fun t => (encode t, s), fun s => ([], s)⟩

theorem Iconv.utf32_utf32 : Iconv.utf32.Utf32 := by
  refine ⟨rfl, fun w _ => ?_⟩
  rw [Iconv.utf32, Option.map_map]
  rfl

/-! ### Texts -/

/-- The code points of a wide text, up to its NUL. -/
def unicode (w : WStr) : Option Str := scalars (w.takeWhile (· ≠ 0))

theorem noMark_takeWhile {w : WStr} (h : NoMark w) : NoMark (w.takeWhile (· ≠ 0)) := by
  cases w with
  | nil => exact h
  | cons v w =>
    rw [List.takeWhile_cons]
    by_cases hv : v ≠ 0
    · rw [if_pos (decide_eq_true hv)]
      exact h
    · rw [if_neg (by simpa using hv)]
      exact ⟨(Option.some_ne_none _).symm, (Option.some_ne_none _).symm⟩

/-- There is no NUL in a text that is cut at the first. -/
theorem nul_not_mem_unicode {w : WStr} {s : Str} (h : unicode w = some s) : '\x00' ∉ s := by
  intro hm
  have hw := Utf8.scalars_eq_some_iff.mp h
  have hmem : ('\x00').val ∈ w.takeWhile (· ≠ 0) := by
    rw [hw]
    exact List.mem_map_of_mem hm
  have hne := List.mem_takeWhile_imp hmem
  simp at hne

/-- A text in UTF-8, and an exception where there is none. -/
def converted : Option Str → Except Escape Str
  | some s => .ok (encode s)
  | none => .error (.exn "iconv: ")

/-- A conversion that comes out as the code of a text, into a buffer with room
for it. -/
theorem converted_eq {α : Type} {cd : Iconv α Char} {input : List α} {room : ℕ} {r : Option Str}
    (hconv : (cd.convert cd.initial input).map Prod.fst = r.map encode) (hroom : ∀ s ∈ r, s.length * 4 ≤ room)
    (hnul : ∀ s ∈ r, '\x00' ∉ s) :
    (do let out ← iconv cd cd.initial input room; return cStr out) = converted r := by
  cases r with
  | none =>
    rw [iconv, Option.map_eq_none_iff.mp hconv]
    rfl
  | some s =>
    obtain ⟨⟨out, t⟩, hout, rfl⟩ := Option.map_eq_some_iff.mp hconv
    have hlen : (encode s).length ≤ room := (Utf8.length_encode_le s).trans (hroom s rfl)
    refine bind_eq_ok.mpr ⟨encode s, iconv_eq_ok.mpr ⟨t, hout, hlen⟩, congrArg Except.ok ?_⟩
    apply cStr_of_no_nul
    rw [Utf8.mem_encode_iff (by decide)]
    exact hnul s rfl

theorem utf8_eq {loc : Locale} {cd : Iconv UInt32 Char} (hcd : loc.utf32 = some cd) (h : cd.Utf32) {w : WStr}
    (hw : NoMark w) : utf8 loc w = converted (unicode w) := by
  unfold utf8 withDescriptor
  rw [hcd]
  simp only [resetAndConvert_of_fresh h.fresh]
  refine converted_eq (h.convert _ (noMark_takeWhile hw)) (fun s hs => ?_) fun s hs => nul_not_mem_unicode hs
  have hlen := congrArg List.length (Utf8.scalars_eq_some_iff.mp hs)
  rw [List.length_map] at hlen
  omega

/-- A property that is a text, if there is one. -/
def unicodeText : PropResult → Option Str
  | (res, .bstr (some w)) => if res = sOk then unicode w else some []
  | _ => some []

/-- The property is a text without a mark, or none. -/
def IsText : PropResult → Prop
  | (_, .bstr (some w)) => NoMark w
  | (_, .bstr none) => True
  | (_, .empty) => True
  | (res, _) => res ≠ sOk

/-- What is in front of the mount: the texts of an item, as they are. -/
def ItemProps.unicode (item : ItemProps) : Option Item := do
  let path ← unicodeText item.kpidPath
  let name ← unicodeText item.kpidName
  let extension ← unicodeText item.kpidExtension
  return {
    path := path, name := name, extension := extension, isDir := item.isDir, size := item.size
    atime := item.atime, mtime := item.mtime, ctime := item.ctime }

/-- The handler gives texts for the properties that should be. -/
structure ItemProps.Texts (item : ItemProps) : Prop where
  path : IsText item.kpidPath
  name : IsText item.kpidName
  extension : IsText item.kpidExtension

/-- An item with its texts in UTF-8. -/
def Item.utf8 (it : Item) : Item :=
  { it with path := encode it.path, name := encode it.name, extension := encode it.extension }

section accessors

variable {loc : Locale} {cd : Iconv UInt32 Char} (hcd : loc.utf32 = some cd) (hutf : cd.Utf32)

include hcd hutf

/-- A text that is read only if the code is `S_OK`. -/
theorem bstr_eq {res : HRESULT} {w : WStr} (h : NoMark w) :
    (if res = sOk then utf8 loc w else .ok []) = converted (unicodeText (res, .bstr (some w))) := by
  show _ = converted (if res = sOk then unicode w else some [])
  by_cases hres : res = sOk
  · rw [if_pos hres, if_pos hres]
    exact utf8_eq hcd hutf h
  · rw [if_neg hres, if_neg hres]
    rfl

theorem text_eq : ∀ {prop : PropResult}, IsText prop → ItemProps.text loc prop = converted (unicodeText prop)
  | (_, .bstr (some _)), h => bstr_eq hcd hutf h
  | (_, .bstr none), _ | (_, .empty), _ | (_, .ui1 _), _ | (_, .ui2 _), _ | (_, .ui4 _), _ | (_, .ui8 _), _ |
    (_, .bool _), _ | (_, .filetime _ _), _ => rfl

theorem path_eq (hforce : loc.forceEncoding = none) {item : ItemProps} (h : IsText item.kpidPath) :
    item.path loc = converted (unicodeText item.kpidPath) := by
  unfold ItemProps.path
  generalize item.kpidPath = prop at h
  obtain ⟨res, v⟩ := prop
  have hother : res ≠ sOk → ∀ x : Except Escape Str, (if res = sOk then x else .ok []) = .ok [] :=
    fun hres x => if_neg hres
  cases v with
  | bstr s =>
    cases s with
    | none => exact ite_id _
    | some w =>
      rw [hforce]
      exact bstr_eq hcd hutf h
  | empty => exact ite_id _
  | _ => exact hother h _

end accessors

/-! ### Names -/

theorem rooted_encode (s : Str) : (FsPath.mk (encode s)).rooted = (FsPath.mk s).rooted := by
  rw [Bool.eq_iff_iff, FsPath.rooted, FsPath.rooted, beq_iff_eq, beq_iff_eq]
  exact Utf8.head?_encode_iff (by decide) s

theorem pieces_encode (s : Str) : pieces (encode s) = (pieces s).map encode := by
  rw [pieces, pieces, Utf8.splitOn_encode (by decide), List.filter_map]
  apply congrArg
  apply List.filter_congr
  intro n _
  simp

/-- The names of a path in UTF-8. -/
theorem names_encode (s : Str) : (FsPath.mk (encode s)).names = (FsPath.mk s).names.map encode := by
  have hlast : (encode s).getLast? = some '/' ↔ s.getLast? = some '/' := Utf8.getLast?_encode_iff (by decide) s
  have hne : pieces (encode s) ≠ [] ↔ pieces s ≠ [] := by
    rw [pieces_encode, Ne, List.map_eq_nil_iff]
  unfold FsPath.names
  by_cases h : pieces s ≠ [] ∧ s.getLast? = some '/'
  · rw [if_pos h, if_pos ⟨hne.mpr h.1, hlast.mpr h.2⟩, List.map_append, pieces_encode]
    rfl
  · rw [if_neg h, if_neg fun h' => h ⟨hne.mp h'.1, hlast.mp h'.2⟩, pieces_encode]

/-- A text whose pieces are all in UTF-8 is. -/
theorem exists_encode_of_pieces (s : Str) : (∀ n ∈ pieces s, ∃ t, encode t = n) → ∃ t, encode t = s := by
  induction s using FsPath.sep_induction with
  | single s hs =>
    intro h
    by_cases h0 : s = []
    · exact ⟨[], h0.symm⟩
    · apply h s
      rw [FsPath.pieces_of_no_sep hs, if_neg h0]
      exact List.mem_singleton_self s
  | join a b iha ihb =>
    intro h
    rw [FsPath.pieces_append_sep] at h
    obtain ⟨ta, rfl⟩ := iha fun n hn => h n (List.mem_append_left _ hn)
    obtain ⟨tb, rfl⟩ := ihb fun n hn => h n (List.mem_append_right _ hn)
    refine ⟨ta ++ '/' :: tb, ?_⟩
    rw [Utf8.encode_append, Utf8.encode_cons_of_ascii (by decide)]

theorem usesProposed_encode (path name : Str) : usesProposed (encode path) (encode name) ↔ usesProposed path name := by
  have hroot : ∀ p : Str, root.elements = (root.append ⟨p⟩).elements ↔ (FsPath.mk p).names = [] := by
    intro p
    rw [FsPath.elements_eq_iff, FsPath.rooted_append _ rooted_root, names_root_append]
    exact ⟨fun h => h.2.symm, fun h => ⟨rfl, h.symm⟩⟩
  unfold usesProposed
  rw [hroot, hroot, names_encode, List.map_eq_nil_iff, Utf8.encode_eq_nil_iff]

theorem nameOf_utf8 (proposed : Str) (it : Item) : nameOf (encode proposed) it.utf8 = encode (nameOf proposed it) := by
  have huse : usesProposed it.utf8.path it.utf8.name ↔ usesProposed it.path it.name := usesProposed_encode _ _
  have hext : it.utf8.extension = [] ↔ it.extension = [] := Utf8.encode_eq_nil_iff
  have hname : (if usesProposed it.utf8.path it.utf8.name then encode proposed else it.utf8.name) =
      encode (if usesProposed it.path it.name then proposed else it.name) := by
    by_cases h : usesProposed it.path it.name
    · rw [if_pos h, if_pos (huse.mpr h)]
    · rw [if_neg h, if_neg (mt huse.mp h)]
      rfl
  unfold nameOf
  simp only [hname]
  by_cases h : it.extension = []
  · rw [if_pos h, if_pos (hext.mpr h)]
  · rw [if_neg h, if_neg (mt hext.mp h), Utf8.encode_append, Utf8.encode_cons_of_ascii (by decide)]
    rfl

theorem text_utf8 (proposed : Str) (it : Item) : text (encode proposed) it.utf8 = encode (text proposed it) := by
  unfold text
  simp only [nameOf_utf8]
  by_cases h0 : nameOf proposed it = []
  · rw [if_pos h0, if_pos (Utf8.encode_eq_nil_iff.mpr h0)]
    rfl
  rw [if_neg h0, if_neg fun h => h0 (Utf8.encode_eq_nil_iff.mp h)]
  by_cases hs : (nameOf proposed it).head? = some '/'
  · rw [if_pos hs, if_pos ((Utf8.head?_encode_iff (by decide) _).mpr hs)]
  · rw [if_neg hs, if_neg fun h => hs ((Utf8.head?_encode_iff (by decide) _).mp h), Utf8.encode_append,
      Utf8.encode_cons_of_ascii (by decide)]
    rfl

/-- The key of an item in UTF-8. -/
theorem namesOf_utf8 (proposed : Str) (it : Item) :
    namesOf (encode proposed) it.utf8 = (namesOf proposed it).map encode := by
  rw [namesOf_eq, namesOf_eq, textNames, textNames, text_utf8, names_encode]

/-! ### Reading the items -/

theorem decode_eq {loc : Locale} {cd : Iconv UInt32 Char} (hcd : loc.utf32 = some cd) (hutf : cd.Utf32)
    (hforce : loc.forceEncoding = none) {arc : ImplArchive} {proposed : Str} (hprop : arc.proposedName = .ok proposed)
    {item : ItemProps} (h : item.Texts) : decode loc arc item = match item.unicode with
      | some it => .ok it.utf8
      | none => .error (.exn "iconv: ") := by
  unfold decode ItemProps.unicode ItemProps.name ItemProps.extension
  rw [path_eq hcd hutf hforce h.path, text_eq hcd hutf h.name, text_eq hcd hutf h.extension, hprop]
  cases unicodeText item.kpidPath with
  | none => rfl
  | some path =>
    cases unicodeText item.kpidName with
    | none => rfl
    | some name =>
      show (if usesProposed (encode path) (encode name) then _ else _) = _
      cases unicodeText item.kpidExtension with
      | none => split_ifs <;> rfl
      | some extension => split_ifs <;> rfl

theorem executeFrom_eq {loc : Locale} {cd : Iconv UInt32 Char} (hcd : loc.utf32 = some cd) (hutf : cd.Utf32)
    (hforce : loc.forceEncoding = none) {arc : ImplArchive} {proposed : Str} (hprop : arc.proposedName = .ok proposed) :
    ∀ {items : List ItemProps} (i : ℕ) (tree : FileTree), (∀ item ∈ items, item.Texts) →
      executeFrom loc arc i items tree = match items.mapM ItemProps.unicode with
        | some its => .ok (addItems arc.stat proposed i (its.map Item.utf8) tree)
        | none => .error (.exn "iconv: ")
  | [], _, _, _ => rfl
  | item :: items, i, tree, h => by
    obtain ⟨hitem, hitems⟩ := List.forall_mem_cons.mp h
    have hproposed : arc.proposed = proposed := by
      rw [ImplArchive.proposed, hprop]
    rw [executeFrom, decode_eq hcd hutf hforce hprop hitem, List.mapM_cons]
    cases item.unicode with
    | none => rfl
    | some it =>
      show executeFrom loc arc (i + 1) items (addItem arc.stat arc.proposed i it.utf8 tree) = _
      rw [executeFrom_eq hcd hutf hforce hprop _ _ hitems, hproposed]
      cases items.mapM ItemProps.unicode with
      | none => rfl
      | some its => rfl

/-! ### The tree in UTF-8 -/

section tree

variable {arcStat : Stat} {allowOther : Bool} {proposed : Str} {its : List Item} {tree tree' : FileTree}
  (spec : TreeSpec arcStat proposed allowOther its tree)
  (spec' : TreeSpec arcStat (encode proposed) allowOther (its.map Item.utf8) tree')

theorem prefix_encode {a b : List Str} : a.map encode <+: b.map encode ↔ a <+: b :=
  List.prefix_map_iff_of_injective Utf8.encode_injective

theorem namesOf_utf8_eq_iff {it : Item} {a : List Str} :
    namesOf (encode proposed) it.utf8 = a.map encode ↔ namesOf proposed it = a := by
  rw [namesOf_utf8]
  exact (List.map_injective_iff.mpr Utf8.encode_injective).eq_iff

include spec spec'

/-- What is at a path of the one tree is at the path in UTF-8 of the other. -/
theorem at_encode (a : List Str) : tree'.at (absolute (a.map encode)) = tree.at (absolute a) := by
  have hget : ∀ (i : ℕ) jt, (its.map Item.utf8)[i]? = some jt → ∃ it, its[i]? = some it ∧ it.utf8 = jt := by
    intro i jt h
    rw [List.getElem?_map] at h
    exact Option.map_eq_some_iff.mp h
  have hget' : ∀ (i : ℕ) it, its[i]? = some it → (its.map Item.utf8)[i]? = some it.utf8 := by
    intro i it h
    rw [List.getElem?_map, h]
    rfl
  by_cases hkey : ∃ it ∈ its, namesOf proposed it = a
  · obtain ⟨i, it, hi, rfl, hlast⟩ := exists_last hkey
    have hitem' := spec'.item i it.utf8 (hget' i it hi) fun j jt' hij hj => by
      obtain ⟨jt, hjt, rfl⟩ := hget j jt' hj
      rw [namesOf_utf8 proposed it, Ne, namesOf_utf8_eq_iff]
      exact hlast j jt hij hjt
    rw [namesOf_utf8] at hitem'
    rw [hitem', spec.item i it hi hlast]
    rfl
  have hno : ∀ it ∈ its, namesOf proposed it ≠ a := fun it hit he => hkey ⟨it, hit, he⟩
  have hno' : ∀ jt ∈ its.map Item.utf8, namesOf (encode proposed) jt ≠ a.map encode := by
    intro jt hjt
    obtain ⟨it, hit, rfl⟩ := List.mem_map.mp hjt
    rw [Ne, namesOf_utf8_eq_iff]
    exact hno it hit
  by_cases h0 : a = []
  · subst h0
    rw [spec.root hno]
    exact spec'.root hno'
  have h0' : a.map encode ≠ [] := mt List.map_eq_nil_iff.mp h0
  by_cases habove : ∃ it ∈ its, a <+: namesOf proposed it
  · obtain ⟨i, it, hi, hp, hfirst⟩ := exists_first habove
    have hp' : a.map encode <+: namesOf (encode proposed) it.utf8 := by
      rw [namesOf_utf8, prefix_encode]
      exact hp
    rw [spec.parent a i it h0 hi hp hno hfirst]
    apply spec'.parent (a.map encode) i it.utf8 h0' (hget' i it hi) hp' hno'
    intro j jt' hij hj
    obtain ⟨jt, hjt, rfl⟩ := hget j jt' hj
    rw [namesOf_utf8, prefix_encode]
    exact hfirst j jt hij hjt
  · have hnone : tree.at (absolute a) = none := by
      by_contra hne
      exact habove (((spec.at_ne_none_iff a).mp hne).resolve_left h0)
    rw [hnone]
    by_contra hne
    obtain ⟨jt, hjt, hp⟩ := ((spec'.at_ne_none_iff _).mp hne).resolve_left h0'
    obtain ⟨it, hit, rfl⟩ := List.mem_map.mp hjt
    rw [namesOf_utf8, prefix_encode] at hp
    exact habove ⟨it, hit, hp⟩

/-- Every path of the tree in UTF-8 is that of a path of the other. -/
theorem exists_of_at_encode {e : Bool ×ₗ List Str} (h : tree'.at e ≠ none) :
    ∃ a, e = absolute (a.map encode) ∧ tree.at (absolute a) ≠ none := by
  obtain ⟨b, rfl, hb⟩ := (spec'.keys e).mp h
  have hex : ∃ a : List Str, b = a.map encode := by
    rcases hb with rfl | ⟨jt, hjt, hp⟩
    · exact ⟨[], rfl⟩
    · obtain ⟨it, -, rfl⟩ := List.mem_map.mp hjt
      rw [namesOf_utf8] at hp
      exact ⟨_, (List.prefix_map_iff.mp hp).choose_spec.2⟩
  obtain ⟨a, rfl⟩ := hex
  refine ⟨a, rfl, ?_⟩
  rwa [← at_encode spec spec']

theorem find_encode (p : Str) : tree'.find? ⟨encode p⟩ = tree.find? ⟨p⟩ := by
  rw [StdMap.find?, StdMap.find?]
  cases hr : (FsPath.mk p).rooted with
  | true =>
    rw [FsPath.elements_of_rooted ((rooted_encode p).trans hr), FsPath.elements_of_rooted hr, names_encode]
    exact at_encode spec spec' _
  | false =>
    have habs : ∀ q : Str, (FsPath.mk q).rooted = false → ∀ a, (FsPath.mk q).elements ≠ absolute a := by
      intro q hq a he
      rw [((FsPath.elements_eq_absolute_iff _ a).mp he).1] at hq
      cases hq
    have hnone : tree.at (FsPath.mk p).elements = none := by
      by_contra h
      obtain ⟨a, he, -⟩ := (spec.keys _).mp h
      exact habs p hr a he
    rw [hnone]
    by_contra h
    obtain ⟨a, he, -⟩ := (spec'.keys _).mp h
    exact habs (encode p) ((rooted_encode p).trans hr) a he

/-- A path that is not in UTF-8 is not there. -/
theorem find_of_not_encode {q : Str} (hq : ∀ p, encode p ≠ q) : tree'.find? ⟨q⟩ = none := by
  by_contra h
  obtain ⟨a, he, -⟩ := exists_of_at_encode spec spec' h
  have hnames := ((FsPath.elements_eq_absolute_iff _ _).mp he).2
  obtain ⟨p, hp⟩ := exists_encode_of_pieces q fun n hn => by
    rw [FsPath.pieces_eq_filter ⟨q⟩, List.mem_filter, hnames] at hn
    obtain ⟨t, -, ht⟩ := List.mem_map.mp hn.1
    exact ⟨t, ht⟩
  exact hq p hp

/-! ### Listings -/

/-- A listed path with its names in UTF-8. -/
def encodeShown (x : (Bool ×ₗ List Str) × Stat) : (Bool ×ₗ List Str) × Stat :=
  (toLex ((ofLex x.1).1, (ofLex x.1).2.map encode), x.2)

omit spec spec' in
/-- The order of the paths stays. -/
theorem encodeShown_lt {x y : (Bool ×ₗ List Str) × Stat} (h : x.1 < y.1) : (encodeShown x).1 < (encodeShown y).1 := by
  rw [Prod.Lex.lt_iff] at h ⊢
  rcases h with h | ⟨heq, h⟩
  · exact .inl h
  · exact .inr ⟨heq, List.map_lt (fun _ _ => (Utf8.encode_strictMono ·)) h⟩

theorem shown_encode : (listed tree').map shown = ((listed tree).map shown).map encodeShown := by
  have hnil : ∀ a : List Str, [] ∈ a.map encode ↔ [] ∈ a := by
    intro a
    rw [List.mem_map]
    exact ⟨fun ⟨n, hn, he⟩ => Utf8.encode_eq_nil_iff.mp he ▸ hn, fun h => ⟨[], h, rfl⟩⟩
  apply shown_ext (pairwise_shown tree')
  · exact List.pairwise_map.mpr ((pairwise_shown tree).imp encodeShown_lt)
  · rintro ⟨e, st⟩
    rw [mem_shown_iff spec', List.mem_map]
    constructor
    · rintro ⟨b, it, rfl, hb, hbnil, hat⟩
      obtain ⟨a, he, -⟩ := exists_of_at_encode spec spec' (by rw [hat]; exact Option.some_ne_none _)
      obtain rfl := absolute_inj.mp he
      rw [at_encode spec spec'] at hat
      have hne : a ≠ [] := fun h0 => hb (by rw [h0]; rfl)
      exact ⟨(absolute a, st), (mem_shown_iff spec).mpr ⟨a, it, rfl, hne, mt (hnil a).mpr hbnil, hat⟩, rfl⟩
    · rintro ⟨⟨e', st'⟩, hx, he⟩
      obtain ⟨a, it, rfl, hne, hanil, hat⟩ := (mem_shown_iff spec).mp hx
      obtain ⟨rfl, rfl⟩ := Prod.mk.inj he
      refine ⟨a.map encode, it, rfl, mt List.map_eq_nil_iff.mp hne, mt (hnil a).mp hanil, ?_⟩
      rw [at_encode spec spec']
      exact hat

omit spec spec' in
theorem dirShown_encode (p : Str) (x : (Bool ×ₗ List Str) × Stat) :
    dirShown ⟨encode p⟩ (encodeShown x) = (dirShown ⟨p⟩ x).map fun y => (encode y.1, y.2) := by
  have hiff : (FsPath.mk (encode p)).elements = toLex ((ofLex x.1).1, ((ofLex x.1).2.map encode).dropLast) ↔
      (FsPath.mk p).elements = toLex ((ofLex x.1).1, (ofLex x.1).2.dropLast) := by
    rw [FsPath.elements, FsPath.elements, toLex_inj, toLex_inj, Prod.mk.injEq, Prod.mk.injEq, rooted_encode,
      names_encode, ← List.map_dropLast]
    exact and_congr_right fun _ => (List.map_injective_iff.mpr Utf8.encode_injective).eq_iff
  have hlast : ((ofLex x.1).2.map encode).getLast?.getD [] = encode ((ofLex x.1).2.getLast?.getD []) := by
    rw [List.getLast?_map]
    cases (ofLex x.1).2.getLast? <;> rfl
  unfold dirShown
  by_cases h : (FsPath.mk p).elements = toLex ((ofLex x.1).1, (ofLex x.1).2.dropLast)
  · rw [if_pos h]
    refine (if_pos (hiff.mpr h)).trans ?_
    show some (((ofLex x.1).2.map encode).getLast?.getD [], some x.2) = _
    rw [hlast]
    rfl
  · rw [if_neg h]
    exact if_neg (mt hiff.mp h)

/-- `cb_readdir`: the names in UTF-8, in the order they have as texts. -/
theorem cbReaddir_encode (p : Str) : cbReaddir tree' (encode p) =
    ((cbReaddir tree p).1, (cbReaddir tree p).2.map fun x => (encode x.1, x.2)) := by
  have hlisting : tree'.entries.filterMap (dirEntry ⟨encode p⟩) =
      (tree.entries.filterMap (dirEntry ⟨p⟩)).map fun x => (encode x.1, x.2) := by
    rw [filterMap_dirEntry, filterMap_dirEntry, shown_encode spec spec', List.filterMap_map, List.map_filterMap]
    apply List.filterMap_congr
    intro x _
    exact dirShown_encode p x
  have hcontains : tree'.contains ⟨encode p⟩ = tree.contains ⟨p⟩ := by
    rw [Bool.eq_iff_iff, StdMap.contains_iff, StdMap.contains_iff]
    show tree'.find? _ ≠ none ↔ tree.find? _ ≠ none
    rw [find_encode spec spec']
  have hroot : encode p ≠ ['/'] ↔ p ≠ ['/'] := by
    have h : encode ['/'] = ['/'] := by decide
    rw [← h, Ne, Utf8.encode_injective.eq_iff, h]
  have hdots : encode ['.'] = ['.'] ∧ encode ['.', '.'] = ['.', '.'] := by decide
  unfold cbReaddir
  rw [hcontains, hlisting]
  by_cases h : p ≠ ['/'] ∧ tree.contains ⟨p⟩ = false
  · rw [if_pos h, if_pos ⟨hroot.mpr h.1, h.2⟩]
    rfl
  · rw [if_neg h, if_neg fun h' => h ⟨hroot.mp h'.1, h'.2⟩, List.map_cons, List.map_cons, hdots.1, hdots.2]

end tree

/-! ### Requests -/

/-- A request with its path in UTF-8. -/
def Fuse.Request.utf8 : Request → Request
  | .open path => .open (encode path)
  | .read fh size offset => .read fh size offset
  | .release fh => .release fh

/-- The responses to requests one after the other. -/
def Fuse.serveAll (env : Env) : Mount → List Request → Except Escape (List Response × Mount)
  | m, [] => .ok ([], m)
  | m, req :: reqs => do
    let (resp, m) ← serve env m req
    let (resps, m) ← serveAll env m reqs
    return (resp :: resps, m)

/-- The mount with another tree, and the open files it has. -/
def Fuse.Mount.withTree (m : Mount) (tree : FileTree) : Mount := { m with tree := tree }

theorem cbRead_withTree (env : Env) (m : Mount) (tree : FileTree) (size : UInt64) (offset : Int64) (fi : FuseFileInfo) :
    cbRead env (m.withTree tree) size offset fi =
      (cbRead env m size offset fi).map fun r => (r.1, r.2.1, r.2.2.withTree tree) := by
  unfold cbRead Mount.withTree
  simp only
  cases m.handles.find? fi.fh <;> rfl

theorem cbRelease_withTree (m : Mount) (tree : FileTree) (fi : FuseFileInfo) :
    cbRelease (m.withTree tree) fi = (cbRelease m fi).map fun r => (r.1, r.2.withTree tree) := by
  unfold cbRelease Mount.withTree
  simp only
  cases m.handles.find? fi.fh <;> rfl

theorem serve_tree {env : Env} {m m' : Mount} {req : Request} {resp : Response}
    (h : serve env m req = .ok (resp, m')) : m'.tree = m.tree := by
  have htracks : Tracks m fun fh => (m.handles.find? fh).map fun f => f.file.content := by
    intro fh
    dsimp only
    cases m.handles.find? fh with
    | none => exact .none
    | some f => exact .some trivial
  exact (htracks.step h).1

section requests

variable {env : Env} {tree tree' : FileTree} (hfind : ∀ p, tree'.find? ⟨encode p⟩ = tree.find? ⟨p⟩)

include hfind

theorem cbOpen_encode {m : Mount} (hm : m.tree = tree) (p : Str) (fi : FuseFileInfo) :
    cbOpen env (m.withTree tree') (encode p) fi =
      (cbOpen env m p fi).map fun r => (r.1, r.2.1, r.2.2.withTree tree') := by
  unfold cbOpen Mount.withTree
  simp only [hfind, hm]
  cases tree.find? ⟨p⟩ with
  | none => rfl
  | some el =>
    by_cases hlim : overLimit env el.2
    · simp only [if_pos hlim]
      rfl
    · simp only [if_neg hlim]
      cases el.1.extract env m.clock <;> rfl

/-- A request with its path in UTF-8 gets the same response. -/
theorem serve_utf8 {m : Mount} (hm : m.tree = tree) (req : Request) :
    serve env (m.withTree tree') req.utf8 = (serve env m req).map fun r => (r.1, r.2.withTree tree') := by
  cases req with
  | «open» path =>
    show (cbOpen env (m.withTree tree') (encode path) {} >>= _) = Except.map _ (cbOpen env m path {} >>= _)
    rw [cbOpen_encode hfind hm]
    cases cbOpen env m path {} <;> rfl
  | read fh size offset =>
    show (cbRead env (m.withTree tree') size offset { fh := fh } >>= _) =
      Except.map _ (cbRead env m size offset { fh := fh } >>= _)
    rw [cbRead_withTree]
    cases cbRead env m size offset { fh := fh } <;> rfl
  | release fh =>
    show (cbRelease (m.withTree tree') { fh := fh } >>= _) = Except.map _ (cbRelease m { fh := fh } >>= _)
    rw [cbRelease_withTree]
    cases cbRelease m { fh := fh } <;> rfl

theorem serveAll_utf8 : ∀ {m : Mount} (reqs : List Request), m.tree = tree →
    serveAll env (m.withTree tree') (reqs.map Request.utf8) =
      (serveAll env m reqs).map fun r => (r.1, r.2.withTree tree')
  | _, [], _ => rfl
  | m, req :: reqs, hm => by
    rw [List.map_cons, serveAll, serveAll, serve_utf8 hfind hm]
    cases hs : serve env m req with
    | error e => rfl
    | ok r =>
      obtain ⟨resp, m'⟩ := r
      show (serveAll env (m'.withTree tree') (reqs.map Request.utf8) >>= _) =
        Except.map _ (serveAll env m' reqs >>= _)
      rw [serveAll_utf8 reqs ((serve_tree hs).trans hm)]
      cases serveAll env m' reqs <;> rfl

end requests

/-- **The mount is that of the texts, in UTF-8.** Where the handler gives texts
and iconv is one that writes them in UTF-8, there is a mount exactly when all
of them are Unicode. What it answers to a path in UTF-8, and to any requests
one after the other, is what a mount of the texts themselves answers, with the
names of a listing in UTF-8. Any other path is not there. -/
theorem mount_is_utf8 {loc : Locale} {cd : Iconv UInt32 Char} (hforce : loc.forceEncoding = none)
    (hcd : loc.utf32 = some cd) (hutf : cd.Utf32) {arc : ImplArchive} {proposed : Str}
    (hprop : arc.proposedName = .ok (encode proposed)) (htexts : ∀ item ∈ arc.items, item.Texts) (allowOther : Bool) :
    (arc.items.mapM ItemProps.unicode = none → execute loc arc allowOther = .error (.exn "iconv: ")) ∧
    ∀ its, arc.items.mapM ItemProps.unicode = some its → ∃ tree, execute loc arc allowOther = .ok tree ∧
      (∀ p, cbGetattr tree (encode p) = cbGetattr (treeOf arc.stat allowOther proposed its) p ∧
        cbReaddir tree (encode p) = ((cbReaddir (treeOf arc.stat allowOther proposed its) p).1,
          (cbReaddir (treeOf arc.stat allowOther proposed its) p).2.map fun x => (encode x.1, x.2))) ∧
      (∀ env reqs, serveAll env (.fresh tree) (reqs.map Request.utf8) =
        (serveAll env (.fresh (treeOf arc.stat allowOther proposed its)) reqs).map fun r =>
          (r.1, r.2.withTree tree)) ∧
      ∀ q, (∀ p, encode p ≠ q) → cbGetattr tree q = (-enoent, zeroStat) ∧ cbReaddir tree q = (-enotdir, []) ∧
        ∀ (env : Env) m fi, m.tree = tree → cbOpen env m q fi = .ok (-enoent, fi, m) := by
  have hexec := executeFrom_eq hcd hutf hforce hprop 0 (rootTree arc.stat allowOther) htexts
  refine ⟨fun hnone => ?_, fun its hits => ?_⟩
  · rw [hnone] at hexec
    exact hexec
  rw [hits] at hexec
  have spec := treeSpec_treeOf arc.stat proposed allowOther its
  have spec' := treeSpec_treeOf arc.stat (encode proposed) allowOther (its.map Item.utf8)
  have hfind := find_encode spec spec'
  refine ⟨treeOf arc.stat allowOther (encode proposed) (its.map Item.utf8), hexec, fun p => ⟨?_, ?_⟩, fun env reqs => ?_,
    fun q hq => ?_⟩
  · rw [cbGetattr, cbGetattr, hfind]
  · exact cbReaddir_encode spec spec' p
  · exact serveAll_utf8 hfind (m := .fresh (treeOf arc.stat allowOther proposed its)) reqs rfl
  · have hnone := find_of_not_encode spec spec' hq
    have hroot : q ≠ ['/'] := fun h => hq ['/'] (by rw [h]; decide)
    refine ⟨?_, ?_, fun env m fi hm => cbOpen_of_not_found env fi (by rw [hm]; exact hnone)⟩
    · rw [cbGetattr, hnone]
    · have hcon : (treeOf arc.stat allowOther (encode proposed) (its.map Item.utf8)).contains ⟨q⟩ = false := by
        rw [← Bool.not_eq_true, StdMap.contains_iff, not_not]
        exact hnone
      rw [cbReaddir, if_pos ⟨hroot, hcon⟩]

/-- A locale with the descriptor. -/
def Locale.utf32Only : Locale := { Locale.ascii with utf32 := some .utf32 }

/-- An `é` is listed as its two bytes. -/
theorem mount_is_utf8_e_acute : ∃ tree, execute .utf32Only (.single (.file [0xE9] (sOk, .empty))) false = .ok tree ∧
    (cbReaddir tree ['/']).2.map Prod.fst = [['.'], ['.', '.'], ['\u00C3', '\u00A9']] := by
  have hitem : (ItemProps.file [0xE9] (sOk, .empty)).Texts := ⟨⟨by decide, by decide⟩, trivial, trivial⟩
  have htexts : ∀ item ∈ (ImplArchive.single (.file [0xE9] (sOk, .empty))).items, item.Texts :=
    List.forall_mem_singleton.mpr hitem
  have hforce : Locale.utf32Only.forceEncoding = none := rfl
  have hproposed : (ImplArchive.single (.file [0xE9] (sOk, .empty))).proposedName = .ok (encode ['x']) := by decide
  have h := mount_is_utf8 hforce rfl Iconv.utf32_utf32 hproposed htexts false
  obtain ⟨tree, hexec, hpaths, -⟩ := h.2 [.file ['é'] 0] (by decide)
  refine ⟨tree, hexec, ?_⟩
  have hroot := (hpaths ['/']).2
  rw [show encode ['/'] = ['/'] by decide] at hroot
  rw [hroot]
  decide +kernel

end Fuse3P7zip
