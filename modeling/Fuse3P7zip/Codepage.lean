/-
# The encoding in the archive's name

`main` searches the archive's path for `.cp` and three digits or more
between dots, and puts what it finds into `FUSE3_P7ZIP_FORCE_ENCODING`
unless that is set. It searches the whole path, the directories first:
`encoding_by_name_iff` is when only the file name counts.
-/
import Fuse3P7zip.Strings
import Fuse3P7zip.Lib.FsPath
import Fuse3P7zip.Lib.Regex

namespace Fuse3P7zip

/-- A character of an expression that does not look at the case. -/
def icase (c : Char) : Regex Char := .one fun a => a.toLower == c.toLower

/-- `\.(cp\d{3,})\.` -/
def codepageRegex : Regex Char :=
  .seq (icase '.') (.seq (.group (.seq (icase 'c') (.seq (icase 'p') (.many 3 Char.isDigit)))) (icase '.'))

/-- What `main` finds in the path: the one group of the match. -/
def detectCodepage (path : Str) : Option Str :=
  match codepageRegex.search path with
  | some (_, [encoding]) => some encoding
  | _ => none

/-- The environment as `main` leaves it: `setenv` keeps what is set. -/
def Locale.detected (loc : Locale) (path : Str) : Locale :=
  { loc with forceEncoding := loc.forceEncoding.or (detectCodepage path) }

/-! ### A name and its encoding -/

/-- A `cp` in any case, and three digits or more. -/
def IsCodepage (encoding : Str) : Prop :=
  ∃ c p digits, encoding = c :: p :: digits ∧ c.toLower = 'c' ∧ p.toLower = 'p' ∧ 3 ≤ digits.length ∧
    ∀ d ∈ digits, d.isDigit = true

/-- There is a codepage between dots, behind `before`. -/
def NamesAt (name before encoding : Str) : Prop :=
  IsCodepage encoding ∧ ∃ behind, name = before ++ ('.' :: (encoding ++ '.' :: behind))

/-- The leftmost codepage of a name, or that it has none. -/
def Leftmost (name : Str) : Option Str → Prop
  | some encoding => ∃ before, NamesAt name before encoding ∧
      ∀ before' encoding', NamesAt name before' encoding' → before.length ≤ before'.length
  | none => ∀ before encoding, ¬ NamesAt name before encoding

/-- What is in front of the file name. -/
def directory (path : Str) : Str := path.rdropWhile (· ≠ '/')

/-- If the directories have a codepage, their leftmost is that of the file name too. -/
def ByName (path : Str) : Prop :=
  ∀ encoding, Leftmost (directory path) (some encoding) → Leftmost (FsPath.back path) (some encoding)

theorem toLower_eq_dot_iff {c : Char} : c.toLower = '.' ↔ c = '.' := by
  unfold Char.toLower
  split
  · rename_i h
    refine iff_of_false (fun he => ?_) ?_
    · have hlow : 'A'.val.toNat ≤ c.val.toNat := h.1
      have hhigh : c.val.toNat ≤ 'Z'.val.toNat := h.2
      have hval : (c.val + ('a'.val - 'A'.val)).toNat = '.'.val.toNat := by rw [← he]
      rw [UInt32.toNat_add, Nat.mod_eq_of_lt (by simp at hhigh ⊢; omega)] at hval
      simp at hlow hval
      omega
    · rintro rfl
      exact absurd h (by decide)
  · exact Iff.rfl

theorem matches_icase {c : Char} {t : Str} {g : List Str} :
    (icase c).Matches t g ↔ ∃ a, a.toLower = c.toLower ∧ t = [a] ∧ g = [] := by
  simp only [icase, Regex.Matches, beq_iff_eq]

theorem dot_not_mem_codepage {encoding : Str} (h : IsCodepage encoding) : '.' ∉ encoding := by
  obtain ⟨c, p, digits, rfl, hc, hp, -, hd⟩ := h
  intro hm
  rcases List.mem_cons.mp hm with rfl | hm
  · exact absurd hc (by decide)
  rcases List.mem_cons.mp hm with rfl | hm
  · exact absurd hp (by decide)
  · exact absurd (hd _ hm) (by decide)

/-- A match is a codepage between dots, and the codepage is its group. -/
theorem matches_codepageRegex {t : Str} {g : List Str} : codepageRegex.Matches t g ↔
    ∃ encoding, IsCodepage encoding ∧ t = '.' :: (encoding ++ ['.']) ∧ g = [encoding] := by
  constructor
  · rintro ⟨t1, g1, t2, g2, h1, ⟨t3, g3, t4, g4, ⟨g', h3, rfl⟩, h4, rfl, rfl⟩, rfl, rfl⟩
    obtain ⟨a, ha, rfl, rfl⟩ := matches_icase.mp h1
    obtain ⟨b, hb, rfl, rfl⟩ := matches_icase.mp h4
    obtain ⟨tc, gc, tpd, gpd, hc, ⟨tp, gp, digits, gd, hp, ⟨hlen, hd, rfl⟩, rfl, rfl⟩, rfl, rfl⟩ := h3
    obtain ⟨c, hlc, rfl, rfl⟩ := matches_icase.mp hc
    obtain ⟨p, hlp, rfl, rfl⟩ := matches_icase.mp hp
    rw [toLower_eq_dot_iff.mp ha, toLower_eq_dot_iff.mp hb]
    exact ⟨c :: p :: digits, ⟨c, p, digits, rfl, hlc, hlp, hlen, hd⟩, rfl, rfl⟩
  · rintro ⟨encoding, ⟨c, p, digits, rfl, hc, hp, hlen, hd⟩, rfl, rfl⟩
    have hdot : (icase '.').Matches ['.'] [] := matches_icase.mpr ⟨'.', rfl, rfl, rfl⟩
    have hcp : (Regex.seq (icase 'c') (.seq (icase 'p') (.many 3 Char.isDigit))).Matches (c :: p :: digits) [] := by
      refine ⟨[c], [], p :: digits, [], matches_icase.mpr ⟨c, hc, rfl, rfl⟩, ?_, rfl, rfl⟩
      exact ⟨[p], [], digits, [], matches_icase.mpr ⟨p, hp, rfl, rfl⟩, ⟨hlen, hd, rfl⟩, rfl, rfl⟩
    exact ⟨['.'], [], _, [c :: p :: digits], hdot, ⟨_, _, ['.'], [], ⟨[], hcp, rfl⟩, hdot, rfl, rfl⟩, rfl, rfl⟩

theorem avoids_slash : codepageRegex.Avoids '/' := by
  simp [codepageRegex, icase, Regex.Avoids]

/-- There is a codepage behind `before` exactly when the text there begins with
a match. -/
theorem begins_iff {text : Str} : codepageRegex.Begins text ↔ ∃ encoding, NamesAt text [] encoding := by
  constructor
  · rintro ⟨t, g, rest, rfl, hm⟩
    obtain ⟨encoding, hcp, rfl, -⟩ := matches_codepageRegex.mp hm
    exact ⟨encoding, hcp, rest, by simp⟩
  · rintro ⟨encoding, hcp, behind, rfl⟩
    refine ⟨'.' :: (encoding ++ ['.']), [encoding], behind, by simp, ?_⟩
    exact matches_codepageRegex.mpr ⟨encoding, hcp, rfl, rfl⟩

/-- What is found is a codepage, and nothing lies in front of it. -/
theorem search_codepageRegex {name : Str} {a : Str × List Str} (h : codepageRegex.search name = some a) :
    ∃ encoding, a.2 = [encoding] ∧ Leftmost name (some encoding) := by
  obtain ⟨before, behind, rfl, hm, hleft⟩ := Regex.search_eq_some h
  obtain ⟨encoding, hcp, ht, hg⟩ := matches_codepageRegex.mp hm
  refine ⟨encoding, hg, before, ⟨hcp, behind, by simp [ht]⟩, ?_⟩
  rintro before' encoding' ⟨hcp', behind', he⟩
  exact hleft _ _ he (begins_iff.mpr ⟨encoding', hcp', behind', rfl⟩)

theorem detectCodepage_of_search {name : Str} {a : Str × List Str} (h : codepageRegex.search name = some a) :
    ∃ encoding, detectCodepage name = some encoding ∧ Leftmost name (some encoding) := by
  obtain ⟨encoding, hg, hleft⟩ := search_codepageRegex h
  refine ⟨encoding, ?_, hleft⟩
  obtain ⟨t, g⟩ := a
  cases hg
  rw [detectCodepage, h]

theorem detectCodepage_of_none {name : Str} (h : codepageRegex.search name = none) :
    detectCodepage name = none := by
  rw [detectCodepage, h]

/-- What `main` finds in a text is its leftmost codepage. -/
theorem leftmost_detectCodepage (name : Str) : Leftmost name (detectCodepage name) := by
  cases hs : codepageRegex.search name with
  | none =>
    rw [detectCodepage_of_none hs]
    rintro before encoding ⟨hcp, behind, rfl⟩
    exact Regex.search_eq_none hs _ _ rfl (begins_iff.mpr ⟨encoding, hcp, behind, rfl⟩)
  | some a =>
    obtain ⟨encoding, he, hleft⟩ := detectCodepage_of_search hs
    rwa [he]

theorem takeWhile_codepage {encoding : Str} (h : IsCodepage encoding) (behind : Str) :
    (encoding ++ '.' :: behind).takeWhile (· ≠ '.') = encoding := by
  have hno : ∀ c ∈ encoding, decide (c ≠ '.') = true := fun c hc =>
    decide_eq_true fun he => dot_not_mem_codepage h (he ▸ hc)
  rw [List.takeWhile_append_of_pos hno, List.takeWhile_cons_of_neg (by simp), List.append_nil]

/-- Two codepages at one place are the same: neither has a dot in it. -/
theorem NamesAt.unique {name before encoding encoding' : Str} (h : NamesAt name before encoding)
    (h' : NamesAt name before encoding') : encoding = encoding' := by
  obtain ⟨hcp, behind, rfl⟩ := h
  obtain ⟨hcp', behind', he⟩ := h'
  have htext : encoding ++ '.' :: behind = encoding' ++ '.' :: behind' :=
    (List.cons.inj (List.append_cancel_left he)).2
  calc encoding = (encoding ++ '.' :: behind).takeWhile (· ≠ '.') := (takeWhile_codepage hcp behind).symm
    _ = (encoding' ++ '.' :: behind').takeWhile (· ≠ '.') := by rw [htext]
    _ = encoding' := takeWhile_codepage hcp' behind'

theorem Leftmost.unique {name : Str} : ∀ {v v' : Option Str}, Leftmost name v → Leftmost name v' → v = v'
  | none, none, _, _ => rfl
  | none, some _, h, ⟨before, hat, _⟩ => absurd hat (h before _)
  | some _, none, ⟨before, hat, _⟩, h => absurd hat (h before _)
  | some encoding, some encoding', ⟨before, hat, hleft⟩, ⟨before', hat', hleft'⟩ => by
    have hlen : before.length = before'.length := Nat.le_antisymm (hleft _ _ hat') (hleft' _ _ hat)
    obtain ⟨behind, hb⟩ := hat.2
    obtain ⟨behind', hb'⟩ := hat'.2
    obtain rfl := List.append_inj_left (hb.symm.trans hb') hlen
    rw [hat.unique hat']

theorem leftmost_iff {name : Str} {v : Option Str} : Leftmost name v ↔ detectCodepage name = v := by
  constructor
  · exact (leftmost_detectCodepage name).unique
  · rintro rfl
    exact leftmost_detectCodepage name

/-! ### Directories -/

theorem detectCodepage_append_slash (s t : Str) :
    detectCodepage (s ++ '/' :: t) = (detectCodepage s).or (detectCodepage t) := by
  have happ := Regex.search_append_sep avoids_slash s t
  cases hs : codepageRegex.search s with
  | none =>
    rw [hs, Option.none_or] at happ
    rw [detectCodepage_of_none hs, Option.none_or, detectCodepage, happ, detectCodepage]
  | some a =>
    obtain ⟨encoding, he, -⟩ := detectCodepage_of_search hs
    rw [hs, Option.some_or, ← hs] at happ
    rw [he, Option.some_or, ← he, detectCodepage, happ, detectCodepage]

theorem detectCodepage_nil : detectCodepage [] = none := rfl

/-- The directories end in a slash, unless there are none. -/
theorem directory_cases (path : Str) : directory path = [] ∨ ∃ dirs, directory path = dirs ++ ['/'] := by
  by_cases h0 : directory path = []
  · exact .inl h0
  · have hlast := List.rdropWhile_last_not (fun c : Char => decide (c ≠ '/')) path h0
    refine .inr ⟨(directory path).dropLast, ?_⟩
    have hslash : (directory path).getLast h0 = '/' :=
      Decidable.not_not.mp fun hne => hlast (decide_eq_true hne)
    rw [← hslash, List.dropLast_append_getLast]

/-- The directories are searched first, then the file name. -/
theorem detectCodepage_eq (path : Str) :
    detectCodepage path = (detectCodepage (directory path)).or (detectCodepage (FsPath.back path)) := by
  have happ : directory path ++ FsPath.back path = path := List.rdropWhile_append_rtakeWhile
  rcases directory_cases path with h0 | ⟨dirs, hd⟩
  · rw [h0, List.nil_append] at happ
    rw [h0, detectCodepage_nil, Option.none_or, happ]
  · have hdirs : detectCodepage (directory path) = detectCodepage dirs := by
      rw [hd, detectCodepage_append_slash, detectCodepage_nil, Option.or_none]
    have hpath : path = dirs ++ '/' :: FsPath.back path :=
      happ.symm.trans (by rw [hd, List.append_assoc, List.singleton_append])
    calc detectCodepage path = detectCodepage (dirs ++ '/' :: FsPath.back path) :=
          congrArg detectCodepage hpath
      _ = (detectCodepage dirs).or (detectCodepage (FsPath.back path)) := detectCodepage_append_slash _ _
      _ = (detectCodepage (directory path)).or (detectCodepage (FsPath.back path)) := by rw [hdirs]

theorem byName_iff (path : Str) : ByName path ↔ detectCodepage (FsPath.back path) = detectCodepage path := by
  simp only [ByName, leftmost_iff]
  rw [detectCodepage_eq path]
  cases detectCodepage (directory path) with
  | none => simp
  | some encoding =>
    constructor
    · intro h
      rw [h encoding rfl, Option.some_or]
    · intro h v hv
      rw [h, ← hv, Option.some_or]

/-- **When only the file name counts.** Two archives of one name, in any
directories, get the same encoding, and that of the name, exactly when in
either path no other codepage stands in front of it. -/
theorem encoding_by_name_iff {loc : Locale} (hunset : loc.forceEncoding = none) {path path' : Str}
    (hname : FsPath.back path = FsPath.back path') :
    ((loc.detected path).forceEncoding = (loc.detected path').forceEncoding ∧
      Leftmost (FsPath.back path) (loc.detected path).forceEncoding) ↔ ByName path ∧ ByName path' := by
  have hdet : ∀ p, (loc.detected p).forceEncoding = detectCodepage p := fun p => by
    rw [Locale.detected, hunset, Option.none_or]
  rw [hdet, hdet, leftmost_iff, byName_iff, byName_iff, ← hname]
  constructor
  · rintro ⟨hsame, hleft⟩
    exact ⟨hleft, hleft.trans hsame⟩
  · rintro ⟨hleft, hleft'⟩
    exact ⟨hleft.symm.trans hleft', hleft⟩

/-- `a.cp866.z` in two directories. -/
theorem encoding_by_name_cp866 :
    (Locale.ascii.detected ['d', '/', 'a', '.', 'c', 'p', '8', '6', '6', '.', 'z']).forceEncoding =
        (Locale.ascii.detected ['a', '.', 'c', 'p', '8', '6', '6', '.', 'z']).forceEncoding ∧
      Leftmost (FsPath.back ['d', '/', 'a', '.', 'c', 'p', '8', '6', '6', '.', 'z'])
        (Locale.ascii.detected ['d', '/', 'a', '.', 'c', 'p', '8', '6', '6', '.', 'z']).forceEncoding :=
  (encoding_by_name_iff rfl (by decide)).mpr ⟨(byName_iff _).mpr (by decide), (byName_iff _).mpr (by decide)⟩

/-- `a.z` in a directory `x.cp1251.d`. -/
theorem directory_names_encoding :
    FsPath.back ['x', '.', 'c', 'p', '1', '2', '5', '1', '.', 'd', '/', 'a', '.', 'z'] =
      FsPath.back ['a', '.', 'z'] ∧
    (Locale.ascii.detected ['x', '.', 'c', 'p', '1', '2', '5', '1', '.', 'd', '/', 'a', '.', 'z']).forceEncoding =
      some ['c', 'p', '1', '2', '5', '1'] ∧
    (Locale.ascii.detected ['a', '.', 'z']).forceEncoding = none ∧ Leftmost ['a', '.', 'z'] none :=
  ⟨by decide, by decide, by decide, leftmost_iff.mpr (by decide)⟩

end Fuse3P7zip
