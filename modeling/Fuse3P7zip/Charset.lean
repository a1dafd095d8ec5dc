/-
# Forced encodings

With `FUSE3_P7ZIP_FORCE_ENCODING` the program takes a path for a text in that
encoding: the low bytes of its characters, up to the first that is 0. For an
encoding with one byte to a character the mount is that of another archive
without the variable, whose paths are the texts that the encoding's table
gives for these bytes (`forced_mount_eq`): nothing but the paths is any
different, and what the table does not have is as bad as a surrogate.
-/
import Fuse3P7zip.Unicode

namespace Fuse3P7zip

open Fuse
open Utf8 (encode scalars)

/-- The characters of an encoding, one for a byte. A NUL stands for itself only,
and there is no byte order mark. -/
structure Charset where
  char : Char → Option Char
  nul : ∀ b c, char b = some c → b ≠ '\x00' → c ≠ '\x00'
  mark : ∀ b c, char b = some c → c.val ≠ 0xFEFF

/-- The descriptor from such an encoding to UTF-8. -/
structure Iconv.Decodes (cd : Iconv Char Char) (cs : Charset) : Prop where
  fresh : cd.Fresh
  convert : ∀ s, (cd.convert cd.initial s).map Prod.fst = (s.mapM cs.char).map encode

namespace Charset

variable (cs : Charset)

/-- The code point for a byte, and a surrogate where there is none. -/
def point (b : Char) : UInt32 :=
  match cs.char b with
  | some c => c.val
  | none => 0xD800

/-- The wide text that a path stands for. -/
def wide (w : WStr) : WStr := (lowBytes w).map cs.point

theorem scalar_point (b : Char) : Utf8.scalar? (cs.point b) = cs.char b := by
  unfold point
  cases cs.char b with
  | some c => exact Utf8.scalar?_eq_some_iff.mpr rfl
  | none => rfl

theorem scalars_points (s : Str) : scalars (s.map cs.point) = s.mapM cs.char := by
  unfold scalars
  rw [List.mapM_map]
  exact congrArg (fun f => s.mapM f) (funext cs.scalar_point)

theorem point_ne_zero {b : Char} (hb : b ≠ '\x00') : cs.point b ≠ 0 := by
  unfold point
  cases hc : cs.char b with
  | none => decide
  | some c =>
    intro h
    exact cs.nul b c hc hb (Char.ext h)

theorem point_ne_mark (b : Char) : cs.point b ≠ 0xFEFF ∧ cs.point b ≠ 0xFFFE0000 := by
  unfold point
  cases hc : cs.char b with
  | none => decide
  | some c =>
    refine ⟨cs.mark b c hc, fun h => ?_⟩
    have hvalid : UInt32.isValidChar 0xFFFE0000 := h ▸ c.valid
    revert hvalid
    decide

theorem noMark_wide (w : WStr) : NoMark (cs.wide w) := by
  unfold NoMark wide
  rw [List.head?_map]
  cases (lowBytes w).head? with
  | none => exact ⟨(Option.some_ne_none _).symm, (Option.some_ne_none _).symm⟩
  | some b =>
    obtain ⟨hbom, hswapped⟩ := cs.point_ne_mark b
    exact ⟨fun h => hbom (Option.some.inj h), fun h => hswapped (Option.some.inj h)⟩

/-- There is no NUL in it, so it is the whole text. -/
theorem unicode_wide (w : WStr) : unicode (cs.wide w) = (lowBytes w).mapM cs.char := by
  have hall : (cs.wide w).takeWhile (· ≠ 0) = cs.wide w := by
    refine List.takeWhile_eq_self_iff.mpr fun v hv => ?_
    obtain ⟨b, hb, rfl⟩ := List.mem_map.mp hv
    exact decide_eq_true (cs.point_ne_zero fun h => nul_not_mem_cStr _ (h ▸ hb))
  unfold unicode
  rw [hall]
  exact cs.scalars_points (lowBytes w)

end Charset

theorem length_of_mapM {α β : Type} {f : α → Option β} {s : List α} {t : List β} (h : s.mapM f = some t) :
    t.length = s.length := (forall₂_of_mapM h).length_eq.symm

theorem nul_not_mem_of_mapM (cs : Charset) {s t : Str} (h : s.mapM cs.char = some t) (hs : '\x00' ∉ s) : '\x00' ∉ t := by
  intro hm
  obtain ⟨i, hi, hc⟩ := List.mem_iff_getElem.mp hm
  have hall := forall₂_of_mapM h
  have hi' : i < s.length := by rwa [hall.length_eq]
  have hchar : cs.char s[i] = some '\x00' := hc ▸ hall.get hi' hi
  exact cs.nul _ _ hchar (fun he => hs (he ▸ List.getElem_mem hi')) rfl

section forced

variable {loc : Locale} {cd : Iconv UInt32 Char} (hcd : loc.utf32 = some cd) (hutf : cd.Utf32)
  {encoding : Str} {fd : Iconv Char Char} (hfd : loc.encoding encoding = some fd) {cs : Charset} (hdec : fd.Decodes cs)

include hfd hdec

theorem utf8raw_eq (w : WStr) : utf8raw loc w encoding = converted ((lowBytes w).mapM cs.char) := by
  unfold utf8raw utf8From withDescriptor
  rw [hfd]
  simp only [resetAndConvert_of_fresh hdec.fresh]
  refine converted_eq (hdec.convert (lowBytes w)) (fun s hs => ?_) fun s hs =>
    nul_not_mem_of_mapM cs hs (nul_not_mem_cStr _)
  have hlen := length_of_mapM hs
  show s.length * 4 ≤ (lowBytes w).length * 6
  omega

end forced

def Charset.variant (cs : Charset) : PropVariant → PropVariant
  | .bstr (some w) => .bstr (some (cs.wide w))
  | v => v

/-- The item with its path as the encoding's table has it. -/
def ItemProps.transcoded (cs : Charset) (item : ItemProps) : ItemProps :=
  { item with kpidPath := (item.kpidPath.1, cs.variant item.kpidPath.2) }

def ImplArchive.transcoded (cs : Charset) (arc : ImplArchive) : ImplArchive :=
  { arc with
    items := arc.items.map (ItemProps.transcoded cs)
    size_lt := by
      rw [List.length_map]
      exact arc.size_lt }

/-- The environment without the variable. -/
def Locale.unforced (loc : Locale) : Locale := { loc with forceEncoding := none }

/-- A property that is no string is empty, or cannot be read as one. -/
theorem bstrVal_cases (cs : Charset) (v : PropVariant) : (∃ w, v = .bstr (some w)) ∨ (cs.variant v = v ∧
    (ItemProps.bstrVal v = .ok none ∨ ItemProps.bstrVal v = .error (.ub .badBstr))) := by
  have hif : ∀ (p : Prop) [Decidable p], (if p then .ok none else .error (.ub .badBstr) : Except Escape (Option WStr)) =
      .ok none ∨ (if p then .ok none else .error (.ub .badBstr) : Except Escape (Option WStr)) = .error (.ub .badBstr) :=
    fun p _ => (em p).imp (fun h => if_pos h) fun h => if_neg h
  cases v with
  | bstr s =>
    cases s with
    | none => exact .inr ⟨rfl, .inl rfl⟩
    | some w => exact .inl ⟨w, rfl⟩
  | empty => exact .inr ⟨rfl, .inl rfl⟩
  | _ => exact .inr ⟨rfl, hif _⟩

section mount

variable {loc : Locale} {cd : Iconv UInt32 Char} (hcd : loc.utf32 = some cd) (hutf : cd.Utf32)
  {encoding : Str} (hforce : loc.forceEncoding = some encoding)
  {fd : Iconv Char Char} (hfd : loc.encoding encoding = some fd) {cs : Charset} (hdec : fd.Decodes cs)

include hcd hutf hforce hfd hdec

theorem path_transcoded (item : ItemProps) : item.path loc = (item.transcoded cs).path loc.unforced := by
  unfold ItemProps.path ItemProps.transcoded
  generalize item.kpidPath = prop
  obtain ⟨res, v⟩ := prop
  rcases bstrVal_cases cs v with ⟨w, rfl⟩ | ⟨hsame, hv⟩
  · have hcd' : loc.unforced.utf32 = some cd := hcd
    rw [hforce]
    show (if res = sOk then utf8raw loc w encoding else .ok []) =
      if res = sOk then utf8 loc.unforced (cs.wide w) else .ok []
    rw [utf8raw_eq hfd hdec, utf8_eq hcd' hutf (cs.noMark_wide w), cs.unicode_wide]
  · rw [hsame]
    rcases hv with hv | hv
    · simp only [hv]
      rfl
    · simp only [hv]
      rfl

theorem decode_transcoded (arc : ImplArchive) (item : ItemProps) :
    decode loc arc item = decode loc.unforced (arc.transcoded cs) (item.transcoded cs) := by
  unfold decode
  rw [path_transcoded hcd hutf hforce hfd hdec]
  rfl

theorem executeFrom_transcoded (arc : ImplArchive) : ∀ (i : ℕ) (items : List ItemProps) (tree : FileTree),
    executeFrom loc arc i items tree =
      executeFrom loc.unforced (arc.transcoded cs) i (items.map (ItemProps.transcoded cs)) tree
  | _, [], _ => rfl
  | i, item :: items, tree => by
    rw [List.map_cons, executeFrom, executeFrom, decode_transcoded hcd hutf hforce hfd hdec]
    refine congrArg (Bind.bind _) (funext fun it => ?_)
    exact executeFrom_transcoded arc (i + 1) items _

/-- **A mount in a forced encoding is a plain mount of another archive**, whose
paths are the texts of the encoding: the same tree, or the same exception. -/
theorem forced_mount_eq (arc : ImplArchive) (allowOther : Bool) :
    execute loc arc allowOther = execute loc.unforced (arc.transcoded cs) allowOther :=
  executeFrom_transcoded hcd hutf hforce hfd hdec arc 0 arc.items _

end mount

/-- ASCII, and the capital letters of `cp866`. -/
def Charset.cp866 : Charset where
  char b := if b.val < 128 then some b else if b.val < 0xA0 then some (Char.ofNat (b.toNat + 0x390)) else none
  nul b c h hb := by
    split_ifs at h with hlow hhigh
    · cases h
      exact hb
    · intro he
      have hlt : b.toNat < 0xA0 := hhigh
      have hval : (Char.ofNat (b.toNat + 0x390)).toNat = 0 := congrArg Char.toNat ((Option.some.inj h).trans he)
      rw [Utf8.toNat_ofNat (by omega)] at hval
      omega
  mark b c h := by
    split_ifs at h with hlow hhigh
    · cases h
      intro he
      rw [he] at hlow
      exact absurd hlow (by decide)
    · intro he
      have hlt : b.toNat < 0xA0 := hhigh
      have hval : (Char.ofNat (b.toNat + 0x390)).toNat = 0xFEFF :=
        congrArg UInt32.toNat ((congrArg Char.val (Option.some.inj h)).trans he)
      rw [Utf8.toNat_ofNat (by omega)] at hval
      omega

/-- A descriptor from it to UTF-8. -/
def Iconv.cp866 : Iconv Char Char :=
  ⟨Unit, (), fun s input => (input.mapM Charset.cp866.char).map fun t => (encode t, s), fun s => ([], s)⟩

theorem Iconv.decodes_cp866 : Iconv.cp866.Decodes .cp866 := by
  refine ⟨rfl, fun s => ?_⟩
  rw [Iconv.cp866, Option.map_map]
  rfl

/-- The environment behind a name with `cp866` in it. -/
def Locale.forced866 : Locale :=
  { Locale.utf32Only with forceEncoding := some ['c', 'p', '8', '6', '6'], encoding := fun _ => some .cp866 }

/-- A file named by the byte of the letter A. -/
theorem forced_mount_eq_cp866 : execute .forced866 (.single (.file [0x80] (sOk, .empty))) false =
    execute Locale.forced866.unforced (.single (.file [0x410] (sOk, .empty))) false :=
  forced_mount_eq rfl Iconv.utf32_utf32 rfl rfl Iconv.decodes_cp866
    (.single (.file [0x80] (sOk, .empty))) false

end Fuse3P7zip
