/-
# Declared and decoded sizes

The size of a file comes twice: from its properties, when the archive is
mounted, and from its decoder, when it is opened. The mount shows the first
(`stSize_eq`), the limit looks at the first, and the handle holds the
second. `readable_iff` says when a reader that goes by the size sees all of
the file, `guarded_iff` when the limit holds for what is extracted.
-/
import Mathlib.Data.List.Forall2
import Fuse3P7zip.Opening

namespace Fuse3P7zip
namespace Fuse

open Extractor
open FsPath (absolute)

/-! ### Entries and items -/

/-- In the mount of the archive, `path` has the entry `el`, which is that of
the item `item`. -/
structure ShownAt (loc : Locale) (arc : ImplArchive) (allowOther : Bool) (m : Mount) (path : Str)
    (el : CiIterator × Stat) (item : ItemProps) : Prop where
  mounted : execute loc arc allowOther = .ok m.tree
  found : m.tree.find? ⟨path⟩ = some el
  seq : el.1.seq = true
  item : arc.items[el.1.index.toNat]? = some item

theorem toNat_ofNat_index {n : ℕ} (h : n < 2 ^ 32) : (UInt32.ofNat n).toNat = n := by
  rw [UInt32.toNat_ofNat']
  exact Nat.mod_eq_of_lt h

/-- An entry of the mount is that of an item, with the item's index and its
stat, or a directory without an archive. -/
theorem entry_cases {loc : Locale} {arc : ImplArchive} {allowOther : Bool} {tree : FileTree}
    (h : execute loc arc allowOther = .ok tree) {k : FsPath} {el : CiIterator × Stat}
    (hf : tree.find? k = some el) :
    (∃ i it item, arc.items[i]? = some item ∧ decode loc arc item = .ok it ∧
      el = (.item i, fileStat arc.stat it) ∧ (UInt32.ofNat i).toNat = i) ∨
    (el.1 = .ending ∧ el.2.isDir) := by
  obtain ⟨its, hits, rfl⟩ := execute_ok h
  have spec := treeSpec_treeOf arc.stat arc.proposed allowOther its
  obtain ⟨a, ha, -⟩ := (spec.keys k.elements).mp (by rw [StdMap.find?] at hf; rw [hf]; simp)
  rw [StdMap.find?, ha] at hf
  rcases spec.cases hf with ⟨i, it, hi, -, -, rfl⟩ | ⟨-, i, it, -, -, -, rfl⟩ | ⟨-, -, rfl⟩
  · obtain ⟨hlt, hget⟩ := List.getElem?_eq_some_iff.mp hi
    have hlt' : i < arc.items.length := by rwa [hits.length_eq]
    have hdec := hits.get hlt' hlt
    refine Or.inl ⟨i, it, arc.items[i], List.getElem?_eq_getElem hlt', ?_, rfl,
      toNat_ofNat_index (hlt'.trans arc.size_lt)⟩
    rwa [List.get_eq_getElem, List.get_eq_getElem, hget] at hdec
  · exact Or.inr ⟨rfl, isDir_dirStat _ it⟩
  · exact Or.inr ⟨rfl, isDir_rootStat _ _⟩

/-- The stat of an item's entry is made from what its accessors give. -/
theorem ShownAt.stat_eq {loc : Locale} {arc : ImplArchive} {allowOther : Bool} {m : Mount}
    {path : Str} {el : CiIterator × Stat} {item : ItemProps}
    (h : ShownAt loc arc allowOther m path el item) :
    ∃ it, decode loc arc item = .ok it ∧ el.2 = fileStat arc.stat it := by
  rcases entry_cases h.mounted h.found with ⟨i, it, item', hi, hdec, rfl, hidx⟩ | ⟨hend, -⟩
  · have hit := h.item
    rw [show (CiIterator.item i).index.toNat = i from hidx, hi] at hit
    cases hit
    exact ⟨it, hdec, rfl⟩
  · have hseq := h.seq
    rw [hend] at hseq
    cases hseq

/-- The size that is shown is the declared one. -/
theorem ShownAt.stSize_eq {loc : Locale} {arc : ImplArchive} {allowOther : Bool} {m : Mount}
    {path : Str} {el : CiIterator × Stat} {item : ItemProps}
    (h : ShownAt loc arc allowOther m path el item) : el.2.stSize = item.size.toInt64 := by
  obtain ⟨it, hdec, hst⟩ := h.stat_eq
  have hsize : it.size = item.size := (decode_ok hdec).2.1
  rw [hst, ← hsize]
  rfl

/-- The one file `a` of an archive. -/
theorem shownAt_single (kpidSize : PropResult) :
    ShownAt .ascii (.single (.file [97] kpidSize)) false
      (Mount.single (.file ['a'] (ItemProps.file [97] kpidSize).size)) ['/', 'a']
      (.item 0, fileStat zeroStat (.file ['a'] (ItemProps.file [97] kpidSize).size))
      (.file [97] kpidSize) where
  mounted := by
    have hdec : decode .ascii (.single (.file [97] kpidSize)) (.file [97] kpidSize) =
        .ok (.file ['a'] (ItemProps.file [97] kpidSize).size) := rfl
    have hprop : (ImplArchive.single (.file [97] kpidSize)).proposed = ['x'] := rfl
    have hitems : (ImplArchive.single (.file [97] kpidSize)).items = [.file [97] kpidSize] := rfl
    have hstat : (ImplArchive.single (.file [97] kpidSize)).stat = zeroStat := rfl
    rw [execute, hitems, executeFrom, hdec, hprop, hstat, Mount.single, Mount.fresh_tree, treeOf,
      addItems, addItems]
    exact rfl
  found := find_single _
  seq := rfl
  item := rfl

/-- A successful open: the handle is the stream that `Extract` left, rewound. -/
theorem cbOpen_handle {env : Env} {m m' : Mount} {path : Str} {fi fi' : FuseFileInfo}
    (h : cbOpen env m path fi = .ok (0, fi', m')) :
    ∃ el tr hr s file, m.tree.find? ⟨path⟩ = some el ∧ ¬ overLimit env el.2 ∧ el.1.seq = true ∧
      Extracts env m.clock el.1.index tr hr s ∧ ¬ failed hr ∧ s.file = some file ∧
      m'.handles.find? fi'.fh = some (file.fileSeek 0 0 (env.libc s.clock)).2 ∧
      fi'.directIo = fi.directIo := by
  obtain ⟨el, f, c, hel, hlim, hseq, hx, rfl, rfl⟩ := cbOpen_eq_zero h
  obtain ⟨tr, hr, s, file, hext, hnf, hs, rfl, -⟩ := execute_eq_ok.mp hx
  refine ⟨el, tr, hr, s, file, hel, hlim, hseq, hext, hnf, hs, ?_, rfl⟩
  rw [find_insert, if_pos rfl]

/-! ### Reading by the size -/

theorem toInt_toInt64 (v : UInt64) :
    v.toInt64.toInt = if v.toNat < 2 ^ 63 then (v.toNat : ℤ) else (v.toNat : ℤ) - 2 ^ 64 := by
  have h : v.toInt64.toInt = v.toBitVec.toInt := rfl
  have hn : v.toBitVec.toNat = v.toNat := rfl
  rw [h, BitVec.toInt_eq_toNat_cond, hn]
  split_ifs with h1 h2 h2
  · rfl
  · omega
  · omega
  · rfl

/-- The handler gives no size, or the right one in an unsigned integer type. -/
def Truthful (kpidSize : PropResult) (length : ℕ) : Prop :=
  kpidSize.1 = sOk → kpidSize.2 = .empty ∨ kpidSize.2.unsigned? = some length

/-- `size()` is the value of a `VT_UI8`, and 0 for everything else. -/
theorem size_of_ui8 {item : ItemProps} {v : UInt64} (h : item.kpidSize = (sOk, .ui8 v)) :
    item.size = v := by
  rw [ItemProps.size, h]
  exact if_pos rfl

theorem size_of_not_ui8 {item : ItemProps} (h : ¬ ∃ v, item.kpidSize = (sOk, .ui8 v)) :
    item.size = 0 := by
  unfold ItemProps.size
  split
  · rename_i res v heq
    split_ifs with hres
    · exact absurd ⟨v, by rw [heq, hres]⟩ h
    · rfl
  · rfl

/-- **When a reader sees all of an opened file.** Only when the file is empty,
or its handler gives the size in 64 bits and it is below 2^63: other types
count as no size, and no open turns reading by the size off. -/
theorem readable_iff {loc : Locale} {arc : ImplArchive} {allowOther : Bool} {env : Env}
    {m m' : Mount} {path : Str} {el : CiIterator × Stat} {item : ItemProps} {fi' : FuseFileInfo}
    (hat : ShownAt loc arc allowOther m path el item)
    (hopen : cbOpen env m path {} = .ok (0, fi', m')) :
    ∃ file, m'.handles.find? fi'.fh = some file ∧
      (Truthful item.kpidSize file.file.content.length →
        ((cbGetattr m.tree path).2.stSize.toInt = file.file.content.length ∨ fi'.directIo = true ↔
          file.file.content.length = 0 ∨
            ((∃ v, item.kpidSize = (sOk, .ui8 v)) ∧ file.file.content.length < 2 ^ 63))) := by
  obtain ⟨-, -, -, s, left, -, -, -, -, -, -, hfile, hdirect⟩ := cbOpen_handle hopen
  set file := (left.fileSeek 0 0 (env.libc s.clock)).2
  refine ⟨file, hfile, fun hsize => ?_⟩
  have hst : (cbGetattr m.tree path).2.stSize = item.size.toInt64 := by
    rw [cbGetattr_of_find path hat.found, hat.stSize_eq]
  rw [hst, hdirect, toInt_toInt64]
  by_cases hv : ∃ v, item.kpidSize = (sOk, .ui8 v)
  · obtain ⟨v, hv⟩ := hv
    have hlen : v.toNat = file.file.content.length := by
      have := hsize (by rw [hv])
      rw [hv] at this
      simpa [PropVariant.unsigned?] using this
    have hlt := v.toNat_lt
    rw [size_of_ui8 hv, hlen]
    constructor
    · rintro (h | h)
      · split_ifs at h with hs
        · exact Or.inr ⟨⟨v, hv⟩, hs⟩
        · omega
      · cases h
    · rintro (h | ⟨-, h⟩)
      · exact Or.inl (by rw [if_pos (by omega)])
      · exact Or.inl (by rw [if_pos h])
  · rw [size_of_not_ui8 hv, UInt64.toNat_zero, if_pos (by decide)]
    constructor
    · rintro (h | h)
      · exact Or.inl (by omega)
      · cases h
    · rintro (h | ⟨h, -⟩)
      · exact Or.inl (by omega)
      · exact absurd h hv

/-- A file of three bytes whose size is given in 64 bits. -/
theorem readable_ui8 : ∃ fi' m' file,
    cbOpen (Env.plain (writing 0 [1, 2, 3] kOK)) (Mount.single (.file ['a'] 3)) ['/', 'a'] {} =
      .ok (0, fi', m') ∧ m'.handles.find? fi'.fh = some file ∧ file.file.content.length = 3 ∧
    ((cbGetattr (Mount.single (.file ['a'] 3)).tree ['/', 'a']).2.stSize.toInt =
      file.file.content.length ∨ fi'.directIo = true) := by
  have hat := shownAt_single (sOk, .ui8 3)
  have hopen := cbOpen_of_extract {} hat.found
    (by decide +kernel : ¬ overLimit (Env.plain (writing 0 [1, 2, 3] kOK)) _) rfl
  obtain ⟨file, hfile, h⟩ := readable_iff hat hopen
  have hc : file.file.content.length = 3 := by
    cases hfile
    rfl
  refine ⟨_, _, file, hopen, hfile, hc, ?_⟩
  rw [hc] at h ⊢
  exact (h fun _ => Or.inr rfl).mpr (Or.inr ⟨⟨3, rfl⟩, by decide⟩)

/-- A file of three bytes whose size is given in 32 bits looks empty. -/
theorem ui4_looks_empty : ∃ fi' m' file,
    ShownAt .ascii (.single (.file [97] (sOk, .ui4 3))) false (Mount.single (.file ['a'] 0))
      ['/', 'a'] (.item 0, fileStat zeroStat (.file ['a'] 0)) (.file [97] (sOk, .ui4 3)) ∧
    cbOpen (Env.plain (writing 0 [1, 2, 3] kOK)) (Mount.single (.file ['a'] 0)) ['/', 'a'] {} =
      .ok (0, fi', m') ∧ m'.handles.find? fi'.fh = some file ∧ file.file.content.length = 3 ∧
    Truthful (sOk, .ui4 3) 3 ∧
    ¬ ((cbGetattr (Mount.single (.file ['a'] 0)).tree ['/', 'a']).2.stSize.toInt = 3 ∨
      fi'.directIo = true) := by
  have hat := shownAt_single (sOk, .ui4 3)
  have hopen := cbOpen_of_extract {} hat.found
    (by decide +kernel : ¬ overLimit (Env.plain (writing 0 [1, 2, 3] kOK)) _) rfl
  refine ⟨_, _, _, hat, hopen, rfl, rfl, fun _ => Or.inr rfl, ?_⟩
  rw [cbGetattr_of_find _ (find_single 0)]
  decide

/-! ### The limit -/

section limit

variable {loc : Locale} {arc : ImplArchive} {allowOther : Bool} {env : Env} {m : Mount} {path : Str}
  {el : CiIterator × Stat} {item : ItemProps} {limit : Int64}

/-- The limit looks at the declared size. -/
theorem overLimit_iff (hat : ShownAt loc arc allowOther m path el item)
    (hlimit : env.maxOpenSize = some (decimal limit)) :
    overLimit env el.2 ↔ limit < item.size.toInt64 := by
  unfold overLimit
  rw [hlimit, hat.stSize_eq]
  simp only [Option.mem_some_iff, exists_eq_left', strtoll_decimal]

/-- Over the limit, nothing is extracted. -/
theorem refused_of_overLimit (hat : ShownAt loc arc allowOther m path el item)
    (hover : overLimit env el.2) :
    cbOpen env m path {} = .ok (-e2big, {}, m) ∧
      ∀ fi' m', cbOpen env m path {} ≠ .ok (0, fi', m') := by
  have hopen := cbOpen_of_overLimit {} hat.found hover
  refine ⟨hopen, fun fi' m' h => ?_⟩
  obtain ⟨el', -, -, hel', hlim, -⟩ := cbOpen_eq_zero h
  rw [hat.found] at hel'
  cases hel'
  exact hlim hover

/-- Within the limit, the handle is the stream that the decoder left, rewound. -/
theorem opened_of_not_overLimit (hat : ShownAt loc arc allowOther m path el item)
    (hover : ¬ overLimit env el.2) {tr : List (Call × Reply)} {hr : HRESULT} {s : Extractor}
    {file : FileWriteStream} (hext : Extracts env m.clock el.1.index tr hr s) (hhr : ¬ failed hr)
    (hs : s.file = some file) :
    cbOpen env m path {} ≠ .ok (-e2big, {}, m) ∧
    ∃ fi' m', cbOpen env m path {} = .ok (0, fi', m') ∧
      m'.handles.find? fi'.fh = some (file.fileSeek 0 0 (env.libc s.clock)).2 := by
  have hopen := cbOpen_of_extracts {} hat.found hover hat.seq hext hhr hs
  constructor
  · intro h
    have hret : 0 = -e2big := congrArg Prod.fst (Except.ok.inj (hopen.symm.trans h))
    exact absurd hret (by decide)
  · exact ⟨_, _, hopen, by rw [find_insert, if_pos rfl]⟩

/-- **When the limit holds for what is extracted.** For an entry whose
extraction gives a stream: what is longer than the limit is refused, exactly
when the content is within the limit or the declared size, as a signed number,
is above it. Then no handle holds more than the limit either; and only then,
if the seek at the end of `execute`, which flushes the stream, does not lose a
part of the content. -/
theorem guarded_iff {tr : List (Call × Reply)} {hr : HRESULT} {s : Extractor}
    {file : FileWriteStream} (hat : ShownAt loc arc allowOther m path el item)
    (hlimit : env.maxOpenSize = some (decimal limit))
    (hext : Extracts env m.clock el.1.index tr hr s) (hhr : ¬ failed hr) (hs : s.file = some file) :
    ((limit.toInt < file.file.content.length → cbOpen env m path {} = .ok (-e2big, {}, m)) ↔
      (file.file.content.length ≤ limit.toInt ∨ limit < item.size.toInt64)) ∧
    ((file.file.content.length ≤ limit.toInt ∨ limit < item.size.toInt64) →
      ∀ fi' m' f, cbOpen env m path {} = .ok (0, fi', m') → m'.handles.find? fi'.fh = some f →
        f.file.content.length ≤ limit.toInt) ∧
    (¬ file.file.Drops (env.libc s.clock) →
      (∀ fi' m' f, cbOpen env m path {} = .ok (0, fi', m') → m'.handles.find? fi'.fh = some f →
        f.file.content.length ≤ limit.toInt) →
      file.file.content.length ≤ limit.toInt ∨ limit < item.size.toInt64) := by
  rw [← overLimit_iff hat hlimit]
  by_cases hover : overLimit env el.2
  · obtain ⟨hopen, hno⟩ := refused_of_overLimit hat hover
    exact ⟨iff_of_true (fun _ => hopen) (Or.inr hover), fun _ fi' m' f h => absurd h (hno fi' m'),
      fun _ _ => Or.inr hover⟩
  · obtain ⟨hno, fi', m', hopen, hf⟩ := opened_of_not_overLimit hat hover hext hhr hs
    simp only [hover, or_false]
    refine ⟨⟨fun h => ?_, fun h hgt => absurd h (by omega)⟩, fun h fi'' m'' f' hopen' hf' => ?_, fun hkept h => ?_⟩
    · by_contra hgt
      exact hno (h (by omega))
    · -- an open gives one result
      rw [hopen] at hopen'
      cases hopen'
      rw [hf] at hf'
      cases hf'
      have hle : (file.fileSeek 0 0 (env.libc s.clock)).2.file.content.length ≤ file.file.content.length :=
        Stdio.File.length_content_fseek_le _ _ _ _
      omega
    · have hle := h fi' m' _ hopen hf
      have hc : (file.fileSeek 0 0 (env.libc s.clock)).2.file.content = file.file.content :=
        Stdio.File.content_fseek _ _ hkept
      rwa [hc] at hle

end limit

/-- Three bytes, declared in 64 bits, under a limit of two. -/
theorem guarded_ui8 :
    cbOpen { Env.plain (writing 0 [1, 2, 3] kOK) with maxOpenSize := some ['2'] }
        (Mount.single (.file ['a'] 3)) ['/', 'a'] {} =
        .ok (-e2big, {}, Mount.single (.file ['a'] 3)) ∧
      ∀ fi' m' f, cbOpen { Env.plain (writing 0 [1, 2, 3] kOK) with maxOpenSize := some ['2'] }
        (Mount.single (.file ['a'] 3)) ['/', 'a'] {} = .ok (0, fi', m') → m'.handles.find? fi'.fh = some f →
        f.file.content.length ≤ (2 : Int64).toInt := by
  have hlimit : ({ Env.plain (writing 0 [1, 2, 3] kOK) with maxOpenSize := some ['2'] } : Env).maxOpenSize =
      some (decimal 2) := by decide
  have h := guarded_iff (shownAt_single (sOk, .ui8 3)) hlimit
    ⟨rfl, .call rfl (.call rfl (.call rfl (.here _ _)))⟩ (by decide) rfl
  exact ⟨h.1.mpr (Or.inr (by decide)) (by decide), h.2.1 (Or.inr (by decide))⟩

/-- Three bytes without a declared size are extracted under a limit of two. -/
theorem undeclared_over_limit : ∃ fi' m' file,
    ShownAt .ascii (.single (.file [97] (sOk, .empty))) false (Mount.single (.file ['a'] 0))
      ['/', 'a'] (.item 0, fileStat zeroStat (.file ['a'] 0)) (.file [97] (sOk, .empty)) ∧
    decimal 2 = ['2'] ∧
    cbOpen { Env.plain (writing 0 [1, 2, 3] kOK) with maxOpenSize := some ['2'] }
      (Mount.single (.file ['a'] 0)) ['/', 'a'] {} = .ok (0, fi', m') ∧
    m'.handles.find? fi'.fh = some file ∧ file.file.content.length = 3 := by
  have hat := shownAt_single (sOk, .empty)
  have hopen := cbOpen_of_extract {} hat.found
    (by decide +kernel : ¬ overLimit
      { Env.plain (writing 0 [1, 2, 3] kOK) with maxOpenSize := some ['2'] } _) rfl
  exact ⟨_, _, _, hat, by decide, hopen, rfl, rfl⟩

end Fuse
end Fuse3P7zip
