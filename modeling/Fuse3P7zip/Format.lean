/-
# The formats of the library

`Library.cpp` and `Format.cpp`. A format is known by the properties its
handler gives; its constructor cuts the extensions at the blanks.
`FUSE3_P7ZIP_FORMATS` reorders the list: each of its items takes the first
format of its name out, to the front before a `*` and to the end after it.

Key theorems: `fillFormats_spec` (no format is lost or doubled, and the
order is the one asked for), `proposedName_ok_iff` (when `proposed_name`
stays inside the additional extensions).
-/
import Mathlib.Data.List.Forall2
import Fuse3P7zip.Archive
import Fuse3P7zip.Lib.Picks

namespace Fuse3P7zip

/-- `NHandlerPropID`, what a format is asked for. -/
inductive HandlerPropId where
  | kName
  | kExtension
  | kAddExtension
  deriving DecidableEq, Repr

/-- What the library says about its formats: their number, and their
properties through `GetHandlerProperty2`, or `GetHandlerProperty` where it
has no such function. -/
structure ImplLib where
  getNumberOfFormats : HRESULT × UInt32
  getHandlerProperty2 : Option (UInt32 → HandlerPropId → PropResult)
  getHandlerProperty : HandlerPropId → PropResult

namespace ImplLib

/-- `get_prop` of a variant. -/
def getProp (lib : ImplLib) (index : UInt32) (propId : HandlerPropId) : PropResult :=
  match lib.getHandlerProperty2 with
  | some getHandlerProperty2 => getHandlerProperty2 index propId
  | none => lib.getHandlerProperty propId

/-- `get_prop` of a string: the code, and the value, which stays as it was
unless there is one. -/
def getPropString (lib : ImplLib) (loc : Locale) (index : UInt32) (propId : HandlerPropId)
    (value : Str) : Except Escape (HRESULT × Str) :=
  noexcept do
    let (res, prop) := lib.getProp index propId
    if res = sOk then
      match ← ItemProps.bstrVal prop with
      | some s => return (res, ← utf8 loc s)
      | none => return (res, value)
    else return (res, value)

end ImplLib

/-- `ImplFormat`: its index, and its extensions. -/
structure ImplFormat where
  idx : UInt32
  extDef : List Str
  extAdd : List Str
  deriving DecidableEq

namespace ImplFormat

/-- The constructor. -/
def new (lib : ImplLib) (loc : Locale) (idx : UInt32) : Except Escape ImplFormat := do
  let (_, result) ← lib.getPropString loc idx .kExtension []
  let extDef := split [' '] (by decide) result
  let (_, result) ← lib.getPropString loc idx .kAddExtension []
  return ⟨idx, extDef, split [' '] (by decide) result⟩

def name (lib : ImplLib) (loc : Locale) (this : ImplFormat) : Except Escape Str :=
  noexcept do
    let (res, result) ← lib.getPropString loc this.idx .kName []
    let _ ← checkCom res "get_prop"
    return result

end ImplFormat

namespace ImplLib

/-- `std::find_if` by the name: the formats before the one that is found, it,
and those behind it. -/
def findIf (lib : ImplLib) (loc : Locale) (it : Str) : List ImplFormat →
    Except Escape (Option (List ImplFormat × ImplFormat × List ImplFormat))
  | [] => .ok none
  | f :: fs => do
    if (← f.name lib loc) = it then return some ([], f, fs)
    else
      match ← findIf lib loc it fs with
      | some (before, g, behind) => return some (f :: before, g, behind)
      | none => return none

/-- The variables of the reordering loop; `current` is `&tail` after a `*`. -/
structure Reordering where
  formats : List ImplFormat
  head : List ImplFormat
  tail : List ImplFormat
  currentIsTail : Bool

/-- The body of the loop over the items. -/
def reorder (lib : ImplLib) (loc : Locale) (st : Reordering) (it : Str) : Except Escape Reordering :=
  if it = ['*'] then .ok { st with currentIsTail := true }
  else do
    match ← lib.findIf loc it st.formats with
    | none => return st
    | some (before, f, behind) =>
      if st.currentIsTail then
        return { st with formats := before ++ behind, tail := st.tail ++ [f] }
      else return { st with formats := before ++ behind, head := st.head ++ [f] }

/-- The formats in the library's order. -/
def libraryFormats (lib : ImplLib) (loc : Locale) : Except Escape (List ImplFormat) := do
  let _ ← checkCom lib.getNumberOfFormats.1 "GetNumberOfFormats"
  (List.range lib.getNumberOfFormats.2.toNat).mapM fun idx => ImplFormat.new lib loc (UInt32.ofNat idx)

/-- `fill_formats`: `m_formats`, with the value of `FUSE3_P7ZIP_FORMATS`. -/
def fillFormats (lib : ImplLib) (loc : Locale) (overrideFormatsOrder : Option Str) :
    Except Escape (List ImplFormat) := do
  let formats ← lib.libraryFormats loc
  match overrideFormatsOrder with
  | none => return formats
  | some order =>
    let st ← (split [':'] (by decide) order).foldlM (lib.reorder loc) ⟨formats, [], [], false⟩
    return st.head ++ st.formats ++ st.tail

/-! ### The order -/

/-- The format's name is read, and is `it`. -/
def named (lib : ImplLib) (loc : Locale) (it : Str) (f : ImplFormat) : Bool :=
  match f.name lib loc with
  | .ok name => name == it
  | .error _ => false

/-- The order a value of the variable asks for: what the items before the first
`*` take, in their order, then what is left, in the library's, then what the
items after it take. -/
def ordered (lib : ImplLib) (loc : Locale) (formats : List ImplFormat) : Option Str → List ImplFormat
  | none => formats
  | some order =>
    let items := split [':'] (by decide) order
    let head := Picks.takes (lib.named loc) formats [] (items.takeWhile (· ≠ ['*']))
    let tail := Picks.takes (lib.named loc) formats head
      ((items.dropWhile (· ≠ ['*'])).filter (· ≠ ['*']))
    head ++ Picks.left formats (head ++ tail) ++ tail

variable {lib : ImplLib} {loc : Locale}

/-- A search that returns has found the first format of the name. -/
theorem findIf_ok {it : Str} : ∀ {fs : List ImplFormat}
    {r : Option (List ImplFormat × ImplFormat × List ImplFormat)}, lib.findIf loc it fs = .ok r →
    (r = none ∧ fs.find? (lib.named loc it) = none) ∨
      ∃ before f behind, r = some (before, f, behind) ∧ fs = before ++ f :: behind ∧
        fs.find? (lib.named loc it) = some f
  | [], r, h => by
    cases h
    exact .inl ⟨rfl, rfl⟩
  | f :: fs, r, h => by
    obtain ⟨name, hname, h⟩ := bind_eq_ok.mp h
    have hnamed : lib.named loc it f = (name == it) := by rw [named, hname]
    by_cases hit : name = it
    · rw [if_pos hit] at h
      cases h
      exact .inr ⟨[], f, fs, rfl, rfl, List.find?_cons_of_pos (by simp [hnamed, hit])⟩
    · rw [if_neg hit] at h
      obtain ⟨r', hr', hret⟩ := bind_eq_ok.mp h
      rw [List.find?_cons_of_neg (by simp [hnamed, hit])]
      obtain ⟨rfl, hn⟩ | ⟨before, g, behind, rfl, rfl, hg⟩ := findIf_ok hr'
      · cases hret
        exact .inl ⟨rfl, hn⟩
      · cases hret
        exact .inr ⟨f :: before, g, behind, rfl, rfl, hg⟩

/-- The name of every format can be read. -/
def Readable (lib : ImplLib) (loc : Locale) (fs : List ImplFormat) : Prop :=
  ∀ f ∈ fs, ∃ name, f.name lib loc = .ok name

theorem findIf_total (it : Str) : ∀ {fs : List ImplFormat}, lib.Readable loc fs →
    ∃ r, lib.findIf loc it fs = .ok r
  | [], _ => ⟨none, rfl⟩
  | f :: fs, h => by
    obtain ⟨name, hname⟩ := h f List.mem_cons_self
    by_cases hit : name = it
    · exact ⟨some ([], f, fs), bind_eq_ok.mpr ⟨name, hname, if_pos hit⟩⟩
    · obtain ⟨r, hr⟩ := findIf_total it fun g hg => h g (List.mem_cons_of_mem f hg)
      have hf : ∀ r', (match r with
          | some (before, g, behind) => pure (some (f :: before, g, behind))
          | none => pure none) = Except.ok r' → lib.findIf loc it (f :: fs) = .ok r' := fun r' h' =>
        bind_eq_ok.mpr ⟨name, hname, (if_neg hit).trans (bind_eq_ok.mpr ⟨r, hr, h'⟩)⟩
      cases r with
      | none => exact ⟨none, hf _ rfl⟩
      | some p => exact ⟨some (f :: p.1, p.2.1, p.2.2), hf _ rfl⟩

/-! ### The loop -/

/-- What a round of the loop does: it goes over to the tail, or it finds
nothing, or it moves the first format of the name. -/
theorem reorder_ok {st st' : Reordering} {it : Str} (h : lib.reorder loc st it = .ok st') :
    (it = ['*'] ∧ st' = { st with currentIsTail := true }) ∨
    (it ≠ ['*'] ∧ st.formats.find? (lib.named loc it) = none ∧ st' = st) ∨
    (it ≠ ['*'] ∧ ∃ before f behind, st.formats.find? (lib.named loc it) = some f ∧
      st.formats = before ++ f :: behind ∧
      st' = if st.currentIsTail then { st with formats := before ++ behind, tail := st.tail ++ [f] }
        else { st with formats := before ++ behind, head := st.head ++ [f] }) := by
  unfold reorder at h
  by_cases hstar : it = ['*']
  · rw [if_pos hstar] at h
    cases h
    exact .inl ⟨hstar, rfl⟩
  · rw [if_neg hstar] at h
    obtain ⟨r, hr, hret⟩ := bind_eq_ok.mp h
    obtain ⟨rfl, hn⟩ | ⟨before, f, behind, rfl, hfs, hf⟩ := findIf_ok hr
    · cases hret
      exact .inr (.inl ⟨hstar, hn, rfl⟩)
    · refine .inr (.inr ⟨hstar, before, f, behind, hf, hfs, ?_⟩)
      simp only at hret
      split_ifs at hret ⊢
      · cases hret
        rfl
      · cases hret
        rfl

/-- The formats that are left are those that neither the head nor the tail has. -/
def Reordering.Keeps (formats : List ImplFormat) (st : Reordering) : Prop :=
  st.formats = Picks.left formats (st.head ++ st.tail)

/-- After a `*`, the items take into the tail. -/
theorem foldlM_reorder_tail {formats : List ImplFormat} (hn : formats.Nodup) :
    ∀ (items : List Str) (st : Reordering) {st' : Reordering}, st.currentIsTail = true →
      st.Keeps formats → items.foldlM (lib.reorder loc) st = .ok st' →
      st'.Keeps formats ∧ st'.head = st.head ∧
        st'.tail = st.tail ++ Picks.takes (lib.named loc) formats (st.head ++ st.tail)
          (items.filter (· ≠ ['*']))
  | [], st, st', _, hk, h => by
    cases h
    simp [hk, Picks.takes]
  | it :: items, st, st', hc, hk, h => by
    rw [List.foldlM_cons] at h
    obtain ⟨st1, hround, hrest⟩ := bind_eq_ok.mp h
    obtain ⟨hit, hst⟩ | ⟨hit, hfind, hst⟩ | ⟨hit, before, f, behind, hfind, hfs, hst⟩ :=
      reorder_ok hround
    · rw [List.filter_cons_of_neg (by simp [hit])]
      subst hst
      exact foldlM_reorder_tail hn items { st with currentIsTail := true } rfl hk hrest
    · rw [List.filter_cons_of_pos (by simp [hit]), Picks.takes, ← show st.formats = _ from hk, hfind]
      subst hst
      exact foldlM_reorder_tail hn items st1 hc hk hrest
    · have hk' : Picks.left formats (st.head ++ (st.tail ++ [f])) = before ++ behind := by
        rw [← List.append_assoc]
        exact Picks.left_concat hn (hk.symm.trans hfs)
      rw [if_pos hc] at hst
      subst hst
      obtain ⟨h1, h2, h3⟩ := foldlM_reorder_tail hn items
        { st with formats := before ++ behind, tail := st.tail ++ [f] } hc hk'.symm hrest
      refine ⟨h1, h2, ?_⟩
      rw [List.filter_cons_of_pos (by simp [hit]), Picks.takes, ← show st.formats = _ from hk, hfind, h3]
      simp [List.append_assoc]

/-- Before it, they take into the head. -/
theorem foldlM_reorder {formats : List ImplFormat} (hn : formats.Nodup) :
    ∀ (items : List Str) (st : Reordering) {st' : Reordering}, st.currentIsTail = false →
      st.tail = [] → st.Keeps formats → items.foldlM (lib.reorder loc) st = .ok st' →
      st'.Keeps formats ∧
        st'.head = st.head ++ Picks.takes (lib.named loc) formats st.head (items.takeWhile (· ≠ ['*'])) ∧
        st'.tail = Picks.takes (lib.named loc) formats st'.head
          ((items.dropWhile (· ≠ ['*'])).filter (· ≠ ['*']))
  | [], st, st', _, ht, hk, h => by
    cases h
    simp [hk, ht, Picks.takes]
  | it :: items, st, st', hc, ht, hk, h => by
    rw [List.foldlM_cons] at h
    obtain ⟨st1, hround, hrest⟩ := bind_eq_ok.mp h
    have hk0 : st.formats = Picks.left formats st.head := by rw [hk, ht, List.append_nil]
    obtain ⟨hit, hst⟩ | ⟨hit, hfind, hst⟩ | ⟨hit, before, f, behind, hfind, hfs, hst⟩ :=
      reorder_ok hround
    · subst hst
      obtain ⟨h1, h2, h3⟩ :=
        foldlM_reorder_tail hn items { st with currentIsTail := true } rfl hk hrest
      refine ⟨h1, by simp [h2, hit, Picks.takes], ?_⟩
      simpa [hit, ht, h2] using h3
    · rw [List.takeWhile_cons_of_pos (by simp [hit]), List.dropWhile_cons_of_pos (by simp [hit]),
        Picks.takes, ← hk0, hfind]
      subst hst
      exact foldlM_reorder hn items st1 hc ht hk hrest
    · have hk' : Picks.left formats (st.head ++ [f] ++ st.tail) = before ++ behind := by
        rw [ht, List.append_nil]
        exact Picks.left_concat hn (hk0.symm.trans hfs)
      rw [if_neg (by simp [hc])] at hst
      subst hst
      obtain ⟨h1, h2, h3⟩ := foldlM_reorder hn items
        { st with formats := before ++ behind, head := st.head ++ [f] } hc ht hk'.symm hrest
      rw [List.takeWhile_cons_of_pos (by simp [hit]), List.dropWhile_cons_of_pos (by simp [hit]),
        Picks.takes, ← hk0, hfind]
      refine ⟨h1, ?_, h3⟩
      rw [h2]
      simp [List.append_assoc]

/-- With readable names every round returns. -/
theorem reorder_total {st : Reordering} (h : lib.Readable loc st.formats) (it : Str) :
    ∃ st', lib.reorder loc st it = .ok st' ∧ st'.formats ⊆ st.formats := by
  unfold reorder
  by_cases hstar : it = ['*']
  · exact ⟨_, if_pos hstar, fun _ => id⟩
  · obtain ⟨r, hr⟩ := findIf_total it h
    have hret : ∀ st', (match r with
        | none => pure st
        | some (before, f, behind) =>
          if st.currentIsTail then
            pure { st with formats := before ++ behind, tail := st.tail ++ [f] }
          else pure { st with formats := before ++ behind, head := st.head ++ [f] }) = Except.ok st' →
        lib.reorder loc st it = .ok st' := fun st' h' =>
      (if_neg hstar).trans (bind_eq_ok.mpr ⟨r, hr, h'⟩)
    obtain ⟨rfl, -⟩ | ⟨before, f, behind, rfl, hfs, -⟩ := findIf_ok hr
    · exact ⟨st, hret _ rfl, fun _ => id⟩
    · have hsub : before ++ behind ⊆ st.formats := by
        rw [hfs]
        exact List.append_subset.mpr ⟨List.subset_append_left _ _,
          fun a ha => List.mem_append_right _ (List.mem_cons_of_mem f ha)⟩
      by_cases hc : st.currentIsTail = true
      · exact ⟨_, hret _ (if_pos hc), hsub⟩
      · exact ⟨_, hret _ (if_neg hc), hsub⟩

theorem foldlM_reorder_total : ∀ (items : List Str) {st : Reordering}, lib.Readable loc st.formats →
    ∃ st', items.foldlM (lib.reorder loc) st = .ok st'
  | [], st, _ => ⟨st, rfl⟩
  | it :: items, st, h => by
    obtain ⟨st1, h1, hsub⟩ := reorder_total h it
    obtain ⟨st', h'⟩ := foldlM_reorder_total items fun f hf => h f (hsub hf)
    exact ⟨st', by rw [List.foldlM_cons]; exact bind_eq_ok.mpr ⟨st1, h1, h'⟩⟩

/-! ### The list -/

theorem mapM_ok {α β : Type} {f : α → Except Escape β} : ∀ {l : List α} {r : List β},
    l.mapM f = .ok r → List.Forall₂ (fun a b => f a = .ok b) l r
  | [], r, h => by
    cases h
    exact .nil
  | a :: l, r, h => by
    rw [List.mapM_cons] at h
    obtain ⟨b, hb, hrest⟩ := bind_eq_ok.mp h
    obtain ⟨bs, hbs, hret⟩ := bind_eq_ok.mp hrest
    cases hret
    exact .cons hb (mapM_ok hbs)

theorem mapM_total {α β : Type} {f : α → Except Escape β} {P : β → Prop} : ∀ {l : List α},
    (∀ a ∈ l, ∃ b, f a = .ok b ∧ P b) → ∃ r, l.mapM f = .ok r ∧ ∀ b ∈ r, P b
  | [], _ => ⟨[], rfl, by simp⟩
  | a :: l, h => by
    obtain ⟨b, hb, hp⟩ := h a List.mem_cons_self
    obtain ⟨bs, hbs, hps⟩ := mapM_total fun a' ha' => h a' (List.mem_cons_of_mem a ha')
    refine ⟨b :: bs, ?_, List.forall_mem_cons.mpr ⟨hp, hps⟩⟩
    rw [List.mapM_cons]
    exact bind_eq_ok.mpr ⟨b, hb, bind_eq_ok.mpr ⟨bs, hbs, rfl⟩⟩

theorem idx_of_new {idx : UInt32} {f : ImplFormat} (h : ImplFormat.new lib loc idx = .ok f) :
    f.idx = idx := by
  obtain ⟨ext, -, h⟩ := bind_eq_ok.mp h
  obtain ⟨add, -, h⟩ := bind_eq_ok.mp h
  cases h
  rfl

theorem map_idx_of_new : ∀ {l : List ℕ} {formats : List ImplFormat},
    List.Forall₂ (fun i f => ImplFormat.new lib loc (UInt32.ofNat i) = .ok f) l formats →
    formats.map ImplFormat.idx = l.map UInt32.ofNat
  | [], _, .nil => rfl
  | i :: l, _, .cons h hs => by rw [List.map_cons, List.map_cons, idx_of_new h, map_idx_of_new hs]

/-- The indices of the library's formats are all there are, in order. -/
theorem idx_libraryFormats {formats : List ImplFormat} (h : lib.libraryFormats loc = .ok formats) :
    formats.map ImplFormat.idx = (List.range lib.getNumberOfFormats.2.toNat).map UInt32.ofNat := by
  obtain ⟨_, -, h⟩ := bind_eq_ok.mp h
  exact map_idx_of_new (mapM_ok h)

theorem libraryFormats_nodup {formats : List ImplFormat} (h : lib.libraryFormats loc = .ok formats) :
    formats.Nodup := by
  refine List.Nodup.of_map ImplFormat.idx ?_
  rw [idx_libraryFormats h]
  refine List.Nodup.map_on (fun i hi j hj he => ?_) List.nodup_range
  have hn := lib.getNumberOfFormats.2.toNat_lt
  rw [List.mem_range] at hi hj
  have hij := congrArg UInt32.toNat he
  rwa [UInt32.toNat_ofNat_of_lt' (by show i < 2 ^ 32; omega),
    UInt32.toNat_ofNat_of_lt' (by show j < 2 ^ 32; omega)] at hij

theorem perm_ordered {formats : List ImplFormat} (hn : formats.Nodup) : ∀ order : Option Str,
    (lib.ordered loc formats order).Perm formats
  | none => List.Perm.refl formats
  | some _ => Picks.perm_takes _ _ hn _ _

/-- The number of formats can be had, every format can be made, and has a name. -/
structure Loads (lib : ImplLib) (loc : Locale) : Prop where
  number : ¬ failed lib.getNumberOfFormats.1
  formats : ∀ i < lib.getNumberOfFormats.2.toNat, ∃ f,
    ImplFormat.new lib loc (UInt32.ofNat i) = .ok f ∧ ∃ name, f.name lib loc = .ok name

theorem Loads.libraryFormats (h : lib.Loads loc) : ∃ formats, lib.libraryFormats loc = .ok formats ∧
    lib.Readable loc formats := by
  obtain ⟨formats, hf, hr⟩ := mapM_total fun i hi => h.formats i (List.mem_range.mp hi)
  exact ⟨formats, bind_eq_ok.mpr ⟨_, checkCom_ok h.number _, hf⟩, hr⟩

/-- **The list of formats.** Where `fill_formats` returns, no format of the
library is lost and none is there twice, and they are in the order the
variable asks for; and it returns where all formats load. -/
theorem fillFormats_spec (lib : ImplLib) (loc : Locale) (order : Option Str) :
    (∀ out, lib.fillFormats loc order = .ok out →
      ∃ formats, lib.libraryFormats loc = .ok formats ∧
        formats.map ImplFormat.idx = (List.range lib.getNumberOfFormats.2.toNat).map UInt32.ofNat ∧
        out.Perm formats ∧ out = lib.ordered loc formats order) ∧
    (lib.Loads loc → ∃ out, lib.fillFormats loc order = .ok out) := by
  refine ⟨fun out h => ?_, fun h => ?_⟩
  · obtain ⟨formats, hf, h⟩ := bind_eq_ok.mp h
    have hn := libraryFormats_nodup hf
    have hout : out = lib.ordered loc formats order := by
      cases order with
      | none =>
        cases h
        rfl
      | some order =>
        obtain ⟨st, hst, hret⟩ := bind_eq_ok.mp h
        have hk : Reordering.Keeps formats ⟨formats, [], [], false⟩ := (Picks.left_nil formats).symm
        obtain ⟨h1, h2, h3⟩ := foldlM_reorder hn _ _ rfl rfl hk hst
        cases hret
        unfold ordered
        rw [List.nil_append] at h2
        simp only [← h2, ← h3, ← show st.formats = _ from h1]
    exact ⟨formats, hf, idx_libraryFormats hf, hout ▸ perm_ordered hn order, hout⟩
  · obtain ⟨formats, hf, hr⟩ := h.libraryFormats
    cases order with
    | none => exact ⟨formats, bind_eq_ok.mpr ⟨formats, hf, rfl⟩⟩
    | some order =>
      have hr' : lib.Readable loc (Reordering.mk formats [] [] false).formats := hr
      obtain ⟨st, hst⟩ := foldlM_reorder_total (split [':'] (by decide) order) hr'
      exact ⟨_, bind_eq_ok.mpr ⟨formats, hf, bind_eq_ok.mpr ⟨st, hst, rfl⟩⟩⟩

end ImplLib

/-! ### The additional extensions -/

namespace ImplArchive

/-- The archive was opened with the format. -/
def HasFormat (arc : ImplArchive) (fmt : ImplFormat) : Prop :=
  arc.extDef = fmt.extDef ∧ arc.extAdd = fmt.extAdd

/-- The search stops at the `j`-th word: it is the extension, and has a new one. -/
def StopsAt (ext : FsPath) (extDef extAdd : List Str) (j : ℕ) : Prop :=
  ∃ e add, extDef[j]? = some e ∧ ext.elements = FsPath.elements ⟨'.' :: e⟩ ∧ extAdd[j]? = some add ∧
    add ≠ ['*']

/-- From the `i`-th on, a word without an additional one is the extension only
behind a word the search stops at. -/
def Within (ext : FsPath) (extDef extAdd : List Str) (i : ℕ) : Prop :=
  ∀ k e, i ≤ k → extAdd.length ≤ k → extDef[k]? = some e →
    ext.elements = FsPath.elements ⟨'.' :: e⟩ → ∃ j, i ≤ j ∧ j < k ∧ StopsAt ext extDef extAdd j

/-- A word that the search goes on from. -/
theorem within_succ {ext : FsPath} {extDef extAdd : List Str} {i : ℕ}
    (hs : ¬ StopsAt ext extDef extAdd i)
    (hi : ∀ e, extAdd.length ≤ i → extDef[i]? = some e → ext.elements ≠ FsPath.elements ⟨'.' :: e⟩) :
    Within ext extDef extAdd i ↔ Within ext extDef extAdd (i + 1) := by
  refine ⟨fun h k e hk hadd hget he => ?_, fun h k e hk hadd hget he => ?_⟩
  · obtain ⟨j, hj, hjk, hstop⟩ := h k e (by omega) hadd hget he
    have hne : j ≠ i := fun h => hs (h ▸ hstop)
    exact ⟨j, by omega, hjk, hstop⟩
  · have hne : k ≠ i := by
      intro hki
      rw [hki] at hadd hget
      exact hi e hadd hget he
    obtain ⟨j, hj, hjk, hstop⟩ := h k e (by omega) hadd hget he
    exact ⟨j, by omega, hjk, hstop⟩

theorem proposedFrom_ok_iff (name ext : FsPath) (extDef extAdd : List Str) : ∀ (es : List Str) (i : ℕ),
    extDef.drop i = es →
    ((∃ p, proposedFrom name ext extAdd es i = .ok p) ↔ Within ext extDef extAdd i)
  | [], i, h => by
    refine iff_of_true ⟨name, rfl⟩ fun k e hk _ he => ?_
    have hlen := List.drop_eq_nil_iff.mp h
    have := (List.getElem?_eq_some_iff.mp he).1
    omega
  | e :: es, i, h => by
    have hi : extDef[i]? = some e := by
      rw [← List.head?_drop, h]
      rfl
    have hdrop : extDef.drop (i + 1) = es := by
      rw [← List.tail_drop, h]
      rfl
    have ih := proposedFrom_ok_iff name ext extDef extAdd es (i + 1) hdrop
    unfold proposedFrom
    by_cases he : ext.elements = FsPath.elements ⟨'.' :: e⟩
    · rw [if_pos he]
      cases hadd : extAdd[i]? with
      | none =>
        refine iff_of_false (fun h => by simp at h) fun hw => ?_
        obtain ⟨j, hj, hjk, -⟩ := hw i e (Nat.le_refl i) (List.getElem?_eq_none_iff.mp hadd) hi he
        omega
      | some add =>
        have hlt := (List.getElem?_eq_some_iff.mp hadd).1
        by_cases hstar : add = ['*']
        · have hs : ¬ StopsAt ext extDef extAdd i := by
            intro ⟨_, add', _, _, hadd', hne⟩
            rw [hadd] at hadd'
            cases hadd'
            exact hne hstar
          rw [within_succ hs fun _ hle => by omega, ← ih]
          simp [hstar]
        · refine iff_of_true ⟨_, if_pos hstar⟩ fun k _ _ hle _ _ => ?_
          exact ⟨i, Nat.le_refl i, by omega, e, add, hi, he, hadd, hstar⟩
    · have hs : ¬ StopsAt ext extDef extAdd i := by
        intro ⟨e', _, he', hx, _⟩
        rw [hi] at he'
        cases he'
        exact he hx
      have hno : ∀ e', extAdd.length ≤ i → extDef[i]? = some e' →
          ext.elements ≠ FsPath.elements ⟨'.' :: e'⟩ := by
        intro e' _ he'
        rw [hi] at he'
        cases he'
        exact he
      rw [if_neg he, within_succ hs hno]
      exact ih

/-- **When `proposed_name` stays inside the additional extensions.** A word of
the format that has no additional one is the archive's extension only
behind another that has one other than `*`. -/
theorem proposedName_ok_iff {lib : ImplLib} {loc : Locale} {idx : UInt32} {fmt : ImplFormat}
    {arc : ImplArchive} (h : ImplFormat.new lib loc idx = .ok fmt) (hf : arc.HasFormat fmt) :
    ∃ hr hr' kExtension kAddExtension,
      lib.getPropString loc idx .kExtension [] = .ok (hr, kExtension) ∧
      lib.getPropString loc idx .kAddExtension [] = .ok (hr', kAddExtension) ∧
      ((∃ s, arc.proposedName = .ok s) ↔
        Within arc.path.extension (split [' '] (by decide) kExtension)
          (split [' '] (by decide) kAddExtension) 0) := by
  obtain ⟨⟨hr, kExtension⟩, hext, h⟩ := bind_eq_ok.mp h
  obtain ⟨⟨hr', kAddExtension⟩, hadd, h⟩ := bind_eq_ok.mp h
  cases h
  refine ⟨hr, hr', kExtension, kAddExtension, hext, hadd, ?_⟩
  obtain ⟨hd, ha⟩ := hf
  simp only at hd ha
  rw [← hd, ← ha, ← proposedFrom_ok_iff arc.path.filename _ _ _ arc.extDef 0 rfl]
  unfold proposedName
  refine ⟨fun ⟨s, hs⟩ => ?_, fun ⟨p, hp⟩ => ⟨p.native, bind_eq_ok.mpr ⟨p, hp, rfl⟩⟩⟩
  obtain ⟨p, hp, -⟩ := bind_eq_ok.mp hs
  exact ⟨p, hp⟩

/-- A library of one format, with the extensions `zip jar` and no additional
ones. -/
def zipJar : ImplLib where
  getNumberOfFormats := (sOk, 1)
  getHandlerProperty2 := some fun _ propId =>
    match propId with
    | .kName => (sOk, .bstr (some [90, 105, 112]))
    | .kExtension => (sOk, .bstr (some [122, 105, 112, 32, 106, 97, 114]))
    | .kAddExtension => (sOk, .empty)
  getHandlerProperty := fun _ => (sOk, .empty)

/-- An archive of this name, opened with it. -/
def ofZipJar (path : FsPath) : ImplArchive :=
  ⟨path, zeroStat, [['z', 'i', 'p'], ['j', 'a', 'r']], [[]], [], by decide⟩

theorem new_zipJar : ImplFormat.new zipJar .ascii 0 = .ok ⟨0, [['z', 'i', 'p'], ['j', 'a', 'r']], [[]]⟩ := by
  rfl

theorem proposedName_zip : ∃ s, (ofZipJar ⟨['/', 'a', '.', 'z', 'i', 'p']⟩).proposedName = .ok s := by
  have hf : (ofZipJar ⟨['/', 'a', '.', 'z', 'i', 'p']⟩).HasFormat
      ⟨0, [['z', 'i', 'p'], ['j', 'a', 'r']], [[]]⟩ := ⟨rfl, rfl⟩
  obtain ⟨_, _, ext, add, hext, hadd, hiff⟩ := proposedName_ok_iff new_zipJar hf
  cases hext
  cases hadd
  refine hiff.mpr fun k e _ hk hget he => ?_
  match k, hget with
  | 0, _ => exact absurd hk (by decide)
  | 1, hget => cases hget; exact absurd he (by decide)

/-- `jar` is the second extension of the format, and there is no second
additional one. -/
theorem jar_out_of_bounds : ImplFormat.new zipJar .ascii 0 = .ok ⟨0, [['z', 'i', 'p'], ['j', 'a', 'r']], [[]]⟩ ∧
    (ofZipJar ⟨['/', 'a', '.', 'j', 'a', 'r']⟩).HasFormat ⟨0, [['z', 'i', 'p'], ['j', 'a', 'r']], [[]]⟩ ∧
    (ofZipJar ⟨['/', 'a', '.', 'j', 'a', 'r']⟩).proposedName = .error (.ub .badIndex) :=
  ⟨new_zipJar, ⟨rfl, rfl⟩, rfl⟩

end ImplArchive

end Fuse3P7zip
