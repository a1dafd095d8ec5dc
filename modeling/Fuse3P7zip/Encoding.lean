/-
# Names through an encoding

`utf8` gives its input to the descriptor in one call and does not flush it
after that, so it returns what the descriptor emits on the way and loses
what it holds back at the end: `utf8_complete_iff`. `utf8raw` hands over the
low byte of every character, and so takes names that differ above it for
one: `paths_differ_iff`.
-/
import Mathlib.Data.List.Forall2
import Fuse3P7zip.Archive

namespace Fuse3P7zip

namespace Iconv

variable {α β : Type}

/-- A descriptor given by its steps: one for each element, with what it emits
and the state behind it. -/
def convertSteps {State : Type} (step : State → α → Option (List β × State)) :
    State → List α → Option (List β × State)
  | s, [] => some ([], s)
  | s, a :: input => do
    let (out, s) ← step s a
    let (rest, s) ← convertSteps step s input
    return (out ++ rest, s)

/-- A descriptor that holds its last element back, as one does that may have to
combine it with the next. -/
def holding : Iconv α α where
  State := Option α
  initial := none
  convert := convertSteps fun s a => some (s.toList, some a)
  flush := fun s => (s.toList, none)

/-- A descriptor that was just opened holds nothing back. -/
def Fresh (cd : Iconv α β) : Prop := cd.flush cd.initial = ([], cd.initial)

/-- The whole input is converted, within the buffer of `utf8`, and gives `out`
on the way and `pending` when it is flushed. -/
def Converts (cd : Iconv α β) (input : List α) (out pending : List β) : Prop :=
  ∃ s, cd.convert cd.initial input = some (out, s) ∧ (cd.flush s).1 = pending ∧
    (out ++ pending).length ≤ input.length * 6

/-- It gives `out` on the way. -/
def Emits (cd : Iconv α β) (input : List α) (out : List β) : Prop :=
  ∃ s, cd.convert cd.initial input = some (out, s) ∧ out.length ≤ input.length * 6

/-- Nothing is held back at the end of an input. -/
def HoldsNothing (cd : Iconv α β) : Prop :=
  ∀ input out s, cd.convert cd.initial input = some (out, s) → (cd.flush s).1 = []

/-- Inputs of the same conversion are the same. -/
def Injective (cd : Iconv α β) : Prop :=
  ∀ input input' out out' s s', cd.convert cd.initial input = some (out, s) →
    cd.convert cd.initial input' = some (out', s') →
    out ++ (cd.flush s).1 = out' ++ (cd.flush s').1 → input = input'

end Iconv

/-! ### What is returned -/

/-- The text of a name before it is converted: the low bytes of its characters,
up to a byte that is 0. -/
def lowBytes (wstr : WStr) : Str :=
  cStr ((wstr.takeWhile (· ≠ 0)).map fun w => Char.ofNat (w.toNat % 256))

theorem resetAndConvert_of_fresh {α β : Type} {cd : Iconv α β} (h : cd.Fresh) (input : List α) (room : ℕ) :
    resetAndConvert cd input room = iconv cd cd.initial input room := by
  unfold resetAndConvert
  rw [h]
  simp only [List.length_nil, Nat.zero_le, if_true, Nat.sub_zero, List.nil_append]
  cases iconv cd cd.initial input room <;> rfl

theorem iconv_eq_ok {α β : Type} {cd : Iconv α β} {s : cd.State} {input : List α} {room : ℕ} {out : List β} :
    iconv cd s input room = .ok out ↔ ∃ s', cd.convert s input = some (out, s') ∧ out.length ≤ room := by
  unfold iconv
  cases h : cd.convert s input with
  | none => simp
  | some r =>
    obtain ⟨out', s'⟩ := r
    simp only [Option.some.injEq, Prod.mk.injEq]
    split_ifs with hr
    · refine ⟨fun he => ?_, fun ⟨_, he, _⟩ => congrArg Except.ok he.1⟩
      cases he
      exact ⟨s', ⟨rfl, rfl⟩, hr⟩
    · refine ⟨fun he => (by cases he), fun ⟨_, he, hle⟩ => absurd (he.1 ▸ hle) hr⟩

/-- `utf8` returns what the descriptor emits on the way, up to a NUL. -/
theorem utf8From_eq_ok {loc : Locale} {encoding : Str} {cd : Iconv Char Char}
    (hcd : loc.encoding encoding = some cd) (hnew : cd.Fresh) {str res : Str} :
    utf8From loc str encoding = .ok res ↔ ∃ out, cd.Emits (cStr str) out ∧ res = cStr out := by
  unfold utf8From withDescriptor
  rw [hcd]
  simp only [resetAndConvert_of_fresh hnew]
  rw [bind_eq_ok]
  refine exists_congr fun out => ?_
  rw [iconv_eq_ok]
  exact and_congr Iff.rfl ⟨fun h => (by cases h; rfl), fun h => congrArg Except.ok h.symm⟩

theorem cStr_eq_append_iff (out pending : Str) :
    cStr out = out ++ pending ↔ pending = [] ∧ '\x00' ∉ out := by
  have hle : (cStr out).length ≤ out.length := (List.takeWhile_prefix _).length_le
  refine ⟨fun h => ?_, fun h => ?_⟩
  · have hp : pending = [] := by
      have := congrArg List.length h
      rw [List.length_append] at this
      exact List.length_eq_zero_iff.mp (by omega)
    rw [hp, List.append_nil] at h
    refine ⟨hp, fun hm => ?_⟩
    have := List.takeWhile_eq_self_iff.mp h _ hm
    simp at this
  · rw [h.1, List.append_nil]
    refine List.takeWhile_eq_self_iff.mpr fun c hc => ?_
    have hne : c ≠ '\x00' := fun he => h.2 (he ▸ hc)
    simpa using hne

/-- **The conversion is complete** exactly where the descriptor holds nothing
back at the end, and none of what it emits is a NUL. -/
theorem utf8_complete_iff {loc : Locale} {encoding : Str} {cd : Iconv Char Char}
    (hcd : loc.encoding encoding = some cd) (hnew : cd.Fresh) {str out pending : Str}
    (h : cd.Converts (cStr str) out pending) :
    (utf8From loc str encoding = .ok (out ++ pending) ↔ pending = [] ∧ '\x00' ∉ out) ∧
    ∀ wstr, lowBytes wstr = cStr str →
      (utf8raw loc wstr encoding = .ok (out ++ pending) ↔ pending = [] ∧ '\x00' ∉ out) := by
  have key : ∀ str', cStr str' = cStr str →
      (utf8From loc str' encoding = .ok (out ++ pending) ↔ pending = [] ∧ '\x00' ∉ out) := by
    intro str' hstr
    obtain ⟨s, hs, -, hlen⟩ := h
    rw [List.length_append] at hlen
    rw [utf8From_eq_ok hcd hnew, hstr, ← cStr_eq_append_iff]
    refine ⟨fun ⟨out', ⟨s', hs', _⟩, he⟩ => ?_, fun he => ⟨out, ⟨s, hs, by omega⟩, he.symm⟩⟩
    rw [hs] at hs'
    cases hs'
    exact he.symm
  exact ⟨key str rfl, fun wstr hw => key _ hw⟩

theorem utf8_complete_ascii : utf8From .ascii ['a'] [] = .ok (['a'] ++ []) := by
  have hcd : Locale.ascii.encoding [] =
      some (.elementwise fun c => if c.val < 128 then some c else none) := rfl
  exact (utf8_complete_iff hcd rfl ⟨(), rfl, rfl, by decide⟩).1.mpr (by decide)

/-- The letter that is held back is lost. -/
theorem last_letter_lost : (Iconv.holding : Iconv Char Char).Fresh ∧
    (Iconv.holding : Iconv Char Char).Converts (cStr ['a', 'b']) ['a'] ['b'] ∧
    utf8From { Locale.ascii with encoding := fun _ => some .holding } ['a', 'b'] [] = .ok ['a'] :=
  ⟨rfl, ⟨some 'b', rfl, rfl, by decide⟩, rfl⟩

/-! ### Two names -/

/-- The two paths are different, or one of them cannot be had. -/
def Apart (loc : Locale) (item item' : ItemProps) : Prop :=
  ∀ s, item.path loc = .ok s → item'.path loc ≠ .ok s

theorem nul_not_mem_cStr (s : Str) : '\x00' ∉ cStr s := by
  intro h
  have := List.mem_takeWhile_imp h
  simp at this

theorem path_of_forced {loc : Locale} {encoding : Str} (hf : loc.forceEncoding = some encoding)
    {item : ItemProps} {wstr : WStr} (hp : item.kpidPath = (sOk, .bstr (some wstr))) :
    item.path loc = utf8raw loc wstr encoding := by
  unfold ItemProps.path
  rw [hp, hf]
  rfl

/-- **When a forced encoding keeps two names apart.** In any encoding, exactly
when their low bytes do not come to the same text. In one that holds
nothing back and emits no NUL, exactly when these differ, or do not
convert. -/
theorem paths_differ_iff {loc : Locale} {encoding : Str} {cd : Iconv Char Char}
    (hf : loc.forceEncoding = some encoding) (hcd : loc.encoding encoding = some cd)
    (hnew : cd.Fresh) (hinj : cd.Injective) {item item' : ItemProps} {wstr wstr' : WStr}
    (hp : item.kpidPath = (sOk, .bstr (some wstr)))
    (hp' : item'.kpidPath = (sOk, .bstr (some wstr'))) :
    (Apart loc item item' ↔ ¬ ∃ out out', cd.Emits (lowBytes wstr) out ∧
      cd.Emits (lowBytes wstr') out' ∧ cStr out = cStr out') ∧
    (cd.HoldsNothing → (∀ input out, '\x00' ∉ input → cd.Emits input out → '\x00' ∉ out) →
      (Apart loc item item' ↔ lowBytes wstr ≠ lowBytes wstr' ∨ ¬ ∃ out, cd.Emits (lowBytes wstr) out)) := by
  have hall : Apart loc item item' ↔ ¬ ∃ out out', cd.Emits (lowBytes wstr) out ∧
      cd.Emits (lowBytes wstr') out' ∧ cStr out = cStr out' := by
    have hres : ∀ w res, utf8raw loc w encoding = .ok res ↔
        ∃ out, cd.Emits (lowBytes w) out ∧ res = cStr out := fun w res => utf8From_eq_ok hcd hnew
    unfold Apart
    rw [path_of_forced hf hp, path_of_forced hf hp']
    refine ⟨fun h ⟨out, out', h1, h2, he⟩ => ?_, fun h s hs hs' => ?_⟩
    · exact h (cStr out) ((hres _ _).mpr ⟨out, h1, rfl⟩) ((hres _ _).mpr ⟨out', h2, he⟩)
    · obtain ⟨out, h1, rfl⟩ := (hres _ _).mp hs
      obtain ⟨out', h2, he⟩ := (hres _ _).mp hs'
      exact h ⟨out, out', h1, h2, he⟩
  refine ⟨hall, fun hold hnul => ?_⟩
  have hfree : ∀ w out, cd.Emits (lowBytes w) out → cStr out = out := fun w out h => by
    have := (cStr_eq_append_iff out []).mpr ⟨rfl, hnul _ _ (nul_not_mem_cStr _) h⟩
    rwa [List.append_nil] at this
  rw [hall, Ne, ← not_and_or, not_iff_not]
  refine ⟨fun ⟨out, out', h1, h2, he⟩ => ⟨?_, out, h1⟩, fun ⟨he, out, h1⟩ => ⟨out, out, h1, he ▸ h1, rfl⟩⟩
  rw [hfree _ _ h1, hfree _ _ h2] at he
  obtain ⟨s, hs, -⟩ := h1
  obtain ⟨s', hs', -⟩ := h2
  exact hinj _ _ _ _ _ _ hs hs' (by rw [hold _ _ _ hs, hold _ _ _ hs', he])

/-- The ASCII descriptor. -/
def Iconv.ascii : Iconv Char Char := .elementwise fun c => if c.val < 128 then some c else none

theorem forall₂_of_mapM {α β : Type} {f : α → Option β} : ∀ {input : List α} {out : List β},
    input.mapM f = some out → List.Forall₂ (fun a b => f a = some b) input out
  | [], out, h => by
    cases h
    exact .nil
  | a :: input, out, h => by
    rw [List.mapM_cons] at h
    obtain ⟨b, hb, hrest⟩ := Option.bind_eq_some_iff.mp h
    obtain ⟨bs, hbs, hret⟩ := Option.bind_eq_some_iff.mp hrest
    cases hret
    exact .cons hb (forall₂_of_mapM hbs)

theorem Iconv.elementwise_injective {α β : Type} {f : α → Option β}
    (hf : ∀ a b c, f a = some c → f b = some c → a = b) : (Iconv.elementwise f).Injective := by
  intro input input' out out' s s' h h' he
  obtain ⟨r, hr, hout⟩ := Option.map_eq_some_iff.mp h
  obtain ⟨r', hr', hout'⟩ := Option.map_eq_some_iff.mp h'
  cases hout
  cases hout'
  have hout : out' = out := by simpa [elementwise] using he.symm
  have hunique : Relator.LeftUnique fun a b => f a = some b := fun a b c ha hb => hf a b c ha hb
  exact hunique.forall₂ (forall₂_of_mapM hr) (hout ▸ forall₂_of_mapM hr')

theorem Iconv.ascii_injective : Iconv.ascii.Injective := by
  refine elementwise_injective fun a b c h h' => ?_
  split_ifs at h h'
  cases h
  cases h'
  rfl

/-- The mount of an archive with the encoding forced to ASCII. -/
def Locale.forcedAscii : Locale := { Locale.ascii with forceEncoding := some [] }

theorem paths_differ_a_b : Apart .forcedAscii (.file [97] (sOk, .empty)) (.file [98] (sOk, .empty)) := by
  have hcd : Locale.forcedAscii.encoding [] = some .ascii := rfl
  refine (paths_differ_iff rfl hcd rfl Iconv.ascii_injective rfl rfl).1.mpr ?_
  intro ⟨out, out', ⟨s, hs, _⟩, ⟨s', hs', _⟩, he⟩
  cases hs
  cases hs'
  revert he
  decide

/-- A Polish L with stroke and an A have the same low byte. -/
theorem wide_names_merge : Locale.forcedAscii.encoding [] = some .ascii ∧ Iconv.ascii.Injective ∧
    (ItemProps.file [0x141] (sOk, .empty)).path .forcedAscii = .ok ['A'] ∧
    (ItemProps.file [0x41] (sOk, .empty)).path .forcedAscii = .ok ['A'] :=
  ⟨rfl, Iconv.ascii_injective, rfl, rfl⟩

end Fuse3P7zip
