/-
# Character conversion

`string.cpp`. The converters of iconv are parameters: a descriptor is a
state machine that is given its whole input in one call, and may hold back
output until it is flushed. `utf8` flushes before it converts and not
after; `wideStr` does not flush at all. `split` cuts at every occurrence of
its delimiter, which goes on for ever when that is empty.
-/
import Mathlib.Data.List.TakeWhile
import Mathlib.Data.Nat.Notation
import Fuse3P7zip.Com

namespace Fuse3P7zip

/-- A conversion descriptor: what a call on an input emits, or `none` for an
invalid or incomplete sequence, and what a call without input emits. -/
structure Iconv (α β : Type) where
  State : Type
  initial : State
  convert : State → List α → Option (List β × State)
  flush : State → List β × State

/-- The descriptors `iconv_open` gives, and the environment's encoding. -/
structure Locale where
  /-- `FUSE3_P7ZIP_FORCE_ENCODING` -/
  forceEncoding : Option Str
  /-- From UTF-32 to UTF-8. -/
  utf32 : Option (Iconv UInt32 Char)
  /-- From UTF-8 to WCHAR_T. -/
  wchar : Option (Iconv Char UInt32)
  /-- From an encoding to UTF-8. -/
  encoding : Str → Option (Iconv Char Char)

variable {α β : Type}

/-- A descriptor without a state, that converts every element by itself. -/
def Iconv.elementwise (f : α → Option β) : Iconv α β :=
  ⟨Unit, (), fun s input => (input.mapM f).map (·, s), fun s => ([], s)⟩

/-- A locale whose texts are all ASCII. -/
def Locale.ascii : Locale where
  forceEncoding := none
  utf32 := some (.elementwise fun w => if w < 128 then some (Char.ofNat w.toNat) else none)
  wchar := some (.elementwise fun c => if c.val < 128 then some c.val else none)
  encoding := fun _ => some (.elementwise fun c => if c.val < 128 then some c else none)

/-- `iconv` into a buffer of `room` from the state `s`. -/
def iconv (cd : Iconv α β) (s : cd.State) (input : List α) (room : ℕ) : Except Escape (List β) :=
  match cd.convert s input with
  | some (out, _) => if out.length ≤ room then .ok out else .error (.exn "iconv: ")
  | none => .error (.exn "iconv: ")

/-- A call without input, then the conversion, into a buffer of `room`. -/
def resetAndConvert (cd : Iconv α β) (input : List α) (room : ℕ) : Except Escape (List β) := do
  let (out, s) := cd.flush cd.initial
  let out := if out.length ≤ room then out else []
  let res ← iconv cd s input (room - out.length)
  return out ++ res

/-- A C string: up to the first NUL. -/
def cStr (s : Str) : Str := s.takeWhile (· ≠ '\x00')

theorem cStr_of_no_nul {s : Str} (h : '\x00' ∉ s) : cStr s = s := by
  refine List.takeWhile_eq_self_iff.mpr fun c hc => ?_
  have hne : c ≠ '\x00' := fun he => h (he ▸ hc)
  simpa using hne

/-- A conversion through the descriptor `iconv_open` gave. -/
def withDescriptor (conv : Option (Iconv α β)) (f : Iconv α β → Except Escape (List β)) :
    Except Escape (List β) :=
  match conv with
  | some cd => f cd
  | none => .error (.exn "iconv_open: ")

/-- `utf8(const wchar_t*)` -/
def utf8 (loc : Locale) (wstr : WStr) : Except Escape Str :=
  withDescriptor loc.utf32 fun conv => do
    let str := wstr.takeWhile (· ≠ 0)
    let result ← resetAndConvert conv str (str.length * 4 * 6)
    return cStr result

/-- `utf8(const char*, const char*)` -/
def utf8From (loc : Locale) (str encoding : Str) : Except Escape Str :=
  withDescriptor (loc.encoding encoding) fun conv => do
    let str := cStr str
    let result ← resetAndConvert conv str (str.length * 6)
    return cStr result

/-- `utf8raw`: every wide character cut to its low byte, then converted. -/
def utf8raw (loc : Locale) (wstr : WStr) (encoding : Str) : Except Escape Str :=
  utf8From loc ((wstr.takeWhile (· ≠ 0)).map fun w => Char.ofNat (w.toNat % 256)) encoding

/-- `wide_str` -/
def wideStr (loc : Locale) (str : Str) : Except Escape WStr :=
  withDescriptor loc.wchar fun conv => do
    let str := cStr str
    let buf ← iconv conv conv.initial str (str.length * 4)
    return buf.takeWhile (· ≠ 0)

/-! ### Cutting -/

/-- `std::string::find`: where the first occurrence is. -/
def find (d : Str) : Str → Option ℕ
  | [] => if d = [] then some 0 else none
  | c :: str => if d.isPrefixOf (c :: str) then some 0 else (find d str).map (· + 1)

/-- The loop of `split`, for at most `fuel` rounds. -/
def splitLoop (d : Str) : ℕ → Str → Option (List Str)
  | 0, _ => none
  | fuel + 1, str =>
    match find d str with
    | some pos => (splitLoop d fuel (str.drop (pos + d.length))).map (str.take pos :: ·)
    | none => some [str]

/-- A round takes the delimiter off, so there are at most as many as characters. -/
theorem isSome_splitLoop {d : Str} (hd : d ≠ []) : ∀ {fuel : ℕ} {str : Str}, str.length < fuel →
    (splitLoop d fuel str).isSome = true
  | fuel + 1, str, h => by
    unfold splitLoop
    cases hf : find d str with
    | none => rfl
    | some pos =>
      have hpos : str ≠ [] := by
        intro h0
        rw [h0, find, if_neg hd] at hf
        cases hf
      have hdl := List.length_pos_iff.mpr hd
      have hsl := List.length_pos_iff.mpr hpos
      simp only [Option.isSome_map]
      apply isSome_splitLoop hd
      rw [List.length_drop]
      omega

/-- `split` at a delimiter that is not empty. -/
def split (d : Str) (hd : d ≠ []) (str : Str) : List Str :=
  (splitLoop d (str.length + 1) str).get (isSome_splitLoop hd (Nat.lt_succ_self _))

theorem find_eq_none {d : Str} : ∀ {str : Str}, find d str = none → ¬ d <:+: str
  | [], h => by
    have hd : d ≠ [] := fun h0 => by simp [find, h0] at h
    simpa using hd
  | c :: str, h => by
    unfold find at h
    split at h
    · cases h
    · rename_i hp
      rw [List.isPrefixOf_iff_prefix] at hp
      rw [List.infix_cons_iff, not_or]
      exact ⟨hp, find_eq_none (Option.map_eq_none_iff.mp h)⟩

/-- The first occurrence has none in front of it. -/
theorem find_eq_some {d : Str} (hd : d ≠ []) : ∀ {str : Str} {pos : ℕ}, find d str = some pos →
    ∃ before behind, str = before ++ (d ++ behind) ∧ before.length = pos ∧ ¬ d <:+: before
  | [], pos, h => by
    rw [find, if_neg hd] at h
    cases h
  | c :: str, pos, h => by
    unfold find at h
    split at h
    · rename_i hp
      cases h
      obtain ⟨behind, hb⟩ := List.isPrefixOf_iff_prefix.mp hp
      exact ⟨[], behind, hb.symm, rfl, by simpa using hd⟩
    · rename_i hp
      obtain ⟨p, hf, rfl⟩ := Option.map_eq_some_iff.mp h
      obtain ⟨before, behind, rfl, rfl, hno⟩ := find_eq_some hd hf
      refine ⟨c :: before, behind, rfl, rfl, fun hi => ?_⟩
      rw [List.infix_cons_iff] at hi
      rcases hi with hi | hi
      · exact hp (List.isPrefixOf_iff_prefix.mpr (hi.trans (List.prefix_append _ _)))
      · exact hno hi

theorem singleton_infix_iff {c : Char} {s : Str} : [c] <:+: s ↔ c ∈ s := by
  refine ⟨fun h => List.singleton_sublist.mp h.sublist, fun h => ?_⟩
  obtain ⟨before, behind, rfl⟩ := List.append_of_mem h
  exact ⟨before, behind, by rw [List.append_assoc, List.singleton_append]⟩

/-- The pieces have no delimiter in them, and are the string with delimiters
between them. -/
def Cuts (d str : Str) (pieces : List Str) : Prop :=
  pieces ≠ [] ∧ (∀ piece ∈ pieces, ¬ d <:+: piece) ∧ d.intercalate pieces = str

theorem Cuts.single {d str : Str} (h : ¬ d <:+: str) : Cuts d str [str] :=
  ⟨List.cons_ne_nil _ _, by simpa using h, List.intercalate_singleton⟩

theorem Cuts.cons {d before behind : Str} {pieces : List Str} (h : ¬ d <:+: before)
    (hc : Cuts d behind pieces) : Cuts d (before ++ (d ++ behind)) (before :: pieces) := by
  obtain ⟨hne, hno, rfl⟩ := hc
  refine ⟨List.cons_ne_nil _ _, List.forall_mem_cons.mpr ⟨h, hno⟩, ?_⟩
  rw [List.intercalate_cons_of_ne_nil hne, List.append_assoc]

theorem splitLoop_cuts {d : Str} (hd : d ≠ []) : ∀ {fuel : ℕ} {str : Str} {pieces : List Str},
    splitLoop d fuel str = some pieces → Cuts d str pieces
  | fuel + 1, str, pieces, h => by
    unfold splitLoop at h
    cases hf : find d str with
    | none =>
      rw [hf] at h
      cases h
      exact .single (find_eq_none hf)
    | some pos =>
      rw [hf] at h
      obtain ⟨rest, hrest, rfl⟩ := Option.map_eq_some_iff.mp h
      obtain ⟨before, behind, rfl, rfl, hno⟩ := find_eq_some hd hf
      have hdrop : (before ++ (d ++ behind)).drop (before.length + d.length) = behind := by
        rw [← List.append_assoc, ← List.length_append, List.drop_left]
      rw [hdrop] at hrest
      rw [List.take_left]
      exact .cons hno (splitLoop_cuts hd hrest)

/-- Any two numbers of rounds that are enough give the same. -/
theorem splitLoop_unique {d : Str} : ∀ {fuel fuel' : ℕ} {str : Str} {pieces pieces' : List Str},
    splitLoop d fuel str = some pieces → splitLoop d fuel' str = some pieces' → pieces = pieces'
  | fuel + 1, fuel' + 1, str, pieces, pieces', h, h' => by
    unfold splitLoop at h h'
    cases hf : find d str with
    | none =>
      rw [hf] at h h'
      cases h
      cases h'
      rfl
    | some pos =>
      rw [hf] at h h'
      obtain ⟨rest, hrest, rfl⟩ := Option.map_eq_some_iff.mp h
      obtain ⟨rest', hrest', rfl⟩ := Option.map_eq_some_iff.mp h'
      rw [splitLoop_unique hrest hrest']

/-- There is one way only to cut at a single character. -/
theorem Cuts.unique {c : Char} {str : Str} {pieces : List Str} (h : Cuts [c] str pieces) :
    pieces = str.splitOn c := by
  obtain ⟨hne, hno, rfl⟩ := h
  refine (List.splitOn_intercalate c (fun piece hp hc => hno piece hp ?_) hne).symm
  exact singleton_infix_iff.mpr hc

theorem splitLoop_eq_split {d : Str} (hd : d ≠ []) {fuel : ℕ} {str : Str} (h : str.length < fuel) :
    splitLoop d fuel str = some (split d hd str) := by
  obtain ⟨pieces, hp⟩ := Option.isSome_iff_exists.mp (isSome_splitLoop hd h)
  rw [hp, splitLoop_unique hp (Option.some_get _).symm]
  rfl

/-- **What `split` comes to.** It terminates, no piece has the delimiter in it,
and with delimiters between them they are the string again; and at a single
character, every list of pieces without it comes back. -/
theorem split_spec {d : Str} (hd : d ≠ []) :
    (∀ str, (∀ fuel, str.length < fuel → splitLoop d fuel str = some (split d hd str)) ∧
      (∀ piece ∈ split d hd str, ¬ d <:+: piece) ∧ d.intercalate (split d hd str) = str) ∧
    ∀ c, d = [c] → ∀ pieces : List Str, pieces ≠ [] → (∀ piece ∈ pieces, c ∉ piece) →
      split d hd (d.intercalate pieces) = pieces := by
  have hcuts : ∀ str, Cuts d str (split d hd str) := fun str =>
    splitLoop_cuts hd (splitLoop_eq_split hd (Nat.lt_succ_self str.length))
  refine ⟨fun str => ⟨fun fuel h => splitLoop_eq_split hd h, (hcuts str).2⟩, ?_⟩
  rintro c rfl pieces hne hno
  have h : Cuts [c] ([c].intercalate pieces) pieces :=
    ⟨hne, fun piece hp hi => hno piece hp (singleton_infix_iff.mp hi), rfl⟩
  exact (hcuts _).unique.trans h.unique.symm

theorem split_spec_blank : split [' '] (by decide) [' ', 'a', ' ', ' ', 'b'] = [[], ['a'], [], ['b']] :=
  (split_spec (by decide)).2 ' ' rfl [[], ['a'], [], ['b']] (by decide) (by decide)

/-! ### Newlines at the end -/

/-- `std::string::find_last_not_of`: where the last character is that is none of
these. -/
def findLastNotOf (chars : Str) : Str → Option ℕ
  | [] => none
  | c :: str =>
    match findLastNotOf chars str with
    | some pos => some (pos + 1)
    | none => if c ∈ chars then none else some 0

/-- `chomp` -/
def chomp (str : Str) : Str :=
  match findLastNotOf ['\n'] str with
  | some pos => str.take (pos + 1)
  | none => str

/-- `res` is `str` without the newlines at its end. -/
def Chomped (str res : Str) : Prop :=
  (∃ n, str = res ++ List.replicate n '\n') ∧ res.getLast? ≠ some '\n'

/-- The text is empty, or has a character that is no newline. -/
def HasText (str : Str) : Prop := str = [] ∨ ∃ c ∈ str, c ≠ '\n'

theorem findLastNotOf_eq_none {chars : Str} : ∀ {str : Str}, findLastNotOf chars str = none →
    ∀ c ∈ str, c ∈ chars
  | [], _ => by simp
  | c :: str, h => by
    unfold findLastNotOf at h
    cases hf : findLastNotOf chars str with
    | some pos =>
      rw [hf] at h
      cases h
    | none =>
      rw [hf] at h
      refine List.forall_mem_cons.mpr ⟨?_, findLastNotOf_eq_none hf⟩
      by_cases hc : c ∈ chars
      · exact hc
      · simp [hc] at h

theorem findLastNotOf_eq_some {chars : Str} : ∀ {str : Str} {pos : ℕ}, findLastNotOf chars str = some pos →
    ∃ before c behind, str = before ++ c :: behind ∧ before.length = pos ∧ c ∉ chars ∧
      ∀ a ∈ behind, a ∈ chars
  | c :: str, pos, h => by
    unfold findLastNotOf at h
    cases hf : findLastNotOf chars str with
    | some p =>
      rw [hf] at h
      cases h
      obtain ⟨before, a, behind, rfl, rfl, ha, hb⟩ := findLastNotOf_eq_some hf
      exact ⟨c :: before, a, behind, rfl, rfl, ha, hb⟩
    | none =>
      rw [hf] at h
      by_cases hc : c ∈ chars
      · simp [hc] at h
      · simp only [if_neg hc] at h
        cases h
        exact ⟨[], c, str, rfl, rfl, hc, findLastNotOf_eq_none hf⟩

/-- What `chomp` comes to: all up to the last character that is no newline, or
the text as it is when there is none. -/
theorem chomp_cases (str : Str) :
    (∃ before c n, str = before ++ c :: List.replicate n '\n' ∧ c ≠ '\n' ∧ chomp str = before ++ [c]) ∨
      (∃ n, str = List.replicate n '\n' ∧ chomp str = str) := by
  unfold chomp
  cases hf : findLastNotOf ['\n'] str with
  | some pos =>
    obtain ⟨before, c, behind, rfl, rfl, hc, hb⟩ := findLastNotOf_eq_some hf
    have hbehind : behind = List.replicate behind.length '\n' :=
      List.eq_replicate_iff.mpr ⟨rfl, fun a ha => List.mem_singleton.mp (hb a ha)⟩
    refine .inl ⟨before, c, behind.length, by rw [← hbehind], by simpa using hc, ?_⟩
    rw [← List.singleton_append, ← List.append_assoc]
    exact List.take_left' (List.length_append.trans rfl)
  | none =>
    refine .inr ⟨str.length, List.eq_replicate_iff.mpr ⟨rfl, fun a ha => ?_⟩, rfl⟩
    exact List.mem_singleton.mp (findLastNotOf_eq_none hf a ha)

theorem chomp_of_getLast {before : Str} {c : Char} (hc : c ≠ '\n') : chomp (before ++ [c]) = before ++ [c] := by
  rcases chomp_cases (before ++ [c]) with ⟨before', c', n, hs, hc', he⟩ | ⟨n, -, he⟩
  · cases n with
    | zero => rw [he, hs]; rfl
    | succ n =>
      rw [List.replicate_succ', ← List.cons_append, ← List.append_assoc] at hs
      exact absurd (List.append_inj_right' hs rfl) (by simpa using hc)
  · exact he

/-- Chomping twice is chomping once. -/
theorem chomp_chomp (str : Str) : chomp (chomp str) = chomp str := by
  rcases chomp_cases str with ⟨before, c, n, -, hc, he⟩ | ⟨n, -, he⟩
  · rw [he, chomp_of_getLast hc]
  · rw [he, he]

/-- A text is chomped exactly when it is empty or has a character that is no
newline; newlines alone stay. -/
theorem chomped_chomp_iff (str : Str) : Chomped str (chomp str) ↔ HasText str := by
  rcases chomp_cases str with ⟨before, c, n, rfl, hc, he⟩ | ⟨n, rfl, he⟩
  · rw [he]
    refine iff_of_true ⟨⟨n, by simp⟩, by simpa using hc⟩ (.inr ⟨c, by simp, hc⟩)
  · rw [he]
    cases n with
    | zero => exact iff_of_true ⟨⟨0, rfl⟩, by simp⟩ (.inl rfl)
    | succ n =>
      refine iff_of_false (fun h => h.2 (by simp [List.replicate_succ'])) ?_
      rintro (h | ⟨c, hm, hc⟩)
      · cases h
      · exact hc (List.eq_of_mem_replicate hm)

/-- A password ends in a newline exactly when nothing else was read. -/
theorem getLast?_chomp_ne_iff (str : Str) : (chomp str).getLast? ≠ some '\n' ↔ HasText str := by
  refine ⟨fun h => ?_, fun h => ((chomped_chomp_iff str).mpr h).2⟩
  rcases chomp_cases str with ⟨before, c, n, rfl, hc, -⟩ | ⟨n, rfl, he⟩
  · exact .inr ⟨c, by simp, hc⟩
  · cases n with
    | zero => exact .inl rfl
    | succ n =>
      rw [he] at h
      exact absurd (by simp [List.replicate_succ']) h

theorem chomp_eq_nil_iff (str : Str) : chomp str = [] ↔ str = [] := by
  rcases chomp_cases str with ⟨before, c, n, rfl, -, he⟩ | ⟨n, -, he⟩
  · rw [he]
    exact iff_of_false (by simp) (by simp)
  · rw [he]

end Fuse3P7zip
