/-
# Words of a shell command

The token recognition of POSIX `sh`, a character at a time, for a command
line that is one simple command of words: a line with an operator in it, an
expansion by `$` or a backquote, a second command or a quote that is left
open is none. A word keeps which of its characters were quoted, which is
what reserved words, assignments and patterns depend on; what a pattern
matches is a parameter.

Every character of a line is in a word or was dropped (`count_run`). So
where the words have everything but one blank and a pair of quotes, nothing
else was special: `runs_iff` has this for a text in front of a quoted one.
-/
import Mathlib.Data.List.Count
import Mathlib.Tactic.SplitIfs

namespace Shell

/-- A word: its characters, and whether each was quoted. -/
abbrev Word := List (Char × Bool)

def Word.text (w : Word) : List Char := w.map Prod.fst

def unquoted (s : List Char) : Word := s.map (·, false)

def quoted (s : List Char) : Word := s.map (·, true)

/-- Where in the quoting the next character is. -/
inductive Mode where
  | plain
  | escape
  | single
  | double
  | doubleEscape
  | comment
  deriving DecidableEq, Repr

/-- The words that are finished, the one that is not, and whether a newline has
ended the command. -/
structure State where
  done : List Word
  cur : Option Word
  mode : Mode
  ended : Bool
  deriving DecidableEq

namespace State

def start : State := ⟨[], none, .plain, false⟩

/-- More of the current word, or a new one; a word behind the end of the
command is one of a second command. -/
def extend (s : State) (w : Word) : Option State :=
  if s.ended then none else some { s with cur := some (s.cur.getD [] ++ w) }

def endWord (s : State) : State := { s with done := s.done ++ s.cur.toList, cur := none }

def endLine (s : State) : State :=
  { s.endWord with ended := !s.endWord.done.isEmpty }

def into (s : State) (mode : Mode) : State := { s with mode := mode }

end State

/-- The characters that end a word and are operators, or begin one. -/
def operators : List Char := ['&', '|', ';', '<', '>', '(', ')']

/-- The characters an expansion begins with. -/
def expansions : List Char := ['$', '\x60']

/-- The characters a backslash quotes between double quotes. -/
def escapable : List Char := ['$', '\x60', '"', '\\']

/-- One character. -/
def step (s : State) (c : Char) : Option State :=
  match s.mode with
  | .plain =>
    if c = ' ' ∨ c = '\t' then some s.endWord
    else if c = '\n' then some s.endLine
    else if c ∈ operators ∨ c ∈ expansions then none
    else if c = '\\' then some (s.into .escape)
    else if c = '\'' then (s.extend []).map (·.into .single)
    else if c = '"' then (s.extend []).map (·.into .double)
    else if s.cur = none ∧ c = '#' then some (s.into .comment)
    else if s.cur = none ∧ c = '~' then none
    else s.extend [(c, false)]
  | .escape =>
    if c = '\n' then some (s.into .plain) else (s.extend [(c, true)]).map (·.into .plain)
  | .single => if c = '\'' then some (s.into .plain) else s.extend [(c, true)]
  | .double =>
    if c = '"' then some (s.into .plain)
    else if c = '\\' then some (s.into .doubleEscape)
    else if c ∈ expansions then none
    else s.extend [(c, true)]
  | .doubleEscape =>
    if c = '\n' then some (s.into .double)
    else if c ∈ escapable then (s.extend [(c, true)]).map (·.into .double)
    else (s.extend [('\\', true), (c, true)]).map (·.into .double)
  | .comment => if c = '\n' then some (s.endLine.into .plain) else some s

def run : State → List Char → Option State
  | s, [] => some s
  | s, c :: line => do
    let s ← step s c
    run s line

/-- The words of a line. -/
def words (line : List Char) : Option (List Word) := do
  let s ← run .start line
  if s.mode = .plain ∨ s.mode = .comment then some s.endWord.done else none

def reserved : List String :=
  ["!", "\x7b", "\x7d", "case", "do", "done", "elif", "else", "esac", "fi", "for", "if", "in", "then", "until", "while"]

def isReserved (w : Word) : Bool := reserved.any fun r => w == unquoted r.toList

def isNameChar (c : Char) : Bool := c.isAlphanum || c == '_'

/-- A name, and an equals sign that is not quoted. -/
def isAssignment (w : Word) : Bool :=
  let name := w.takeWhile fun c => isNameChar c.1 && !c.2
  (w[name.length]? == some ('=', false)) && (name.head?.any fun c => !c.1.isDigit)

/-- The words of a line that is one simple command of words. -/
def command (line : List Char) : Option (List Word) := do
  let ws ← words line
  if ws.head?.any fun w => isReserved w || isAssignment w then none else some ws

/-- The word has a character of a pattern that is not quoted. -/
def hasPattern (w : Word) : Bool := w.any fun c => !c.2 && ['*', '?', '['].contains c.1

/-- The fields a word comes to: what it matches, if it has a pattern in it that
matches something, and itself otherwise. -/
def fields (pathnames : Word → List (List Char)) (w : Word) : List (List Char) :=
  if hasPattern w ∧ pathnames w ≠ [] then pathnames w else [w.text]

/-- The command gets exactly these words. -/
def Runs (pathnames : Word → List (List Char)) (line : List Char) (texts : List (List Char)) : Prop :=
  ∃ ws, command line = some ws ∧ List.Forall₂ (fun w s => w.text = s ∧ fields pathnames w = [s]) ws texts

/-! ### What is in the words -/

/-- The text of the words so far. -/
def State.inWords (s : State) : List Char := (s.done ++ s.cur.toList).flatMap Word.text

/-- A backslash that may still be one of a word. -/
def held : Mode → List Char
  | .doubleEscape => ['\\']
  | _ => []

def State.text (s : State) : List Char := s.inWords ++ held s.mode

/-- The characters that the step takes off the line for good. -/
def drops (s : State) (c : Char) : List Char :=
  match s.mode with
  | .plain => if c ∈ [' ', '\t', '\n', '\\', '\'', '"'] ∨ (s.cur = none ∧ c = '#') then [c] else []
  | .escape => if c = '\n' then [c] else []
  | .single => if c = '\'' then [c] else []
  | .double => if c = '"' then [c] else []
  | .doubleEscape =>
    if c = '\n' then ['\\', c] else if c ∈ escapable then ['\\'] else []
  | .comment => [c]

/-- All that a line loses. -/
def dropped : State → List Char → List Char
  | _, [] => []
  | s, c :: line =>
    drops s c ++ match step s c with
      | some s' => dropped s' line
      | none => []

/-- A character that is nothing but itself inside a word. -/
def Ordinary (c : Char) : Prop :=
  c ∉ [' ', '\t', '\n', '\\', '\'', '"'] ∧ c ∉ operators ∧ c ∉ expansions

instance (c : Char) : Decidable (Ordinary c) := inferInstanceAs (Decidable (_ ∧ _ ∧ _))

theorem extend_eq_some {s s' : State} {w : Word} (h : s.extend w = some s') :
    s.ended = false ∧ s' = { s with cur := some (s.cur.getD [] ++ w) } := by
  unfold State.extend at h
  split_ifs at h with he
  cases h
  exact ⟨by simpa using he, rfl⟩

theorem inWords_extend {s s' : State} {w : Word} (h : s.extend w = some s') :
    s'.inWords = s.inWords ++ w.text ∧ s'.mode = s.mode := by
  obtain ⟨-, rfl⟩ := extend_eq_some h
  refine ⟨?_, rfl⟩
  unfold State.inWords Word.text
  cases s.cur <;> simp

@[simp] theorem inWords_endWord (s : State) : s.endWord.inWords = s.inWords := by
  simp [State.endWord, State.inWords]

@[simp] theorem inWords_endLine (s : State) : s.endLine.inWords = s.inWords := inWords_endWord s

@[simp] theorem text_unquoted (s : List Char) : (unquoted s).text = s := by
  rw [Word.text, unquoted, List.map_map]
  exact List.map_id s

@[simp] theorem text_quoted (s : List Char) : (quoted s).text = s := by
  rw [Word.text, quoted, List.map_map]
  exact List.map_id s

/-- More of a word, and another mode. -/
theorem inWords_extend_into {s s' : State} {w : Word} {mode : Mode}
    (h : (s.extend w).map (·.into mode) = some s') :
    s'.inWords = s.inWords ++ w.text ∧ s'.mode = mode := by
  obtain ⟨s1, h1, rfl⟩ := Option.map_eq_some_iff.mp h
  exact ⟨(inWords_extend h1).1, rfl⟩

/-- What a character outside of all quotes does: a blank ends the word, a quote
opens, another special one is dropped, and an ordinary one goes into the word. -/
theorem step_plain {s s' : State} {c : Char} (hm : s.mode = .plain) (h : step s c = some s') :
    (c = ' ' ∧ drops s c = [c] ∧ s' = s.endWord) ∨
    (c = '\'' ∧ drops s c = [c] ∧ s.ended = false ∧
      s' = { s with cur := some (s.cur.getD []), mode := .single }) ∨
    (c ≠ ' ' ∧ c ≠ '\'' ∧ drops s c = [c] ∧ s'.inWords = s.inWords ∧ held s'.mode = []) ∨
    (Ordinary c ∧ drops s c = [] ∧ (s.cur = none → c ≠ '#' ∧ c ≠ '~') ∧ s.ended = false ∧
      s' = { s with cur := some (s.cur.getD [] ++ [(c, false)]) }) := by
  unfold step at h
  unfold drops
  simp only [hm] at h ⊢
  split_ifs at h with h1 h2 h3 h4 h5 h6 h7 h8
  · cases h
    obtain rfl | rfl := h1
    · exact .inl ⟨rfl, rfl, rfl⟩
    · refine .inr (.inr (.inl ⟨by decide, by decide, rfl, inWords_endWord s, ?_⟩))
      show held s.mode = []
      rw [hm]
      rfl
  · cases h
    subst h2
    refine .inr (.inr (.inl ⟨by decide, by decide, rfl, inWords_endLine s, ?_⟩))
    show held s.mode = []
    rw [hm]
    rfl
  · cases h
    subst h4
    exact .inr (.inr (.inl ⟨by decide, by decide, rfl, rfl, rfl⟩))
  · subst h5
    obtain ⟨s1, h1, rfl⟩ := Option.map_eq_some_iff.mp h
    obtain ⟨he, rfl⟩ := extend_eq_some h1
    refine .inr (.inl ⟨rfl, rfl, he, ?_⟩)
    simp [State.into]
  · subst h6
    obtain ⟨hw, hmode⟩ := inWords_extend_into h
    refine .inr (.inr (.inl ⟨by decide, by decide, rfl, ?_, by rw [hmode]; rfl⟩))
    rw [hw]
    exact List.append_nil _
  · cases h
    refine .inr (.inr (.inl ⟨?_, h5, if_pos (.inr h7), rfl, rfl⟩))
    rw [h7.2]
    decide
  · obtain ⟨he, rfl⟩ := extend_eq_some h
    have hord : c ∉ [' ', '\t', '\n', '\\', '\'', '"'] := by
      simp only [List.mem_cons, List.not_mem_nil, or_false, not_or]
      exact ⟨fun h => h1 (.inl h), fun h => h1 (.inr h), h2, h4, h5, h6⟩
    refine .inr (.inr (.inr ⟨⟨hord, fun h => h3 (.inl h), fun h => h3 (.inr h)⟩, ?_, ?_, he, by rw [hm]⟩))
    · exact if_neg fun h => h.elim hord h7
    · exact fun hc => ⟨fun h => h7 ⟨hc, h⟩, fun h => h8 ⟨hc, h⟩⟩

/-- A step puts its character into the words or drops it. -/
theorem count_step {s s' : State} {c : Char} (h : step s c = some s') (a : Char) :
    s'.text.count a + (drops s c).count a = s.text.count a + [c].count a := by
  unfold State.text
  cases hm : s.mode with
  | plain =>
    obtain ⟨-, hd, rfl⟩ | ⟨-, hd, -, rfl⟩ | ⟨-, -, hd, hw, hmode⟩ | ⟨-, hd, -, -, rfl⟩ := step_plain hm h
    · simp [hd, State.endWord, hm, State.inWords, held]
    · cases hc : s.cur <;> simp [hd, State.inWords, hc, Word.text, held]
    · rw [hmode, hd, hw]
      rfl
    · cases hc : s.cur <;>
        simp [hd, hm, State.inWords, hc, Word.text, held, List.count_append, Nat.add_assoc]
  | escape =>
    simp only [step, hm] at h
    simp only [drops, hm]
    split_ifs at h ⊢
    · cases h
      rfl
    · obtain ⟨hw, hmode⟩ := inWords_extend_into h
      simp [hw, hmode, Word.text, held]
  | single =>
    simp only [step, hm] at h
    simp only [drops, hm]
    split_ifs at h ⊢
    · cases h
      rfl
    · obtain ⟨hw, hmode⟩ := inWords_extend h
      simp [hw, hmode, hm, Word.text, held]
  | double =>
    simp only [step, hm] at h
    simp only [drops, hm]
    split_ifs at h ⊢ with h1 h2
    · cases h
      rfl
    · cases h
      rw [h2]
      simp [State.into, held, State.inWords, Nat.add_assoc]
    · obtain ⟨hw, hmode⟩ := inWords_extend h
      simp [hw, hmode, hm, Word.text, held]
  | doubleEscape =>
    simp only [step, hm] at h
    simp only [drops, hm]
    split_ifs at h ⊢ with h1 h2
    · cases h
      simp only [State.into, held, State.inWords, List.append_nil, List.count_append,
        ← List.singleton_append (l := [c])]
      omega
    · obtain ⟨hw, hmode⟩ := inWords_extend_into h
      simp only [hw, hmode, Word.text, held, List.count_append, List.map_cons, List.map_nil, List.append_nil]
      omega
    · obtain ⟨hw, hmode⟩ := inWords_extend_into h
      simp [hw, hmode, Word.text, held, ← List.count_append]
  | comment =>
    simp only [step, hm] at h
    simp only [drops, hm]
    split_ifs at h
    · cases h
      simp [State.into, held, State.inWords, State.endLine, State.endWord]
    · cases h
      simp [hm]

/-! ### Runs -/

theorem run_append : ∀ (line line' : List Char) (s : State),
    run s (line ++ line') = (run s line).bind fun s' => run s' line'
  | [], _, _ => rfl
  | c :: line, line', s => by
    rw [List.cons_append, run, run]
    cases step s c with
    | none => rfl
    | some s1 => exact run_append line line' s1

theorem dropped_append : ∀ {line : List Char} (line' : List Char) {s s' : State}, run s line = some s' →
    dropped s (line ++ line') = dropped s line ++ dropped s' line'
  | [], _, _, _, h => by
    cases h
    rfl
  | c :: line, line', s, s', h => by
    obtain ⟨s1, h1, hrun⟩ := Option.bind_eq_some_iff.mp h
    rw [List.cons_append, dropped, dropped, h1, List.append_assoc]
    simp only [dropped_append line' hrun]

/-- A line is in the words and in what was dropped. -/
theorem count_run (a : Char) : ∀ {line : List Char} {s s' : State}, run s line = some s' →
    s'.text.count a + (dropped s line).count a = s.text.count a + line.count a
  | [], _, _, h => by
    cases h
    rfl
  | c :: line, s, s', h => by
    obtain ⟨s1, h1, hrun⟩ := Option.bind_eq_some_iff.mp h
    have hstep := count_step h1 a
    have ih := count_run a hrun
    rw [dropped, h1, List.count_append]
    simp only [List.count_cons, List.count_nil] at hstep ⊢
    omega

/-- Where nothing but blanks and quotes is dropped, the quotes are those that
are dropped, and the modes are those of no quotes and of single ones. -/
theorem count_quote : ∀ {line : List Char} {s s' : State}, run s line = some s' →
    (s.mode = .plain ∨ s.mode = .single) → (∀ a ∈ dropped s line, a = ' ' ∨ a = '\'') →
    (dropped s line).count '\'' = line.count '\''
  | [], _, _, _, _, _ => rfl
  | c :: line, s, s', h, hm, hd => by
    obtain ⟨s1, h1, hrun⟩ := Option.bind_eq_some_iff.mp h
    rw [dropped, h1] at hd ⊢
    simp only [List.mem_append] at hd
    have hd1 : ∀ a ∈ drops s c, a = ' ' ∨ a = '\'' := fun a ha => hd a (.inl ha)
    have hstep : (s1.mode = .plain ∨ s1.mode = .single) ∧ (drops s c).count '\'' = [c].count '\'' := by
      obtain hm | hm := hm
      · obtain ⟨-, he, rfl⟩ | ⟨-, he, -, rfl⟩ | ⟨hb, hq, he, -⟩ | ⟨ho, he, -, -, rfl⟩ := step_plain hm h1
        · exact ⟨.inl hm, by rw [he]⟩
        · exact ⟨.inr rfl, by rw [he]⟩
        · have := hd1 c (by rw [he]; exact List.mem_cons_self)
          exact absurd this (not_or.mpr ⟨hb, hq⟩)
        · have hc : c ≠ '\'' := fun hc => ho.1 (by rw [hc]; decide)
          exact ⟨.inl hm, by simp [he, hc]⟩
      · simp only [step, hm] at h1
        simp only [drops, hm]
        split_ifs at h1 ⊢ with hc
        · cases h1
          exact ⟨.inl rfl, rfl⟩
        · exact ⟨.inr (by rw [(inWords_extend h1).2, hm]), by simp [hc]⟩
    have ih := count_quote hrun hstep.1 fun a ha => hd a (.inr ha)
    rw [List.count_append, hstep.2, ih, ← List.count_append]
    rfl

/-- Ordinary characters go on with a word. -/
theorem run_ordinary (done : List Word) : ∀ {line : List Char} (w : Word), (∀ c ∈ line, Ordinary c) →
    run ⟨done, some w, .plain, false⟩ line = some ⟨done, some (w ++ unquoted line), .plain, false⟩
  | [], w, _ => by
    rw [run, unquoted, List.map_nil, List.append_nil]
  | c :: line, w, ho => by
    obtain ⟨⟨hs, hop, hex⟩, ho⟩ := List.forall_mem_cons.mp ho
    have hstep : step ⟨done, some w, .plain, false⟩ c = some ⟨done, some (w ++ [(c, false)]), .plain, false⟩ := by
      simp only [List.mem_cons, List.not_mem_nil, or_false, not_or] at hs
      unfold step
      simp [hs, hop, hex, State.extend]
    rw [run, hstep]
    show run _ line = _
    rw [run_ordinary done _ ho]
    simp [unquoted]

/-- Between single quotes, everything but a quote goes on with a word. -/
theorem run_single (done : List Word) : ∀ {line : List Char} (w : Word), '\'' ∉ line →
    run ⟨done, some w, .single, false⟩ line = some ⟨done, some (w ++ quoted line), .single, false⟩
  | [], w, _ => by
    rw [run, quoted, List.map_nil, List.append_nil]
  | c :: line, w, hq => by
    obtain ⟨hc, hq⟩ := List.ne_and_not_mem_of_not_mem_cons hq
    have hstep : step ⟨done, some w, .single, false⟩ c = some ⟨done, some (w ++ [(c, true)]), .single, false⟩ := by
      unfold step
      simp [hc.symm, State.extend]
    rw [run, hstep]
    show run _ line = _
    rw [run_single done _ hq]
    simp [quoted]

/-- A text without quotes that loses nothing but blanks leaves no quoting behind. -/
theorem mode_of_run : ∀ {line : List Char} {s s' : State}, run s line = some s' → s.mode = .plain →
    '\'' ∉ line → (∀ a ∈ dropped s line, a = ' ' ∨ a = '\'') → s'.mode = .plain
  | [], _, _, h, hm, _, _ => by
    cases h
    exact hm
  | c :: line, s, s', h, hm, hq, hd => by
    obtain ⟨s1, h1, hrun⟩ := Option.bind_eq_some_iff.mp h
    obtain ⟨hc, hq⟩ := List.ne_and_not_mem_of_not_mem_cons hq
    rw [dropped, h1] at hd
    have hds : ∀ a ∈ dropped s1 line, a = ' ' ∨ a = '\'' := fun a ha => hd a (List.mem_append_right _ ha)
    obtain ⟨-, -, rfl⟩ | ⟨hc', -⟩ | ⟨hb, hc', he, -⟩ | ⟨-, -, -, -, rfl⟩ := step_plain hm h1
    · exact mode_of_run hrun hm hq hds
    · exact absurd hc'.symm hc
    · have := hd c (List.mem_append_left _ (by rw [he]; exact List.mem_cons_self))
      exact absurd this (not_or.mpr ⟨hb, hc'⟩)
    · exact mode_of_run hrun hm hq hds

/-- One that loses nothing is all ordinary, and begins a word with a character
that can. -/
theorem ordinary_of_run : ∀ {line : List Char} {s s' : State}, run s line = some s' → s.mode = .plain →
    '\'' ∉ line → dropped s line = [] → (∀ c ∈ line, Ordinary c) ∧
      (s.cur = none → line.head? ≠ some '#' ∧ line.head? ≠ some '~')
  | [], _, _, _, _, _, _ => by simp
  | c :: line, s, s', h, hm, hq, hd => by
    obtain ⟨s1, h1, hrun⟩ := Option.bind_eq_some_iff.mp h
    obtain ⟨-, hq⟩ := List.ne_and_not_mem_of_not_mem_cons hq
    rw [dropped, h1] at hd
    obtain ⟨hd, hds⟩ := List.append_eq_nil_iff.mp hd
    obtain ⟨-, he, -⟩ | ⟨-, he, -⟩ | ⟨-, -, he, -⟩ | ⟨ho, -, hhead, -, rfl⟩ := step_plain hm h1
    · rw [he] at hd
      cases hd
    · rw [he] at hd
      cases hd
    · rw [he] at hd
      cases hd
    · refine ⟨List.forall_mem_cons.mpr ⟨ho, (ordinary_of_run hrun hm hq hds).1⟩, fun hc => ?_⟩
      simpa using hhead hc

/-! ### A text and a quoted one -/

/-- A text that is one word as it stands. -/
def IsPlain (s : List Char) : Prop :=
  s ≠ [] ∧ (∀ c ∈ s, Ordinary c) ∧ s.head? ≠ some '#' ∧ s.head? ≠ some '~'

instance (s : List Char) : Decidable (IsPlain s) := inferInstanceAs (Decidable (_ ∧ _ ∧ _ ∧ _))

theorem run_plain {s : List Char} (h : IsPlain s) :
    run .start s = some ⟨[], some (unquoted s), .plain, false⟩ := by
  obtain ⟨h0, ho, hh, ht⟩ := h
  obtain ⟨c, l, rfl⟩ := List.exists_cons_of_ne_nil h0
  obtain ⟨⟨hs, hop, hex⟩, ho⟩ := List.forall_mem_cons.mp ho
  have hc1 : c ≠ '#' := fun h => hh (by rw [h]; rfl)
  have hc2 : c ≠ '~' := fun h => ht (by rw [h]; rfl)
  have hstep : step .start c = some ⟨[], some [(c, false)], .plain, false⟩ := by
    simp only [List.mem_cons, List.not_mem_nil, or_false, not_or] at hs
    unfold step
    simp [State.start, hs, hop, hex, hc1, hc2, State.extend]
  rw [run, hstep]
  exact run_ordinary [] _ ho

/-- A plain text and a quoted one without quotes are the two words. -/
theorem words_of_plain {s t : List Char} (hs : IsPlain s) (ht : '\'' ∉ t) :
    words (s ++ ' ' :: '\'' :: (t ++ ['\''])) = some [unquoted s, quoted t] := by
  have hopen : run ⟨[], some (unquoted s), .plain, false⟩ [' ', '\''] =
      some ⟨[unquoted s], some [], .single, false⟩ := rfl
  have hrun : run .start (s ++ ([' ', '\''] ++ (t ++ ['\'']))) =
      some ⟨[unquoted s], some (quoted t), .plain, false⟩ := by
    calc run .start (s ++ ([' ', '\''] ++ (t ++ ['\''])))
        = run ⟨[], some (unquoted s), .plain, false⟩ ([' ', '\''] ++ (t ++ ['\''])) := by
          rw [run_append, run_plain hs, Option.bind_some]
      _ = run ⟨[unquoted s], some [], .single, false⟩ (t ++ ['\'']) := by
          rw [run_append, hopen, Option.bind_some]
      _ = run ⟨[unquoted s], some (quoted t), .single, false⟩ ['\''] := by
          rw [run_append, run_single _ _ ht, Option.bind_some]
          rfl
      _ = some ⟨[unquoted s], some (quoted t), .plain, false⟩ := rfl
  unfold words
  rw [show s ++ ' ' :: '\'' :: (t ++ ['\'']) = s ++ ([' ', '\''] ++ (t ++ ['\''])) from rfl, hrun]
  rfl

/-- What the line loses, if the two texts are its words. -/
theorem dropped_of_words {s t : List Char} {v w : Word}
    (h : words (s ++ ' ' :: '\'' :: (t ++ ['\''])) = some [v, w]) (hv : v.text = s) (hw : w.text = t)
    (a : Char) : (dropped .start (s ++ ' ' :: '\'' :: (t ++ ['\'']))).count a =
      [' ', '\'', '\''].count a := by
  obtain ⟨last, hrun, hfin⟩ := Option.bind_eq_some_iff.mp h
  split_ifs at hfin with hm
  have hdone : last.done ++ last.cur.toList = [v, w] := Option.some.inj hfin
  have htext : last.text = s ++ t := by
    have hheld : held last.mode = [] := by
      obtain hm | hm := hm <;> rw [hm] <;> rfl
    unfold State.text State.inWords
    rw [hheld, hdone]
    simp [hv, hw]
  have hcount := count_run a hrun
  have hstart : State.start.text = [] := rfl
  rw [htext, hstart] at hcount
  simp only [List.count_append, List.count_cons, List.count_nil] at hcount ⊢
  omega

/-- The blank behind the first text is the only one that is dropped. -/
theorem dropped_of_blank {s rest : List Char} {last : State} (hrun : run .start (s ++ ' ' :: rest) = some last)
    (hq : '\'' ∉ s) (hmem : ∀ a ∈ dropped .start (s ++ ' ' :: rest), a = ' ' ∨ a = '\'')
    (hone : (dropped .start (s ++ ' ' :: rest)).count ' ' = 1) :
    ∃ s1, run .start s = some s1 ∧ dropped .start s = [] := by
  rw [run_append] at hrun
  obtain ⟨s1, hr1, hr2⟩ := Option.bind_eq_some_iff.mp hrun
  rw [dropped_append _ hr1] at hmem hone
  have hmem1 : ∀ a ∈ dropped .start s, a = ' ' ∨ a = '\'' := fun a ha =>
    hmem a (List.mem_append_left _ ha)
  have hm := mode_of_run hr1 rfl hq hmem1
  obtain ⟨s2, h2, -⟩ := Option.bind_eq_some_iff.mp hr2
  have hblank : drops s1 ' ' = [' '] := by
    obtain ⟨-, he, -⟩ | ⟨-, he, -⟩ | ⟨-, -, he, -⟩ | ⟨ho, -⟩ := step_plain hm h2
    · exact he
    · exact he
    · exact he
    · exact absurd ho (by decide)
  rw [dropped, hblank, List.count_append, List.count_append] at hone
  refine ⟨s1, hr1, List.eq_nil_iff_forall_not_mem.mpr fun a ha => ?_⟩
  obtain rfl | rfl := hmem1 a ha
  · have hpos := List.count_pos_iff.mpr ha
    simp at hone
    omega
  · have hpos := List.count_pos_iff.mpr ha
    rw [count_quote hr1 (.inl rfl) hmem1] at hpos
    exact hq (List.count_pos_iff.mp hpos)

/-- Only where the first is plain and the second has no quote are the two texts
the words. -/
theorem plain_of_words {s t : List Char} {v w : Word}
    (h : words (s ++ ' ' :: '\'' :: (t ++ ['\''])) = some [v, w]) (hv : v.text = s) (hw : w.text = t) :
    IsPlain s ∧ '\'' ∉ t := by
  have hcount := dropped_of_words h hv hw
  obtain ⟨last, hrun, -⟩ := Option.bind_eq_some_iff.mp h
  have hmem : ∀ a ∈ dropped .start (s ++ ' ' :: '\'' :: (t ++ ['\''])), a = ' ' ∨ a = '\'' := by
    intro a ha
    have hpos : 0 < [' ', '\'', '\''].count a := by
      rw [← hcount]
      exact List.count_pos_iff.mpr ha
    simpa using List.count_pos_iff.mp hpos
  -- every quote is dropped, and two are
  have hquote := count_quote hrun (.inl rfl) hmem
  rw [hcount] at hquote
  simp only [List.count_append, List.count_cons, List.count_nil] at hquote
  have hs : '\'' ∉ s := List.count_eq_zero.mp (by simp at hquote; omega)
  have ht : '\'' ∉ t := List.count_eq_zero.mp (by simp at hquote; omega)
  obtain ⟨s1, hr1, hd⟩ := dropped_of_blank hrun hs hmem (hcount ' ')
  obtain ⟨ho, hhead⟩ := ordinary_of_run hr1 rfl hs hd
  refine ⟨⟨fun h0 => ?_, ho, (hhead rfl).1, (hhead rfl).2⟩, ht⟩
  have hopen : run .start [' ', '\''] = some ⟨[], some [], .single, false⟩ := rfl
  have hone : words ([' ', '\''] ++ (t ++ ['\''])) = some [quoted t] := by
    unfold words
    rw [run_append, hopen, Option.bind_some, run_append, run_single _ _ ht]
    rfl
  rw [h0] at h
  cases hone.symm.trans h

theorem command_eq_some {line : List Char} {ws : List Word} : command line = some ws ↔
    words line = some ws ∧ ∀ w ∈ ws.head?, isReserved w = false ∧ isAssignment w = false := by
  unfold command
  cases words line with
  | none => simp
  | some ws' =>
    simp only [Option.bind_eq_bind, Option.bind_some]
    have hbad : (ws'.head?.any fun w => isReserved w || isAssignment w) = false ↔
        ∀ w ∈ ws'.head?, isReserved w = false ∧ isAssignment w = false := by
      cases ws' <;> simp
    split_ifs with hb
    · refine iff_of_false (by simp) fun h => ?_
      cases h.1
      rw [hbad.mpr h.2] at hb
      cases hb
    · refine ⟨fun h => ⟨h, ?_⟩, fun h => h.1⟩
      cases h
      exact hbad.mp (by simpa using hb)

/-- A word is its only field where it has no pattern, or the pattern matches
nothing else. -/
theorem fields_eq_iff (pathnames : Word → List (List Char)) (w : Word) : fields pathnames w = [w.text] ↔
    (hasPattern w = true → pathnames w = [] ∨ pathnames w = [w.text]) := by
  unfold fields
  by_cases hp : hasPattern w = true
  · by_cases h0 : pathnames w = [] <;> simp [hp, h0]
  · simp [hp]

theorem fields_quoted (pathnames : Word → List (List Char)) (t : List Char) :
    fields pathnames (quoted t) = [t] := by
  have h : hasPattern (quoted t) = false := by simp [hasPattern, quoted]
  unfold fields
  simp [h]

/-- **What a command line of a text and a quoted one runs.** It is one command
with these two words exactly when the first text is plain, no reserved word
and no assignment, and no pattern for anything else, and the second has no
quote in it. -/
theorem runs_iff (pathnames : Word → List (List Char)) (s t : List Char) :
    Runs pathnames (s ++ ' ' :: '\'' :: (t ++ ['\''])) [s, t] ↔
      (IsPlain s ∧ isReserved (unquoted s) = false ∧ isAssignment (unquoted s) = false ∧
        (hasPattern (unquoted s) = true → pathnames (unquoted s) = [] ∨ pathnames (unquoted s) = [s])) ∧
      '\'' ∉ t := by
  have hf := fields_eq_iff pathnames (unquoted s)
  rw [text_unquoted] at hf
  rw [← hf]
  constructor
  · intro ⟨ws, hcmd, hws⟩
    obtain ⟨hwords, hhead⟩ := command_eq_some.mp hcmd
    match ws, hws with
    | [v, w], .cons hv (.cons hw .nil) =>
      obtain ⟨hs, ht⟩ := plain_of_words hwords hv.1 hw.1
      cases (words_of_plain hs ht).symm.trans hwords
      obtain ⟨hr, ha⟩ := hhead _ rfl
      exact ⟨⟨hs, hr, ha, hv.2⟩, ht⟩
  · intro ⟨⟨hs, hr, ha, hfields⟩, ht⟩
    refine ⟨_, command_eq_some.mpr ⟨words_of_plain hs ht, fun w hw => ?_⟩, ?_⟩
    · cases hw
      exact ⟨hr, ha⟩
    · exact .cons ⟨text_unquoted s, hfields⟩ (.cons ⟨text_quoted t, fields_quoted pathnames t⟩ .nil)

end Shell
