/-
# `std::filesystem::path` on a POSIX system

A path is its native text. Comparison, `parent_path` and `filename` go by
its elements: whether the text starts with a slash, and the names between
the slashes, where a slash at the end of a name stands for one more, empty
name (`names`). Nothing is normalised: `.` and `..` are names like others.

Every operation is described by what it does to the names:
`names_parentPath` drops the last one, `names_append` puts the names of a
relative right-hand side behind those of the left-hand side, and `filename`
is the last name.
-/
import Mathlib.Data.Bool.Basic
import Mathlib.Data.Char
import Mathlib.Data.List.DropRight
import Mathlib.Data.List.Lex
import Mathlib.Data.Prod.Lex

/-- A path: its native text. -/
structure FsPath where
  native : List Char
  deriving DecidableEq, Repr

namespace FsPath

/-! ### The elements of a path -/

/-- The non-empty texts between slashes. -/
def pieces (s : List Char) : List (List Char) := (s.splitOn '/').filter (· ≠ [])

/-- `is_absolute`, which on POSIX is `has_root_directory`. -/
def rooted (p : FsPath) : Bool := p.native.head? == some '/'

/-- The elements of the relative path: the pieces, and an empty name for a
slash at their end. -/
def names (p : FsPath) : List (List Char) :=
  if pieces p.native ≠ [] ∧ p.native.getLast? = some '/' then pieces p.native ++ [[]]
  else pieces p.native

/-- What `compare` looks at: a path without a root directory comes first,
then the names decide, in lexicographic order. -/
def elements (p : FsPath) : Bool ×ₗ List (List Char) := toLex (p.rooted, p.names)

/-- The text in front of the last name, without the slashes before it. -/
def front (s : List Char) : List Char := (s.rdropWhile (· ≠ '/')).rdropWhile (· = '/')

/-- The text behind the last slash. -/
def back (s : List Char) : List Char := s.rtakeWhile (· ≠ '/')

/-! ### Operations -/

def empty (p : FsPath) : Bool := p.native.isEmpty

/-- The last name; empty for a path that ends with a slash. -/
def filename (p : FsPath) : FsPath := ⟨p.names.getLast?.getD []⟩

/-- The text up to the end of the last but one element; a path without
names is its own parent. -/
def parentPath (p : FsPath) : FsPath :=
  if p.names = [] then p
  else if front p.native = [] ∧ p.rooted then ⟨['/']⟩
  else ⟨front p.native⟩

/-- `operator/`: an absolute right-hand side replaces the left one, a slash
goes in between when the left one has a file name. -/
def append (p q : FsPath) : FsPath :=
  if q.rooted ∨ p.empty then q
  else if p.filename.empty then ⟨p.native ++ q.native⟩
  else ⟨p.native ++ '/' :: q.native⟩

/-- A file name cut before its extension: the last dot, unless it is the
first character or the name is `.` or `..`. -/
def splitExtension (s : List Char) : List Char × List Char :=
  let stem := s.rdropWhile (· ≠ '.')
  if s.length ≤ 2 ∧ s.head? = some '.' then (s, [])
  else if stem.length ≤ 1 then (s, [])
  else (stem.dropLast, '.' :: s.drop stem.length)

def extension (p : FsPath) : FsPath := ⟨(splitExtension p.filename.native).2⟩

/-- `replace_extension`: the new one gets a dot unless it has one. -/
def replaceExtension (p : FsPath) (ext : List Char) : FsPath :=
  let base := p.native.take (p.native.length - p.extension.native.length)
  if ext = [] then ⟨base⟩
  else if ext.head? = some '.' then ⟨base ++ ext⟩
  else ⟨base ++ '.' :: ext⟩

/-! ### Pieces -/

@[simp] theorem pieces_nil : pieces [] = [] := rfl

theorem pieces_append_sep (a b : List Char) : pieces (a ++ '/' :: b) = pieces a ++ pieces b := by
  simp only [pieces, List.splitOn]
  rw [List.splitOnP_append_cons a b (by simp), List.filter_append]

@[simp] theorem pieces_concat_sep (a : List Char) : pieces (a ++ ['/']) = pieces a := by
  rw [pieces_append_sep, pieces_nil, List.append_nil]

@[simp] theorem pieces_cons_sep (b : List Char) : pieces ('/' :: b) = pieces b := by
  simpa using pieces_append_sep [] b

/-- Slashes at the end make no piece. -/
theorem pieces_append_seps (a : List Char) : ∀ b : List Char, (∀ c ∈ b, c = '/') →
    pieces (a ++ b) = pieces a := by
  intro b
  induction b using List.reverseRecOn with
  | nil => intro _; rw [List.append_nil]
  | append_singleton b c ih =>
    intro h
    obtain rfl := h c (by simp)
    rw [← List.append_assoc, pieces_concat_sep]
    exact ih fun c hc => h c (List.mem_append_left _ hc)

/-- A text without a slash is its own piece. -/
theorem pieces_of_no_sep {s : List Char} (h : '/' ∉ s) : pieces s = if s = [] then [] else [s] := by
  have hs : s.splitOn '/' = [s] := by
    rw [List.splitOn, List.splitOnP_eq_singleton]
    intro c hc
    simpa using fun he : c = '/' => h (he ▸ hc)
  rw [pieces, hs]
  by_cases h0 : s = [] <;> simp [h0]

theorem ne_nil_of_mem_pieces {s n : List Char} (h : n ∈ pieces s) : n ≠ [] := by
  simpa using (List.mem_filter.mp h).2

/-- What holds of every text without a slash, and of two texts with a slash
between them when it holds of both, holds of every text. -/
theorem sep_induction {P : List Char → Prop} (single : ∀ s, '/' ∉ s → P s)
    (join : ∀ a b, P a → P b → P (a ++ '/' :: b)) (s : List Char) : P s := by
  induction hs : s.length using Nat.strong_induction_on generalizing s with
  | _ l ih =>
    by_cases hsep : '/' ∈ s
    · obtain ⟨a, b, rfl⟩ := List.append_of_mem hsep
      rw [List.length_append, List.length_cons] at hs
      exact join a b (ih a.length (by omega) a rfl) (ih b.length (by omega) b rfl)
    · exact single s hsep

theorem sep_not_mem_of_mem_pieces {s n : List Char} (h : n ∈ pieces s) : '/' ∉ n := by
  induction s using sep_induction with
  | single s hs =>
    rw [pieces_of_no_sep hs] at h
    split_ifs at h
    · cases h
    · rw [List.mem_singleton.mp h]; exact hs
  | join a b iha ihb =>
    rw [pieces_append_sep] at h
    exact (List.mem_append.mp h).elim iha ihb

/-- Only slashes make no piece. -/
theorem pieces_eq_nil {s : List Char} (h : pieces s = []) : ∀ c ∈ s, c = '/' := by
  induction s using sep_induction with
  | single s hs =>
    rw [pieces_of_no_sep hs] at h
    split_ifs at h with h0
    · rw [h0]; intro c hc; cases hc
  | join a b iha ihb =>
    rw [pieces_append_sep, List.append_eq_nil_iff] at h
    intro c hc
    rcases List.mem_append.mp hc with hc | hc
    · exact iha h.1 c hc
    · exact (List.mem_cons.mp hc).elim id (ihb h.2 c)

theorem pieces_ne_nil_of_head {s : List Char} (h0 : s ≠ []) (h : s.head? ≠ some '/') :
    pieces s ≠ [] := by
  intro hp
  obtain ⟨c, l, rfl⟩ := List.exists_cons_of_ne_nil h0
  exact h (by rw [pieces_eq_nil hp c List.mem_cons_self]; rfl)

/-! ### A text cut before its last name -/

theorem sep_not_mem_back (s : List Char) : '/' ∉ back s := by
  intro h
  simpa using List.mem_rtakeWhile_imp h

/-- A text is its front, slashes, and its back; without slashes in between
the front is empty. -/
theorem front_back (s : List Char) : ∃ t : List Char, (∀ c ∈ t, c = '/') ∧
    s = front s ++ t ++ back s ∧ (t = [] → front s = []) := by
  refine ⟨(s.rdropWhile (· ≠ '/')).rtakeWhile (· = '/'), fun c hc => ?_, ?_, fun ht => ?_⟩
  · simpa using List.mem_rtakeWhile_imp hc
  · rw [front, back, List.rdropWhile_append_rtakeWhile, List.rdropWhile_append_rtakeWhile]
  · by_contra hne
    have h0 : s.rdropWhile (· ≠ '/') ≠ [] := fun h0 => hne (by rw [front, h0]; rfl)
    have h1 := List.rtakeWhile_eq_nil_iff.mp ht h0
    have h2 := List.rdropWhile_last_not (fun c => decide (c ≠ '/')) s h0
    simp only [decide_eq_true_eq, ne_eq, decide_not, Bool.not_eq_eq_eq_not, Bool.not_true,
      decide_eq_false_iff_not, not_not] at h1 h2
    exact h1 h2

theorem getLast?_front (s : List Char) : (front s).getLast? ≠ some '/' := by
  intro h
  obtain ⟨l, hl⟩ := List.getLast?_eq_some_iff.mp h
  have h0 : front s ≠ [] := by rw [hl]; simp
  have h1 := List.rdropWhile_last_not (fun c => decide (c = '/')) (s.rdropWhile (· ≠ '/')) h0
  have h2 : (front s).getLast h0 = '/' := Option.some.inj ((List.getLast?_eq_some_getLast h0).symm.trans h)
  exact h1 (decide_eq_true h2)

theorem pieces_eq (s : List Char) :
    pieces s = pieces (front s) ++ if back s = [] then [] else [back s] := by
  obtain ⟨t, ht, hs, h0⟩ := front_back s
  have hb := pieces_of_no_sep (sep_not_mem_back s)
  rcases List.eq_nil_or_concat t with rfl | ⟨t', c, rfl⟩
  · rw [h0 rfl] at hs
    simp only [List.nil_append] at hs
    rw [h0 rfl, pieces_nil, List.nil_append, ← hb, ← hs]
  · obtain rfl := ht c (by simp)
    conv_lhs => rw [hs]
    rw [List.concat_eq_append, ← List.append_assoc, List.append_assoc, List.singleton_append,
      pieces_append_sep, hb, pieces_append_seps _ t' fun c hc => ht c (by simp [hc])]

theorem getLast?_eq_sep_iff (s : List Char) : s.getLast? = some '/' ↔ s ≠ [] ∧ back s = [] := by
  constructor
  · intro h
    obtain ⟨l, rfl⟩ := List.getLast?_eq_some_iff.mp h
    exact ⟨by simp, by rw [back, List.rtakeWhile_concat_neg _ _ _ (by simp)]⟩
  · rintro ⟨h0, hb⟩
    have h := List.rtakeWhile_eq_nil_iff.mp hb h0
    rw [List.getLast?_eq_some_getLast h0]
    simpa using h

/-! ### Names -/

theorem names_eq_nil_iff (p : FsPath) : p.names = [] ↔ pieces p.native = [] := by
  unfold names
  split_ifs with h
  · simp [h.1]
  · rfl

/-- A path with names: those of its front, and its back. -/
theorem names_eq_front (p : FsPath) (h : p.names ≠ []) :
    p.names = pieces (front p.native) ++ [back p.native] := by
  have hp : pieces p.native ≠ [] := fun h0 => h ((names_eq_nil_iff p).mpr h0)
  have hn : p.native ≠ [] := fun h0 => hp (by rw [h0]; rfl)
  have he := pieces_eq p.native
  unfold names
  by_cases hb : back p.native = []
  · rw [if_pos ⟨hp, (getLast?_eq_sep_iff _).mpr ⟨hn, hb⟩⟩, he, if_pos hb, hb, List.append_nil]
  · rw [if_neg fun h => hb ((getLast?_eq_sep_iff _).mp h.2).2, he, if_neg hb]

/-- A text that does not end with a slash has no empty name. -/
theorem names_of_no_end {s : List Char} (h : s.getLast? ≠ some '/') : names ⟨s⟩ = pieces s := by
  rw [names, if_neg fun h' => h h'.2]

theorem filename_native (p : FsPath) (h : p.names ≠ []) : p.filename.native = back p.native := by
  rw [filename, names_eq_front p h]
  simp

theorem names_parentPath (p : FsPath) : p.parentPath.names = p.names.dropLast := by
  unfold parentPath
  split_ifs with h h0
  · rw [h]; rfl
  · rw [names_eq_front p h, h0.1]; rfl
  · rw [names_of_no_end (getLast?_front _), names_eq_front p h, List.dropLast_concat]

theorem rooted_parentPath (p : FsPath) : p.parentPath.rooted = p.rooted := by
  obtain ⟨t, -, hs, ht⟩ := front_back p.native
  unfold parentPath
  split_ifs with h h0
  · rfl
  · exact h0.2.symm
  · cases hf : front p.native with
    | nil =>
      have hr : p.rooted = false := by
        by_contra hr
        exact h0 ⟨hf, by simpa using hr⟩
      rw [hr]; rfl
    | cons c l =>
      rw [hf] at hs
      rw [rooted, rooted, hs]; rfl

/-- The pieces of a path are its names without the empty one. -/
theorem pieces_eq_filter (p : FsPath) : pieces p.native = p.names.filter (· ≠ []) := by
  have h : (pieces p.native).filter (· ≠ []) = pieces p.native :=
    List.filter_eq_self.mpr fun n hn => by simpa using ne_nil_of_mem_pieces hn
  unfold names
  split_ifs
  · rw [List.filter_append, h]; simp
  · rw [h]

theorem names_eq_pieces_of {p : FsPath} (h : [] ∉ p.names) : p.names = pieces p.native := by
  rw [pieces_eq_filter, List.filter_eq_self.mpr]
  intro n hn
  simpa using fun h0 : n = [] => h (h0 ▸ hn)

theorem sep_not_mem_of_mem_names {p : FsPath} {n : List Char} (h : n ∈ p.names) : '/' ∉ n := by
  unfold names at h
  split_ifs at h
  · rcases List.mem_append.mp h with h | h
    · exact sep_not_mem_of_mem_pieces h
    · rw [List.mem_singleton.mp h]; simp
  · exact sep_not_mem_of_mem_pieces h

/-- Only the last name can be empty. -/
theorem nil_not_mem_of_filename {p : FsPath} (h : p.filename.native ≠ []) : [] ∉ p.names := by
  intro hm
  unfold names at hm
  split_ifs at hm with hc
  · exact h (by rw [filename, names, if_pos hc]; simp)
  · exact ne_nil_of_mem_pieces hm rfl

/-! ### Appending -/

/-- Behind a slash, a non-empty relative text adds its names. -/
theorem names_append_sep (a b : List Char) (h0 : b ≠ []) (h : b.head? ≠ some '/') :
    names ⟨a ++ '/' :: b⟩ = pieces a ++ names ⟨b⟩ := by
  have hb := pieces_ne_nil_of_head h0 h
  have hlast : (a ++ '/' :: b).getLast? = b.getLast? := by
    rw [List.getLast?_append_of_ne_nil _ (by simp), List.getLast?_cons,
      List.getLast?_eq_some_getLast h0]
    rfl
  unfold names
  simp only [pieces_append_sep, hlast]
  by_cases hl : b.getLast? = some '/'
  · rw [if_pos ⟨by simp [hb], hl⟩, if_pos ⟨hb, hl⟩, List.append_assoc]
  · rw [if_neg fun h => hl h.2, if_neg fun h => hl h.2]

theorem empty_filename_iff (p : FsPath) :
    p.filename.empty = true ↔ p.native = [] ∨ p.native.getLast? = some '/' := by
  have key : p.filename.native = back p.native := by
    by_cases h : p.names = []
    · have hb : back p.native = [] := by
        have he := pieces_eq p.native
        rw [(names_eq_nil_iff p).mp h] at he
        by_contra hb
        rw [if_neg hb] at he
        simp at he
      rw [filename, h, hb]; rfl
    · exact filename_native p h
  rw [empty, List.isEmpty_iff, key]
  by_cases h0 : p.native = []
  · rw [h0]; simp [back]
  · rw [getLast?_eq_sep_iff]; simp [h0]

/-- The names of a non-empty relative path go behind the pieces. -/
theorem names_append (p q : FsPath) (hp : p.native ≠ []) (hq : q.native ≠ [])
    (hr : q.rooted = false) : (p.append q).names = pieces p.native ++ q.names := by
  have hq' : q.native.head? ≠ some '/' := by simpa [rooted] using hr
  unfold append
  rw [if_neg (by simp [hr, empty, hp])]
  split_ifs with hf
  · rcases (empty_filename_iff p).mp hf with h | h
    · exact absurd h hp
    · obtain ⟨l, hl⟩ := List.getLast?_eq_some_iff.mp h
      rw [hl, List.append_assoc, List.singleton_append, names_append_sep l q.native hq hq',
        pieces_concat_sep]
  · exact names_append_sep p.native q.native hq hq'

theorem append_of_rooted {p q : FsPath} (h : q.rooted = true) : p.append q = q := by
  rw [append, if_pos (Or.inl h)]

theorem rooted_append {p : FsPath} (q : FsPath) (h : p.rooted = true) :
    (p.append q).rooted = true := by
  have hp : p.native ≠ [] := fun h0 => by rw [rooted, h0] at h; cases h
  obtain ⟨c, l, hl⟩ := List.exists_cons_of_ne_nil hp
  have hc : c = '/' := by
    rw [rooted, hl] at h
    simpa using h
  unfold append
  split_ifs with h1 h2
  · rcases h1 with h1 | h1
    · exact h1
    · rw [empty, List.isEmpty_iff] at h1
      exact absurd h1 hp
  · rw [rooted, hl, hc]; rfl
  · rw [rooted, hl, hc]; rfl

theorem native_ne_nil_of_rooted {p : FsPath} (h : p.rooted = true) : p.native ≠ [] := by
  intro h0
  rw [rooted, h0] at h
  cases h

/-- One more name on a rooted path without an empty one. -/
theorem names_append_name {p : FsPath} {n : List Char} (hp : p.rooted = true) (hn : [] ∉ p.names)
    (h0 : n ≠ []) (hs : '/' ∉ n) : (p.append ⟨n⟩).names = p.names ++ [n] := by
  have hr : rooted ⟨n⟩ = false := by
    cases n with
    | nil => rfl
    | cons c l =>
      have hc : c ≠ '/' := fun h => hs (h ▸ List.mem_cons_self)
      simpa [rooted] using hc
  rw [names_append p ⟨n⟩ (native_ne_nil_of_rooted hp) h0 hr, names_eq_pieces_of hn]
  congr 1
  have hl : n.getLast? ≠ some '/' := by
    intro h
    obtain ⟨l, rfl⟩ := List.getLast?_eq_some_iff.mp h
    exact hs (by simp)
  rw [names_of_no_end hl, pieces_of_no_sep hs, if_neg h0]

/-! ### Comparison -/

theorem elements_eq_iff (p q : FsPath) :
    p.elements = q.elements ↔ p.rooted = q.rooted ∧ p.names = q.names := by
  rw [elements, elements, toLex_inj, Prod.mk.injEq]

/-- The elements of an absolute path with these names. -/
def absolute (ns : List (List Char)) : Bool ×ₗ List (List Char) := toLex (true, ns)

theorem absolute_inj {a b : List (List Char)} : absolute a = absolute b ↔ a = b := by
  rw [absolute, absolute, toLex_inj, Prod.mk.injEq]
  exact and_iff_right rfl

theorem elements_of_rooted {p : FsPath} (h : p.rooted = true) : p.elements = absolute p.names := by
  rw [elements, absolute, h]

theorem elements_eq_absolute_iff (p : FsPath) (ns : List (List Char)) :
    p.elements = absolute ns ↔ p.rooted = true ∧ p.names = ns := by
  rw [elements, absolute, toLex_inj, Prod.mk.injEq]

/-! ### Ancestors -/

theorem rooted_iterate_parentPath (p : FsPath) : ∀ n, (parentPath^[n] p).rooted = p.rooted
  | 0 => rfl
  | n + 1 => by
    rw [Function.iterate_succ_apply', rooted_parentPath, rooted_iterate_parentPath p n]

theorem names_iterate_parentPath (p : FsPath) : ∀ n,
    (parentPath^[n] p).names = p.names.take (p.names.length - n)
  | 0 => by simp
  | n + 1 => by
    rw [Function.iterate_succ_apply', names_parentPath, names_iterate_parentPath p n,
      List.dropLast_eq_take, List.length_take, List.take_take]
    congr 1
    omega

/-- `k` is a proper ancestor of `p`: `parent_path` of `p`, once or more. -/
def IsAncestor (k p : FsPath) : Prop := ∃ n, k.elements = (parentPath^[n + 1] p).elements

/-- Among the paths with names, the proper ancestors of an absolute path are
the proper initial segments of its names. -/
theorem isAncestor_iff {k p : FsPath} (hp : p.rooted = true) (hk : k.names ≠ []) :
    IsAncestor k p ↔ k.rooted = true ∧ k.names <+: p.names ∧ k.names ≠ p.names := by
  constructor
  · rintro ⟨n, h⟩
    obtain ⟨h1, h2⟩ := (elements_eq_iff _ _).mp h
    rw [rooted_iterate_parentPath, hp] at h1
    rw [names_iterate_parentPath] at h2
    have hpos : 0 < p.names.length := by
      rcases Nat.eq_zero_or_pos p.names.length with h0 | h0
      · exact absurd (by rw [h2, h0]; simp) hk
      · exact h0
    refine ⟨h1, h2 ▸ List.take_prefix _ _, fun he => ?_⟩
    have := congrArg List.length (h2.symm.trans he)
    rw [List.length_take] at this
    omega
  · rintro ⟨h1, h2, h3⟩
    have hlt : k.names.length < p.names.length := by
      rcases Nat.lt_or_ge k.names.length p.names.length with h | h
      · exact h
      · exact absurd (h2.eq_of_length_le h) h3
    refine ⟨p.names.length - k.names.length - 1, (elements_eq_iff _ _).mpr ⟨?_, ?_⟩⟩
    · rw [rooted_iterate_parentPath, h1, hp]
    · rw [names_iterate_parentPath, List.prefix_iff_eq_take.mp h2]
      congr 1
      rw [← List.prefix_iff_eq_take.mp h2]
      omega

/-- A path has no more names than characters, and one. -/
theorem length_names_le (p : FsPath) : p.names.length ≤ p.native.length + 1 := by
  have hp : ∀ s : List Char, (pieces s).length ≤ s.length := by
    intro s
    induction s using sep_induction with
    | single s hs =>
      rw [pieces_of_no_sep hs]
      split_ifs with h
      · simp
      · exact List.length_pos_iff.mpr h
    | join a b iha ihb =>
      rw [pieces_append_sep]
      simp only [List.length_append, List.length_cons]
      omega
  have := hp p.native
  unfold names
  split_ifs
  · rw [List.length_append, List.length_singleton]; omega
  · omega

end FsPath
