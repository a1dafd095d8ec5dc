/-
# Reading a text by lines

`fgets` takes what its buffer holds: a line with the newline at its end, or
the part of one that fits. `readAll` is a loop over it: it comes to an end
(`isSome_readAll`), and its pieces are the text again (`flatten_readAll`).
-/
import Mathlib.Data.Nat.Notation

namespace Lines

variable {α : Type} [DecidableEq α] (newline : α)

/-- At most `n` elements, up to a newline, and what is behind them. -/
def line : ℕ → List α → List α × List α
  | 0, text => ([], text)
  | _ + 1, [] => ([], [])
  | n + 1, c :: text =>
    if c = newline then ([c], text)
    else
      let (l, rest) := line n text
      (c :: l, rest)

/-- `fgets` into a buffer of `size`, the last element of which is for the NUL;
nothing at the end of the text. -/
def fgets (size : ℕ) (text : List α) : Option (List α × List α) :=
  if text = [] then none else some (line newline (size - 1) text)

/-- The pieces of at most `fuel` calls that take all of the text. -/
def readAll (size : ℕ) : ℕ → List α → Option (List (List α))
  | 0, _ => none
  | fuel + 1, text =>
    match fgets newline size text with
    | none => some []
    | some (l, rest) => (readAll size fuel rest).map (l :: ·)

theorem line_append : ∀ (n : ℕ) (text : List α),
    (line newline n text).1 ++ (line newline n text).2 = text
  | 0, _ => rfl
  | _ + 1, [] => rfl
  | n + 1, c :: text => by
    unfold line
    split
    · rfl
    · exact congrArg (c :: ·) (line_append n text)

theorem line_ne_nil {n : ℕ} (hn : 0 < n) {text : List α} (h : text ≠ []) : (line newline n text).1 ≠ [] := by
  obtain ⟨n, rfl⟩ := Nat.exists_eq_succ_of_ne_zero (Nat.pos_iff_ne_zero.mp hn)
  obtain ⟨c, text, rfl⟩ := List.exists_cons_of_ne_nil h
  unfold line
  split
  · exact List.cons_ne_nil _ _
  · exact List.cons_ne_nil _ _

theorem fgets_eq_none {size : ℕ} {text : List α} (h : fgets newline size text = none) : text = [] := by
  unfold fgets at h
  split at h
  · assumption
  · cases h

/-- A call takes something off the text. -/
theorem fgets_eq_some {size : ℕ} (hs : 1 < size) {text l rest : List α}
    (h : fgets newline size text = some (l, rest)) : l ≠ [] ∧ l ++ rest = text := by
  unfold fgets at h
  split at h
  · cases h
  · rename_i ht
    have hl := congrArg Prod.fst (Option.some.inj h)
    have hr := congrArg Prod.snd (Option.some.inj h)
    simp only at hl hr
    rw [← hl, ← hr]
    exact ⟨line_ne_nil newline (by omega) ht, line_append newline _ _⟩

/-- There are at most as many calls as elements, and the one that finds the end. -/
theorem isSome_readAll {size : ℕ} (hs : 1 < size) : ∀ {fuel : ℕ} {text : List α}, text.length < fuel →
    (readAll newline size fuel text).isSome = true
  | fuel + 1, text, h => by
    unfold readAll
    cases hf : fgets newline size text with
    | none => rfl
    | some p =>
      obtain ⟨hne, rfl⟩ := fgets_eq_some newline hs hf
      have hl := List.length_pos_iff.mpr hne
      rw [List.length_append] at h
      rw [Option.isSome_map]
      apply isSome_readAll hs
      omega

/-- **The pieces are the text**, and none is empty. -/
theorem flatten_readAll {size : ℕ} (hs : 1 < size) : ∀ {fuel : ℕ} {text : List α} {ls : List (List α)},
    readAll newline size fuel text = some ls → ls.flatten = text ∧ ∀ l ∈ ls, l ≠ []
  | fuel + 1, text, ls, h => by
    unfold readAll at h
    cases hf : fgets newline size text with
    | none =>
      rw [hf] at h
      cases h
      exact ⟨(fgets_eq_none newline hf).symm, by simp⟩
    | some p =>
      obtain ⟨hne, rfl⟩ := fgets_eq_some newline hs hf
      rw [hf] at h
      obtain ⟨ls, hls, rfl⟩ := Option.map_eq_some_iff.mp h
      obtain ⟨hflat, hall⟩ := flatten_readAll hs hls
      exact ⟨congrArg (p.1 ++ ·) hflat, List.forall_mem_cons.mpr ⟨hne, hall⟩⟩

end Lines
