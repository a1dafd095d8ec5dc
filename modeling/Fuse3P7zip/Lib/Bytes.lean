/-
# Byte arrays with a cursor

What a seekable file is for: an array that is written over from a position
on (`patch`), made longer or shorter (`resize`) and read in slices. A gap
that a write leaves behind the end is zeros. `Cursor` is the array with the
position of the next transfer.

Key theorems: `patch_patch` (two writes in a row are one), `getD_patch`,
`patch_resize_iff` (when a cut and a write commute), `length_slice`.
-/
import Mathlib.Data.List.TakeDrop
import Mathlib.Data.List.GetD
import Mathlib.Algebra.Notation.Defs
import Mathlib.Data.Int.Notation

namespace Bytes

variable {α : Type} [Zero α]

/-- `d` made exactly `n` long: cut, or filled up with zeros. -/
def resize (d : List α) (n : ℕ) : List α := d.takeD n 0

/-- `p` written over `d` from position `a` on. Writing nothing changes nothing. -/
def patch [DecidableEq α] (d : List α) (a : ℕ) (p : List α) : List α :=
  if p = [] then d else resize d a ++ p ++ d.drop (a + p.length)

/-- At most `n` elements from position `off` on. -/
def slice (d : List α) (off n : ℕ) : List α := (d.drop off).take n

omit [Zero α] in
theorem length_slice (d : List α) (off n : ℕ) :
    (slice d off n).length = min n (d.length - off) := by
  rw [slice, List.length_take, List.length_drop]

omit [Zero α] in
/-- A slice has no more to give. -/
theorem slice_slice_length (d : List α) (off n : ℕ) : slice d off (slice d off n).length = slice d off n := by
  rw [slice, slice, List.take_eq_take_iff, List.length_take]
  omega

@[simp] theorem length_resize (d : List α) (n : ℕ) : (resize d n).length = n :=
  List.takeD_length n d 0

/-- The front of what there was stays. -/
theorem take_resize : ∀ {d : List α} {n k : ℕ}, k ≤ n → k ≤ d.length → (resize d n).take k = d.take k
  | _, _, 0, _, _ => by rw [List.take_zero, List.take_zero]
  | x :: d, n + 1, k + 1, hn, hd => by
    have ih : (resize d n).take k = d.take k := take_resize (Nat.le_of_succ_le_succ hn) (Nat.le_of_succ_le_succ hd)
    show x :: (resize d n).take k = _
    rw [ih, List.take_succ_cons]

theorem getD_resize : ∀ (d : List α) (n i : ℕ),
    (resize d n).getD i 0 = if i < n then d.getD i 0 else 0
  | _, 0, _ => by simp [resize]
  | [], n + 1, i => by
    rw [resize, List.takeD_nil]
    simp only [List.getD_eq_getElem?_getD, List.getElem?_replicate, List.getElem?_nil]
    split_ifs <;> rfl
  | x :: d, n + 1, 0 => by simp [resize]
  | x :: d, n + 1, i + 1 => by
    have ih := getD_resize d n i
    simp only [resize, List.takeD_succ, List.tail_cons, List.getD_cons_succ] at ih ⊢
    rw [ih]
    simp

omit [Zero α] in
/-- Lists of one length with the same elements are equal. -/
theorem ext_getD {d e : List α} (z : α) (hl : d.length = e.length)
    (h : ∀ i, d.getD i z = e.getD i z) : d = e := by
  refine List.ext_getElem hl fun i h1 h2 => ?_
  have := h i
  rwa [List.getD_eq_getElem d z h1, List.getD_eq_getElem e z h2] at this

variable [DecidableEq α]

@[simp] theorem patch_nil (d : List α) (a : ℕ) : patch d a [] = d := if_pos rfl

theorem length_patch (d : List α) (a : ℕ) {p : List α} (hp : p ≠ []) :
    (patch d a p).length = max d.length (a + p.length) := by
  rw [patch, if_neg hp]
  simp only [List.length_append, length_resize, List.length_drop]
  omega

/-- With less written, the array is no longer. -/
theorem length_patch_take_le (d : List α) (a : ℕ) (p : List α) (k : ℕ) :
    (patch d a (p.take k)).length ≤ (patch d a p).length := by
  by_cases hk : p.take k = []
  · rw [hk, patch_nil]
    by_cases hp : p = []
    · exact Nat.le_of_eq (by rw [hp, patch_nil])
    · rw [length_patch d a hp]
      exact Nat.le_max_left _ _
  · have hp : p ≠ [] := fun hp => hk (by rw [hp, List.take_nil])
    have hlen : (p.take k).length ≤ p.length := List.length_take_le' k p
    rw [length_patch d a hk, length_patch d a hp]
    omega

theorem getD_patch (d : List α) (a : ℕ) (p : List α) (i : ℕ) :
    (patch d a p).getD i 0 = if a ≤ i ∧ i < a + p.length then p.getD (i - a) 0 else d.getD i 0 := by
  by_cases hp : p = []
  · rw [hp, patch_nil, if_neg (by simp only [List.length_nil]; omega)]
  rw [patch, if_neg hp, List.append_assoc]
  by_cases h1 : i < a
  · rw [List.getD_append _ _ _ _ (by rwa [length_resize]), getD_resize, if_pos h1, if_neg (by omega)]
  rw [List.getD_append_right _ _ _ _ (by rw [length_resize]; omega), length_resize]
  by_cases h2 : i < a + p.length
  · rw [if_pos ⟨by omega, h2⟩, List.getD_append _ _ _ _ (by omega)]
  · rw [if_neg (by omega), List.getD_append_right _ _ _ _ (by omega)]
    simp only [List.getD_eq_getElem?_getD, List.getElem?_drop]
    congr 2
    omega

/-- Two writes in a row are one. -/
theorem patch_patch (d : List α) (a : ℕ) (p q : List α) :
    patch (patch d a p) (a + p.length) q = patch d a (p ++ q) := by
  by_cases hp : p = []
  · simp [hp]
  by_cases hq : q = []
  · simp [hq]
  refine ext_getD 0 ?_ fun i => ?_
  · rw [length_patch _ _ hq, length_patch _ _ hp, length_patch _ _ (by simp [hp]), List.length_append]
    omega
  · simp only [getD_patch, List.length_append]
    by_cases h1 : a + p.length ≤ i ∧ i < a + p.length + q.length
    · rw [if_pos h1, if_pos (by omega), List.getD_append_right _ _ _ _ (by omega)]
      congr 1
      omega
    · rw [if_neg h1]
      by_cases h2 : a ≤ i ∧ i < a + p.length
      · rw [if_pos h2, if_pos (by omega), List.getD_append _ _ _ _ (by omega)]
      · rw [if_neg h2, if_neg (by omega)]

/-- A write and a cut can change places exactly when nothing is written behind
the cut. -/
theorem patch_resize_iff (d : List α) (a n : ℕ) (p : List α) :
    patch (resize d n) a p = resize (patch d a p) n ↔ p = [] ∨ a + p.length ≤ n := by
  by_cases hp : p = []
  · simp [hp]
  have hlen : (patch (resize d n) a p).length = max n (a + p.length) := by
    rw [length_patch _ _ hp, length_resize]
  refine ⟨fun h => .inr ?_, fun h => ?_⟩
  · rw [h, length_resize] at hlen
    omega
  · replace h : a + p.length ≤ n := h.resolve_left hp
    refine ext_getD 0 (by rw [hlen, length_resize]; omega) fun i => ?_
    simp only [getD_patch, getD_resize]
    by_cases hi : a ≤ i ∧ i < a + p.length
    · simp only [if_pos hi, if_pos (show i < n by omega)]
    · simp only [if_neg hi]

/-! ### With a cursor -/

/-- An array and the position of the next transfer. -/
structure Cursor (α : Type) where
  bytes : List α
  pos : ℕ

namespace Cursor

/-- Where a seek by `offset` from `whence` (0 the start, 1 the position, 2 the
end) goes, unless it is in front of the start. -/
def target (c : Cursor α) (offset : ℤ) : ℕ → Option ℕ
  | 0 => Int.toNat? offset
  | 1 => ((c.pos : ℤ) + offset).toNat?
  | 2 => ((c.bytes.length : ℤ) + offset).toNat?
  | _ => none

def write (c : Cursor α) (p : List α) : Cursor α := ⟨patch c.bytes c.pos p, c.pos + p.length⟩

def seek (c : Cursor α) (offset : ℤ) (whence : ℕ) : Cursor α :=
  match c.target offset whence with
  | some n => { c with pos := n }
  | none => c

def setSize (c : Cursor α) (n : ℕ) : Cursor α := { c with bytes := resize c.bytes n }

/-- A read of at most `size` elements. -/
def read (c : Cursor α) (size : ℕ) : List α × Cursor α :=
  let data := slice c.bytes c.pos size
  (data, { c with pos := c.pos + data.length })

/-- What reads of these sizes give, one after the other. -/
def reads (c : Cursor α) : List ℕ → List (List α)
  | [] => []
  | size :: sizes => (c.read size).1 :: (c.read size).2.reads sizes

end Cursor

end Bytes
