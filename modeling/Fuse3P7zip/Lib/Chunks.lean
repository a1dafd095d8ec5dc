/-
# Reading in pieces

A reader that goes through a text piece by piece: each piece has the offset
it was read at, the size that was asked for and what came back. `Of` is a
piece that is the slice of the text it should be, `InOrder` the pieces that
start where those before them end.

Key theorems: `flatten_eq_take` (the pieces put together are the front of
the text), `flatten_of_empty` (they are all of it once a piece that asked for
something is empty), `count_le` (no more pieces have something than the text
has elements).
-/
import Mathlib.Algebra.GroupWithZero.Nat
import Mathlib.Algebra.Order.BigOperators.Group.List
import Mathlib.Data.List.Induction
import Fuse3P7zip.Lib.Bytes

/-- A piece that was read. -/
structure Chunk (α : Type) where
  off : ℕ
  size : ℕ
  data : List α

namespace Chunk

variable {α : Type}

/-- The piece is a slice of the text. -/
def Of (d : List α) (c : Chunk α) : Prop := c.data = Bytes.slice d c.off c.size

/-- How much the pieces have. -/
def total (l : List (Chunk α)) : ℕ := (l.map fun c => c.data.length).sum

/-- The pieces put together. -/
def flatten (l : List (Chunk α)) : List α := l.flatMap Chunk.data

/-- Each piece starts where those before it end. -/
def InOrder (l : List (Chunk α)) : Prop := ∀ pre c, pre ++ [c] <+: l → c.off = total pre

theorem total_concat (l : List (Chunk α)) (c : Chunk α) : total (l ++ [c]) = total l + c.data.length := by
  simp [total]

theorem flatten_concat (l : List (Chunk α)) (c : Chunk α) : flatten (l ++ [c]) = flatten l ++ c.data := by
  simp [flatten]

theorem length_flatten (l : List (Chunk α)) : (flatten l).length = total l := by
  rw [flatten, List.length_flatMap]
  rfl

theorem inOrder_nil : InOrder ([] : List (Chunk α)) := by
  intro pre c hc
  have hlen := hc.length_le
  simp at hlen

theorem inOrder_concat {l : List (Chunk α)} {c : Chunk α} : InOrder (l ++ [c]) ↔ InOrder l ∧ c.off = total l := by
  constructor
  · intro h
    exact ⟨fun pre x hx => h pre x (hx.trans (List.prefix_append _ _)), h l c (List.prefix_refl _)⟩
  · rintro ⟨h, hc⟩ pre x hx
    rcases List.prefix_concat_iff.mp hx with he | hx
    · obtain ⟨rfl, hxc⟩ := List.append_inj' he rfl
      rw [(List.singleton_inj.mp hxc), hc]
    · exact h pre x hx

/-- In order, the pieces are the front of the text: a piece goes on from where
the front ends. -/
theorem flatten_eq_take {d : List α} : ∀ {l : List (Chunk α)}, (∀ c ∈ l, c.Of d) → InOrder l →
    flatten l = d.take (total l) := by
  intro l
  induction l using List.reverseRecOn with
  | nil => intro _ _; exact List.take_zero.symm
  | append_singleton l c ih =>
    intro hof hord
    obtain ⟨hord, hoff⟩ := inOrder_concat.mp hord
    have ih := ih (fun x hx => hof x (List.mem_append_left _ hx)) hord
    have hc : c.data = Bytes.slice d c.off c.size := hof c (List.mem_append_right _ (List.mem_singleton_self c))
    have hlen : c.data = (d.drop (total l)).take c.data.length := by
      rw [hc, hoff, Bytes.slice, List.length_take, List.take_eq_take_iff]
      omega
    calc flatten (l ++ [c]) = d.take (total l) ++ c.data := by rw [flatten_concat, ih]
      _ = d.take (total l) ++ (d.drop (total l)).take c.data.length := by rw [← hlen]
      _ = d.take (total l + c.data.length) := (List.take_add ..).symm
      _ = d.take (total (l ++ [c])) := by rw [total_concat]

/-- What is read in order is no more than there is. -/
theorem total_le {d : List α} {l : List (Chunk α)} (hof : ∀ c ∈ l, c.Of d) (hord : InOrder l) :
    total l ≤ d.length := by
  rw [← length_flatten, flatten_eq_take hof hord]
  exact List.length_take_le' _ _

/-- A piece that asked for something and got nothing is at the end. -/
theorem flatten_of_empty {d : List α} {l : List (Chunk α)} (hof : ∀ c ∈ l, c.Of d) (hord : InOrder l)
    {c : Chunk α} (hc : c ∈ l) (hsize : c.size ≠ 0) (hempty : c.data = []) : flatten l = d := by
  obtain ⟨pre, post, rfl⟩ := List.append_of_mem hc
  have hpre : pre ++ [c] <+: pre ++ c :: post := ⟨post, by simp⟩
  have hoff : c.off = total pre := hord pre c hpre
  have hslice : (d.drop (total pre)).take c.size = [] := by
    rw [← hempty, hof c hc, hoff, Bytes.slice]
  have hend : d.length ≤ total pre := by
    rcases List.take_eq_nil_iff.mp hslice with h | h
    · exact absurd h hsize
    · exact List.drop_eq_nil_iff.mp h
  have hle : total pre ≤ total (pre ++ c :: post) := by
    unfold total
    rw [List.map_append, List.sum_append]
    exact Nat.le_add_right _ _
  rw [flatten_eq_take hof hord, List.take_of_length_le (hend.trans hle)]

/-- As long as pieces get something, there are no more of them than elements. -/
theorem count_le {d : List α} {l : List (Chunk α)} (hof : ∀ c ∈ l, c.Of d) (hord : InOrder l)
    (hdata : ∀ c ∈ l, c.data ≠ []) : l.length ≤ d.length := by
  refine le_trans ?_ (total_le hof hord)
  unfold total
  calc l.length = (l.map fun c => c.data.length).length := List.length_map _ |>.symm
    _ ≤ (l.map fun c => c.data.length).sum := by
      apply List.length_le_sum_of_one_le
      intro n hn
      obtain ⟨c, hc, rfl⟩ := List.mem_map.mp hn
      exact List.length_pos_iff.mpr (hdata c hc)

end Chunk
