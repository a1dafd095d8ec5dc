/-
# Objects with reference counters of 32 bits

The objects by their addresses, each with its counter until it is deleted.
A call on an object that is not there has no meaning. `Counts` says that the
counters are right for a number of references to every object: an object is
there as long as there are some, and then its counter is their number.

Taking and dropping references keeps it (`Counts.addRef`, `Counts.release`),
where the number fits the counter.
-/
import Mathlib.Logic.Function.Basic
import Fuse3P7zip.Lib.RefCount

namespace RefHeap

/-- The counter of an object that is there. -/
def counter (objects : List (Option UInt32)) (o : ℕ) : Option UInt32 := objects[o]?.join

/-- An operation on an object that is there. -/
def onObject (objects : List (Option UInt32)) (o : ℕ) (op : RefCount.Op) : Option (List (Option UInt32)) :=
  match counter objects o with
  | some n => some (objects.set o (RefCount.step (some n) op))
  | none => none

def addRef (objects : List (Option UInt32)) (o : ℕ) : Option (List (Option UInt32)) := onObject objects o .add
def release (objects : List (Option UInt32)) (o : ℕ) : Option (List (Option UInt32)) := onObject objects o .drop

/-- A new object, with a reference to it. -/
def alloc (objects : List (Option UInt32)) : List (Option UInt32) := objects ++ [some 1]

/-- What the counter of an object with `n` references is. -/
def exact (n : ℕ) : Option UInt32 := if n = 0 then none else some (UInt32.ofNat n)

/-- The counters are right for these numbers of references. -/
def Counts (objects : List (Option UInt32)) (refs : ℕ → ℕ) : Prop :=
  ∀ o, counter objects o = exact (refs o) ∧ refs o < 2 ^ 32

variable {objects : List (Option UInt32)} {refs : ℕ → ℕ} {o : ℕ}

theorem counts_nil : Counts [] fun _ => 0 := fun _ => ⟨rfl, Nat.two_pow_pos 32⟩

theorem Counts.congr {refs' : ℕ → ℕ} (h : Counts objects refs) (he : ∀ o, refs' o = refs o) :
    Counts objects refs' := fun o => by
  rw [he]
  exact h o

theorem Counts.lt_length (h : Counts objects refs) (ho : 0 < refs o) : o < objects.length := by
  by_cases hlt : o < objects.length
  · exact hlt
  · have hc := (h o).1
    rw [counter, List.getElem?_eq_none (Nat.not_lt.mp hlt), exact, if_neg (Nat.ne_of_gt ho)] at hc
    cases hc

theorem Counts.refs_length (h : Counts objects refs) : refs objects.length = 0 := by
  by_cases h0 : refs objects.length = 0
  · exact h0
  · exact absurd (h.lt_length (Nat.pos_of_ne_zero h0)) (Nat.lt_irrefl _)

theorem counter_set {c : Option UInt32} (ho : o < objects.length) (a : ℕ) :
    counter (objects.set o c) a = if a = o then c else counter objects a := by
  unfold counter
  by_cases ha : a = o
  · rw [if_pos ha, ha, List.getElem?_set_self ho]
    rfl
  · rw [if_neg ha, List.getElem?_set_ne fun he => ha he.symm]

/-- A list with one element more. -/
theorem getElem?_concat {α : Type} (l : List α) (x : α) (i : ℕ) :
    (l ++ [x])[i]? = if i = l.length then some x else l[i]? := by
  rcases Nat.lt_trichotomy i l.length with hlt | rfl | hgt
  · rw [if_neg (Nat.ne_of_lt hlt), List.getElem?_append_left hlt]
  · rw [if_pos rfl, List.getElem?_concat_length]
  · rw [if_neg (Nat.ne_of_gt hgt), List.getElem?_eq_none (by rw [List.length_append]; exact hgt),
      List.getElem?_eq_none (Nat.le_of_lt hgt)]

theorem counter_alloc (a : ℕ) :
    counter (alloc objects) a = if a = objects.length then some 1 else counter objects a := by
  unfold counter alloc
  rw [getElem?_concat]
  split <;> rfl

theorem Counts.alloc (h : Counts objects refs) :
    Counts (alloc objects) (Function.update refs objects.length 1) := by
  intro a
  rw [counter_alloc]
  by_cases ha : a = objects.length
  · rw [if_pos ha, ha, Function.update_self]
    exact ⟨rfl, by decide⟩
  · rw [if_neg ha, Function.update_of_ne ha]
    exact h a

/-- One more reference to an object that has some, if their number fits. -/
theorem Counts.addRef (h : Counts objects refs) (ho : 0 < refs o) (hfits : refs o + 1 < 2 ^ 32) :
    ∃ objects', addRef objects o = some objects' ∧ Counts objects' (Function.update refs o (refs o + 1)) := by
  have hc : counter objects o = some (UInt32.ofNat (refs o)) := by
    rw [(h o).1, exact, if_neg (Nat.ne_of_gt ho)]
  refine ⟨objects.set o (some (UInt32.ofNat (refs o + 1))), ?_, fun a => ?_⟩
  · rw [RefHeap.addRef, onObject, hc]
    simp only [RefCount.step, UInt32.ofNat_add]
    rfl
  · rw [counter_set (h.lt_length ho)]
    by_cases ha : a = o
    · rw [if_pos ha, ha, Function.update_self, exact, if_neg (Nat.succ_ne_zero _)]
      exact ⟨rfl, hfits⟩
    · rw [if_neg ha, Function.update_of_ne ha]
      exact h a

/-- One reference less, and the object is deleted with the last. -/
theorem Counts.release (h : Counts objects refs) (ho : 0 < refs o) :
    ∃ objects', release objects o = some objects' ∧ Counts objects' (Function.update refs o (refs o - 1)) := by
  have hc : counter objects o = some (UInt32.ofNat (refs o)) := by
    rw [(h o).1, exact, if_neg (Nat.ne_of_gt ho)]
  have hlt := (h o).2
  have hnat : ∀ n, n < 2 ^ 32 → (UInt32.ofNat n).toNat = n := fun n hn => by
    rw [UInt32.toNat_ofNat', Nat.mod_eq_of_lt hn]
  have hsub : UInt32.ofNat (refs o) - 1 = UInt32.ofNat (refs o - 1) := by
    apply UInt32.toNat_inj.mp
    rw [hnat _ (by omega), UInt32.toNat_sub_of_le, hnat _ hlt]
    · rfl
    · rw [UInt32.le_iff_toNat_le, hnat _ hlt]
      exact ho
  have hzero : UInt32.ofNat (refs o - 1) = 0 ↔ refs o - 1 = 0 := by
    rw [← UInt32.toNat_inj, hnat _ (by omega)]
    rfl
  refine ⟨objects.set o (exact (refs o - 1)), ?_, fun a => ?_⟩
  · rw [RefHeap.release, onObject, hc]
    simp only [RefCount.step, hsub, hzero, exact]
  · rw [counter_set (h.lt_length ho)]
    by_cases ha : a = o
    · rw [if_pos ha, ha, Function.update_self]
      exact ⟨rfl, by omega⟩
    · rw [if_neg ha, Function.update_of_ne ha]
      exact h a

end RefHeap
