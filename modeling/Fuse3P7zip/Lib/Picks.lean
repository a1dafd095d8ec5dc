/-
# Elements taken out of a list

A request takes the first element that is left and fits it, if there is
one. `takes` is what requests take one after the other, `left` what stays
behind, in the order of the list. Nothing is taken twice, so what was taken
and what is left make up the list again (`perm_takes`).
-/
import Mathlib.Data.List.Nodup
import Mathlib.Data.List.Perm.Basic

namespace Picks

variable {α κ : Type} [DecidableEq α]

/-- The elements of `l` that were not taken. -/
def left (l taken : List α) : List α := l.filter (· ∉ taken)

/-- What the requests take of `l`, with `taken` gone before. -/
def takes (fits : κ → α → Bool) (l : List α) : List α → List κ → List α
  | _, [] => []
  | taken, k :: ks =>
    match (left l taken).find? (fits k) with
    | some a => a :: takes fits l (taken ++ [a]) ks
    | none => takes fits l taken ks

/-! ### What is left -/

theorem mem_left_iff {l taken : List α} {a : α} : a ∈ left l taken ↔ a ∈ l ∧ a ∉ taken := by
  simp [left]

@[simp] theorem left_nil (l : List α) : left l [] = l := by simp [left]

theorem left_append (l t t' : List α) : left l (t ++ t') = left (left l t) t' := by
  unfold left
  rw [List.filter_filter]
  refine List.filter_congr fun a _ => ?_
  simp [Bool.and_comm]

/-- Taking an element out of what is left joins what is before and behind it. -/
theorem left_concat {l t before behind : List α} {a : α} (hl : l.Nodup)
    (h : left l t = before ++ a :: behind) : left l (t ++ [a]) = before ++ behind := by
  have hn : (before ++ a :: behind).Nodup := h ▸ hl.filter _
  rw [List.nodup_append] at hn
  obtain ⟨-, ha, hd⟩ := hn
  have hb : ∀ b ∈ before, b ≠ a := fun b hb => hd b hb a List.mem_cons_self
  have hc : ∀ b ∈ behind, b ≠ a := fun b hb he => (List.nodup_cons.mp ha).1 (he ▸ hb)
  rw [left_append, h]
  unfold left
  rw [List.filter_append, List.filter_cons_of_neg (by simp),
    List.filter_eq_self.mpr (by simpa using hb), List.filter_eq_self.mpr (by simpa using hc)]

/-! ### What is taken -/

variable (fits : κ → α → Bool) (l : List α)

theorem mem_left_of_mem_takes : ∀ (ks : List κ) {t : List α} {a : α},
    a ∈ takes fits l t ks → a ∈ left l t
  | [], _, _, h => by simp [takes] at h
  | k :: ks, t, a, h => by
    unfold takes at h
    cases hf : (left l t).find? (fits k) with
    | none => exact mem_left_of_mem_takes ks (by simpa [hf] using h)
    | some b =>
      simp only [hf, List.mem_cons] at h
      obtain rfl | h := h
      · exact List.mem_of_find?_eq_some hf
      · have hm := mem_left_of_mem_takes ks h
        rw [left_append] at hm
        exact (mem_left_iff.mp hm).1

/-- Nothing is taken twice. -/
theorem takes_nodup : ∀ (ks : List κ) (t : List α), (takes fits l t ks).Nodup
  | [], _ => by simp [takes]
  | k :: ks, t => by
    unfold takes
    cases hf : (left l t).find? (fits k) with
    | none => exact takes_nodup ks t
    | some a =>
      refine List.nodup_cons.mpr ⟨fun h => ?_, takes_nodup ks _⟩
      have hm := (mem_left_iff.mp (mem_left_of_mem_takes fits l ks h)).2
      simp at hm

/-- Two rounds of requests and what is left are the list. -/
theorem perm_takes (hl : l.Nodup) (ks ks' : List κ) :
    (takes fits l [] ks ++ left l (takes fits l [] ks ++ takes fits l (takes fits l [] ks) ks') ++
      takes fits l (takes fits l [] ks) ks').Perm l := by
  have hhead := takes_nodup fits l ks []
  have htail := takes_nodup fits l ks' (takes fits l [] ks)
  have hh : ∀ a ∈ takes fits l [] ks, a ∈ l := fun a ha =>
    (mem_left_iff.mp (mem_left_of_mem_takes fits l ks ha)).1
  have ht : ∀ a ∈ takes fits l (takes fits l [] ks) ks', a ∈ l ∧ a ∉ takes fits l [] ks := fun a ha =>
    mem_left_iff.mp (mem_left_of_mem_takes fits l ks' ha)
  generalize takes fits l [] ks = head at *
  generalize takes fits l head ks' = tail at *
  refine (List.perm_ext_iff_of_nodup ?_ hl).mpr fun a => ?_
  · rw [List.nodup_append, List.nodup_append]
    refine ⟨⟨hhead, hl.filter _, ?_⟩, htail, ?_⟩
    · intro a ha b hb he
      exact (mem_left_iff.mp hb).2 (List.mem_append_left _ (he ▸ ha))
    · intro a ha b hb he
      obtain ha | ha := List.mem_append.mp ha
      · exact (ht b hb).2 (he ▸ ha)
      · exact (mem_left_iff.mp ha).2 (List.mem_append_right _ (he ▸ hb))
  · simp only [List.mem_append, mem_left_iff]
    constructor
    · intro h
      obtain (h | h) | h := h
      · exact hh a h
      · exact h.1
      · exact (ht a h).1
    · intro h
      by_cases h1 : a ∈ head
      · exact .inl (.inl h1)
      · by_cases h2 : a ∈ tail
        · exact .inr h2
        · exact .inl (.inr ⟨h, fun h => h.elim h1 h2⟩)

end Picks
