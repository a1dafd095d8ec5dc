/-
# Walking a tree by its frontier

A walk keeps the nodes it has been given and not yet asked for their
children. A step asks one of them, whichever it likes, and gets its
children, which are then both visited and pending. `below` are a node's
proper descendants, as the tree's owner knows them.

The law is that the nodes visited and the ones below the pending nodes
together stay the same (`Step.perm`), so a walk that has nothing left to ask
for has visited everything below its root, each once (`Walk.perm`). A walk
makes one step for its root and one for every node below it
(`Walk.length_add`), whatever its order.
-/
import Mathlib.Data.List.Basic
import Mathlib.Data.Nat.Notation

namespace Frontier

open List (Perm)
open scoped List

variable {ν β : Type} (children : ν → List ν)

/-- One node is asked: `(pending, visited)` before and after. -/
inductive Step : List ν × List ν → List ν × List ν → Prop
  | ask (before : List ν) (p : ν) (after visited : List ν) :
    Step (before ++ p :: after, visited) (before ++ children p ++ after, visited ++ children p)

/-- `n` steps. -/
inductive Walk : ℕ → List ν × List ν → List ν × List ν → Prop
  | here (s : List ν × List ν) : Walk 0 s s
  | step {n : ℕ} {s t u : List ν × List ν} : Walk n s t → Step children t u → Walk (n + 1) s u

variable {children} {good : ν → Prop} {img : ν → β} {below : ν → List β}

/-- What goes over to the children holds of every pending node. -/
theorem Walk.pending (hgood : ∀ p, good p → ∀ c ∈ children p, good c) {n : ℕ}
    {s t : List ν × List ν} (h : Walk children n s t) (h0 : ∀ p ∈ s.1, good p) :
    ∀ p ∈ t.1, good p := by
  induction h with
  | here => exact h0
  | step _ hs ih =>
    have ih := ih h0
    cases hs with
    | ask before p after visited =>
      intro q hq
      simp only [List.mem_append] at hq
      rcases hq with (hq | hq) | hq
      · exact ih q (by simp [hq])
      · exact hgood p (ih p (by simp)) q hq
      · exact ih q (by simp [hq])

/-- What holds of the children of such a node holds of every visited node. -/
theorem Walk.visited (hgood : ∀ p, good p → ∀ c ∈ children p, good c) {given : ν → Prop}
    (hgiven : ∀ p, good p → ∀ c ∈ children p, given c) {n : ℕ} {s t : List ν × List ν}
    (h : Walk children n s t) (h0 : ∀ p ∈ s.1, good p) (h1 : ∀ c ∈ s.2, given c) :
    ∀ c ∈ t.2, given c := by
  induction h with
  | here => exact h1
  | step hw hs ih =>
    have ih := ih h0 h1
    have hp := Walk.pending hgood hw h0
    cases hs with
    | ask before p after visited =>
      intro c hc
      rcases List.mem_append.mp hc with hc | hc
      · exact ih c hc
      · exact hgiven p (hp p (by simp)) c hc

section law

variable (hbelow : ∀ p, good p →
  (below p).Perm ((children p).map img ++ (children p).flatMap below))

include hbelow

theorem Step.perm {s t : List ν × List ν} (h : Step children s t) (hg : ∀ p ∈ s.1, good p) :
    (s.2.map img ++ s.1.flatMap below).Perm (t.2.map img ++ t.1.flatMap below) := by
  cases h with
  | ask before p after visited =>
    have hp := hbelow p (hg p (by simp))
    simp only [List.flatMap_append, List.flatMap_cons, List.map_append, List.append_assoc]
    refine List.Perm.append_left _ ?_
    -- what is below `p` goes to the front, and its children behind the visited nodes
    calc before.flatMap below ++ (below p ++ after.flatMap below)
        ~ before.flatMap below ++ ((children p).map img ++ (children p).flatMap below ++
          after.flatMap below) := (hp.append_right _).append_left _
      _ = before.flatMap below ++ (children p).map img ++
          ((children p).flatMap below ++ after.flatMap below) := by
        simp only [List.append_assoc]
      _ ~ (children p).map img ++ before.flatMap below ++
          ((children p).flatMap below ++ after.flatMap below) :=
        List.perm_append_comm.append_right _
      _ = _ := by simp only [List.append_assoc]

theorem Step.length {s t : List ν × List ν} (h : Step children s t) (hg : ∀ p ∈ s.1, good p) :
    t.1.length + (t.1.flatMap below).length + 1 = s.1.length + (s.1.flatMap below).length := by
  cases h with
  | ask before p after visited =>
    have hp := (hbelow p (hg p (by simp))).length_eq
    simp only [List.length_append, List.length_map, List.length_cons, List.flatMap_append,
      List.flatMap_cons] at hp ⊢
    omega

variable (hgood : ∀ p, good p → ∀ c ∈ children p, good c)

include hgood

/-- **The law of a walk from `root`.** -/
theorem Walk.perm {n : ℕ} {root : ν} {t : List ν × List ν}
    (h : Walk children n ([root], []) t) (hroot : good root) :
    (t.2.map img ++ t.1.flatMap below).Perm (below root) := by
  generalize hs : (([root], []) : List ν × List ν) = s at h
  induction h with
  | here => subst hs; simp
  | step hw hst ih =>
    have hg := Walk.pending hgood hw (by subst hs; simpa using hroot)
    exact ((Step.perm hbelow hst hg).symm).trans (ih hs)

/-- Every step brings the walk one closer to its end. -/
theorem Walk.length_add {n : ℕ} {root : ν} {t : List ν × List ν}
    (h : Walk children n ([root], []) t) (hroot : good root) :
    n + (t.1.length + (t.1.flatMap below).length) = 1 + (below root).length := by
  generalize hs : (([root], []) : List ν × List ν) = s at h
  induction h with
  | here => subst hs; simp
  | step hw hst ih =>
    have hg := Walk.pending hgood hw (by subst hs; simpa using hroot)
    have := Step.length hbelow hst hg
    have := ih hs
    omega

/-- Every walk can be led to its end. -/
theorem Walk.finish {root : ν} (hroot : good root) : ∀ (k n : ℕ) {t : List ν × List ν},
    Walk children n ([root], []) t → n + k = 1 + (below root).length →
    ∃ n' t', Walk children n' ([root], []) t' ∧ t'.1 = []
  | 0, n, t, h, hk => by
    have := Walk.length_add hbelow hgood h hroot
    exact ⟨n, t, h, List.eq_nil_of_length_eq_zero (by omega)⟩
  | k + 1, n, (pending, visited), h, hk => by
    cases hp : pending with
    | nil => exact ⟨n, (pending, visited), h, hp⟩
    | cons p rest =>
      subst hp
      exact Walk.finish hroot k (n + 1) (.step h (.ask [] p rest visited)) (by omega)

end law

end Frontier
