/-
# Regular expressions of a backtracking matcher

An expression is matched at a place in the order a backtracking matcher
tries: `ways` are the matches there, the preferred one first, with what the
groups caught and what is left. `search` goes from place to place and takes
the first match of the first place that has one, which is the leftmost
(`search_eq_some`).

Where no match has `sep` in it, what is before a `sep` is searched first, and
then what is behind it (`search_append_sep`).
-/
import Mathlib.Data.List.TakeWhile

/-- An element of a class, two expressions one after the other, at least `n`
elements of a class (as many as there are, at first), and a group. -/
inductive Regex (α : Type) where
  | one (p : α → Bool)
  | seq (r s : Regex α)
  | many (n : ℕ) (p : α → Bool)
  | group (r : Regex α)

namespace Regex

variable {α : Type}

/-- The numbers from `m` down to `n`. -/
def downTo (n m : ℕ) : List ℕ := ((List.range (m + 1)).filter (n ≤ ·)).reverse

/-- The matches at the start of a text: what is matched, the groups, and the rest. -/
def ways : Regex α → List α → List (List α × List (List α) × List α)
  | one _, [] => []
  | one p, c :: text => if p c then [([c], [], text)] else []
  | seq r s, text =>
    (r.ways text).flatMap fun a => (s.ways a.2.2).map fun b => (a.1 ++ b.1, a.2.1 ++ b.2.1, b.2.2)
  | many n p, text =>
    (downTo n (text.takeWhile p).length).map fun k => (text.take k, [], text.drop k)
  | group r, text => (r.ways text).map fun a => (a.1, a.1 :: a.2.1, a.2.2)

/-- The text is one of the expression, with these groups. -/
def Matches : Regex α → List α → List (List α) → Prop
  | one p, t, g => ∃ c, p c = true ∧ t = [c] ∧ g = []
  | seq r s, t, g => ∃ t1 g1 t2 g2, r.Matches t1 g1 ∧ s.Matches t2 g2 ∧ t = t1 ++ t2 ∧ g = g1 ++ g2
  | many n p, t, g => n ≤ t.length ∧ (∀ c ∈ t, p c = true) ∧ g = []
  | group r, t, g => ∃ g', r.Matches t g' ∧ g = t :: g'

/-- The preferred match at the start of a text, and its groups. -/
def first (r : Regex α) (text : List α) : Option (List α × List (List α)) :=
  (r.ways text).head?.map fun a => (a.1, a.2.1)

/-- The match at the first place that has one. -/
def search (r : Regex α) : List α → Option (List α × List (List α))
  | [] => r.first []
  | c :: text => (r.first (c :: text)).or (r.search text)

/-- No class has `sep` in it. -/
def Avoids (sep : α) : Regex α → Prop
  | one p => p sep = false
  | seq r s => r.Avoids sep ∧ s.Avoids sep
  | many _ p => p sep = false
  | group r => r.Avoids sep

/-! ### The matches at a place -/

theorem mem_downTo {n m k : ℕ} : k ∈ downTo n m ↔ n ≤ k ∧ k ≤ m := by
  simp [downTo]
  omega

theorem take_of_le_takeWhile {p : α → Bool} {text : List α} {k : ℕ} (h : k ≤ (text.takeWhile p).length) :
    ∀ c ∈ text.take k, p c = true := by
  intro c hc
  have hpre : text.take k <+: text.takeWhile p := by
    have ht : text.takeWhile p <+: text := List.takeWhile_prefix p
    rw [List.prefix_iff_eq_take.mp ht]
    exact List.take_prefix_take_left h
  exact List.mem_takeWhile_imp (hpre.subset hc)

/-- The matches are the texts of the expression that the text begins with. -/
theorem mem_ways_iff : ∀ {r : Regex α} {text t rest : List α} {g : List (List α)},
    (t, g, rest) ∈ r.ways text ↔ text = t ++ rest ∧ r.Matches t g
  | one p, [], t, rest, g => by
    refine iff_of_false (by simp [ways]) ?_
    rintro ⟨h, c, -, rfl, -⟩
    cases h
  | one p, c :: text, t, rest, g => by
    constructor
    · intro h
      unfold ways at h
      split at h
      · rename_i hp
        cases List.mem_singleton.mp h
        exact ⟨rfl, c, hp, rfl, rfl⟩
      · cases h
    · rintro ⟨h, a, hp, rfl, rfl⟩
      cases h
      simp [ways, hp]
  | seq r s, text, t, rest, g => by
    simp only [ways, List.mem_flatMap, List.mem_map]
    constructor
    · rintro ⟨⟨t1, g1, rest1⟩, h1, ⟨t2, g2, rest2⟩, h2, he⟩
      cases he
      obtain ⟨rfl, hm1⟩ := mem_ways_iff.mp h1
      obtain ⟨rfl, hm2⟩ := mem_ways_iff.mp h2
      exact ⟨(List.append_assoc _ _ _).symm, t1, g1, t2, g2, hm1, hm2, rfl, rfl⟩
    · rintro ⟨rfl, t1, g1, t2, g2, hm1, hm2, rfl, rfl⟩
      refine ⟨(t1, g1, t2 ++ rest), mem_ways_iff.mpr ⟨List.append_assoc _ _ _, hm1⟩, ?_⟩
      exact ⟨(t2, g2, rest), mem_ways_iff.mpr ⟨rfl, hm2⟩, rfl⟩
  | many n p, text, t, rest, g => by
    simp only [ways, List.mem_map, mem_downTo]
    constructor
    · rintro ⟨k, ⟨hn, hk⟩, he⟩
      cases he
      have hlen : k ≤ text.length := hk.trans (List.takeWhile_prefix p).length_le
      refine ⟨(List.take_append_drop k text).symm, ?_, take_of_le_takeWhile hk, rfl⟩
      rwa [List.length_take_of_le hlen]
    · rintro ⟨rfl, hn, hp, rfl⟩
      refine ⟨t.length, ⟨hn, ?_⟩, by rw [List.take_left, List.drop_left]⟩
      rw [List.takeWhile_append_of_pos hp, List.length_append]
      exact Nat.le_add_right _ _
  | group r, text, t, rest, g => by
    simp only [ways, List.mem_map]
    constructor
    · rintro ⟨⟨t', g', rest'⟩, h, he⟩
      cases he
      obtain ⟨rfl, hm⟩ := mem_ways_iff.mp h
      exact ⟨rfl, g', hm, rfl⟩
    · rintro ⟨rfl, g', hm, rfl⟩
      exact ⟨(t, g', rest), mem_ways_iff.mpr ⟨rfl, hm⟩, rfl⟩

/-! ### The first place -/

/-- The text begins with a match. -/
def Begins (r : Regex α) (text : List α) : Prop := ∃ t g rest, text = t ++ rest ∧ r.Matches t g

theorem first_eq_some {r : Regex α} {text t : List α} {g : List (List α)} (h : r.first text = some (t, g)) :
    ∃ rest, text = t ++ rest ∧ r.Matches t g := by
  obtain ⟨⟨t', g', rest⟩, ha, he⟩ := Option.map_eq_some_iff.mp h
  cases he
  exact ⟨rest, mem_ways_iff.mp (List.mem_of_head? ha)⟩

theorem first_eq_none_iff {r : Regex α} {text : List α} : r.first text = none ↔ ¬ r.Begins text := by
  rw [first, Option.map_eq_none_iff, List.head?_eq_none_iff, List.eq_nil_iff_forall_not_mem]
  constructor
  · rintro h ⟨t, g, rest, hm⟩
    exact h _ (mem_ways_iff.mpr hm)
  · rintro h ⟨t, g, rest⟩ hm
    exact h ⟨t, g, rest, mem_ways_iff.mp hm⟩

/-- A match that is found is the leftmost: no match begins before it. -/
theorem search_eq_some {r : Regex α} : ∀ {text t : List α} {g : List (List α)}, r.search text = some (t, g) →
    ∃ before behind, text = before ++ (t ++ behind) ∧ r.Matches t g ∧
      ∀ before' behind', text = before' ++ behind' → r.Begins behind' → before.length ≤ before'.length
  | [], t, g, h => by
    obtain ⟨rest, he, hm⟩ := first_eq_some h
    exact ⟨[], rest, he, hm, fun _ _ _ _ => Nat.zero_le _⟩
  | c :: text, t, g, h => by
    unfold search at h
    rcases Option.or_eq_some_iff.mp h with h | ⟨hno, h⟩
    · obtain ⟨rest, he, hm⟩ := first_eq_some h
      exact ⟨[], rest, he, hm, fun _ _ _ _ => Nat.zero_le _⟩
    · obtain ⟨before, behind, rfl, hm, hleft⟩ := search_eq_some h
      refine ⟨c :: before, behind, rfl, hm, fun before' behind' he hb => ?_⟩
      cases before' with
      | nil =>
        cases he
        exact absurd hb (first_eq_none_iff.mp hno)
      | cons a before' =>
        exact Nat.succ_le_succ (hleft before' behind' (List.cons.inj he).2 hb)

theorem search_eq_none {r : Regex α} : ∀ {text : List α}, r.search text = none →
    ∀ before behind, text = before ++ behind → ¬ r.Begins behind
  | [], h, before, behind, he => by
    rw [(List.nil_eq_append_iff.mp he).2]
    exact first_eq_none_iff.mp h
  | c :: text, h, before, behind, he => by
    unfold search at h
    obtain ⟨hno, h⟩ := Option.or_eq_none_iff.mp h
    cases before with
    | nil =>
      cases he
      exact first_eq_none_iff.mp hno
    | cons a before =>
      cases he
      exact search_eq_none h before behind rfl

/-! ### Cutting the text -/

/-- The matches in front of `sep` do not see what is behind it. -/
theorem ways_append_sep {sep : α} {t : List α} : ∀ {r : Regex α} (s : List α), r.Avoids sep →
    r.ways (s ++ sep :: t) = (r.ways s).map fun a => (a.1, a.2.1, a.2.2 ++ sep :: t)
  | one p, [], h => by
    have hp : p sep = false := h
    simp [ways, hp]
  | one p, c :: s, _ => by
    by_cases hp : p c = true <;> simp [ways, hp]
  | seq r1 r2, s, h => by
    simp only [ways, ways_append_sep s h.1, List.flatMap_map, List.map_flatMap]
    congr 1
    funext a
    rw [ways_append_sep a.2.2 h.2, List.map_map, List.map_map]
    rfl
  | many n p, s, h => by
    have hp : p sep = false := h
    have htw : (s ++ sep :: t).takeWhile p = s.takeWhile p := by
      induction s with
      | nil => simp [hp]
      | cons c s ih => by_cases hc : p c = true <;> simp [hc, ih]
    simp only [ways, htw, List.map_map]
    refine List.map_congr_left fun k hk => ?_
    have hlen : k ≤ s.length := (mem_downTo.mp hk).2.trans (List.takeWhile_prefix p).length_le
    simp [List.take_append_of_le_length hlen, List.drop_append_of_le_length hlen]
  | group r, s, h => by
    have hr : r.Avoids sep := h
    simp only [ways, ways_append_sep s hr, List.map_map]
    rfl

theorem first_append_sep {r : Regex α} {sep : α} (h : r.Avoids sep) (s t : List α) :
    r.first (s ++ sep :: t) = r.first s := by
  simp only [first, ways_append_sep s h, List.head?_map, Option.map_map]
  rfl

/-- What is before `sep` is searched first, then what is behind it. -/
theorem search_append_sep {r : Regex α} {sep : α} (h : r.Avoids sep) : ∀ s t : List α,
    r.search (s ++ sep :: t) = (r.search s).or (r.search t)
  | [], t => by
    have hfirst := first_append_sep h [] t
    rw [List.nil_append] at hfirst ⊢
    rw [search, search, hfirst]
  | c :: s, t => by
    have hfirst := first_append_sep h (c :: s) t
    rw [List.cons_append] at hfirst ⊢
    rw [search, search, hfirst, search_append_sep h s t, Option.or_assoc]

end Regex
