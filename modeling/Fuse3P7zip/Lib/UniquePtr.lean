/-
# Owning pointers

Variables that own what they point to, as `std::unique_ptr` does: the cells
by their addresses, each with a value until it is deleted, and the variables,
each with an address or null until it is destroyed. `Owned` says that no two
variables have one address and that the cells there are are those that some
variable has, so nothing leaks and nothing dangles.

Then a variable is as good as the value it points to. `values` are these,
and `Sim` relates a computation on pointers to one on values: both fail, or
both come to the same values, and everything is still owned. It composes
(`Sim.bind`), and holds for what one does with such variables: `sim_make`,
`sim_moveNew`, `sim_swap`, `sim_write`, `sim_destroy`, and for an assignment by
copy and swap, `sim_swap_popLast`.
-/
import Mathlib.Data.List.Basic
import Fuse3P7zip.Lib.RefHeap

namespace UniquePtr

/-- The cells by their addresses, and the variables in the order they were
constructed. A destroyed variable is nothing. -/
structure State (α : Type) where
  cells : List (Option α)
  vars : List (Option (Option ℕ))

/-- What variables are worth: nothing when destroyed, and else a value or null. -/
abbrev Values (α : Type) := List (Option (Option α))

namespace Values

variable {α : Type}

def get (vs : Values α) (v : ℕ) : Option (Option α) := vs[v]?.join

/-- The value of a variable that is not null. -/
def deref (vs : Values α) (v : ℕ) : Option α := (vs.get v).join

end Values

namespace State

variable {α : Type}

def empty : State α := ⟨[], []⟩

def cell (s : State α) (a : ℕ) : Option α := s.cells[a]?.join

/-- The pointer of a variable that is there. -/
def ptr (s : State α) (v : ℕ) : Option (Option ℕ) := s.vars[v]?.join

/-- What a pointer is worth. -/
def worth (s : State α) (p : Option ℕ) : Option α := p.bind s.cell

def values (s : State α) : Values α := s.vars.map fun p => p.map s.worth

/-- The value a variable points to. -/
def deref (s : State α) (v : ℕ) : Option α := do s.cell (← (s.ptr v).join)

/-! ### Operations

A call on a variable that is destroyed, or on what null points to, has no
result. -/

/-- A new variable with a new cell. -/
def make (s : State α) (x : α) : State α := ⟨s.cells ++ [some x], s.vars ++ [some (some s.cells.length)]⟩

/-- A new variable that takes what another has. -/
def moveNew (s : State α) (w : ℕ) : Option (State α) := do
  let p ← s.ptr w
  return { s with vars := s.vars.set w (some none) ++ [some p] }

def swap (s : State α) (v w : ℕ) : Option (State α) := do
  let p ← s.ptr v
  let q ← s.ptr w
  return { s with vars := (s.vars.set v (some q)).set w (some p) }

/-- A write through the pointer of a variable. -/
def write (s : State α) (v : ℕ) (x : α) : Option (State α) := do
  let a ← (s.ptr v).join
  let _ ← s.cell a
  return { s with cells := s.cells.set a (some x) }

/-- The cell of a pointer is deleted; deleting null does nothing. -/
def delete (s : State α) : Option ℕ → Option (State α)
  | none => some s
  | some a => (s.cell a).map fun _ => { s with cells := s.cells.set a none }

/-- The destructor. -/
def destroy (s : State α) (v : ℕ) : Option (State α) := do
  let p ← s.ptr v
  let s ← s.delete p
  return { s with vars := s.vars.set v none }

/-- The variable behind the others is destroyed, and its name goes out of scope. -/
def popLast (s : State α) : Option (State α) := do
  let s ← s.destroy (s.vars.length - 1)
  return { s with vars := s.vars.dropLast }

/-! ### Ownership -/

/-- No two variables have one address, and the cells there are are theirs. -/
structure Owned (s : State α) : Prop where
  unique : ∀ v w a, s.ptr v = some (some a) → s.ptr w = some (some a) → v = w
  live : ∀ a, s.cell a ≠ none ↔ ∃ v, s.ptr v = some (some a)

theorem owned_empty : Owned (empty : State α) where
  unique := fun _ _ _ h => nomatch h
  live := fun _ => iff_of_false (fun h => h rfl) fun ⟨_, h⟩ => nomatch h

/-- The two computations both fail, or come to the same values with everything owned. -/
def Sim (r : Option (State α)) (vs : Option (Values α)) : Prop :=
  r.map values = vs ∧ ∀ s ∈ r, Owned s

theorem Sim.some {s : State α} (h : Owned s) : Sim (some s) (some s.values) :=
  ⟨rfl, fun _ hs => Option.some.inj hs ▸ h⟩

theorem Sim.of_eq {s : State α} {vs : Values α} (h : Owned s) (he : s.values = vs) :
    Sim (Option.some s) (Option.some vs) :=
  he ▸ Sim.some h

theorem sim_some_iff {r : Option (State α)} {vs : Values α} :
    Sim r (Option.some vs) ↔ ∃ s, r = Option.some s ∧ Owned s ∧ s.values = vs := by
  constructor
  · rintro ⟨hmap, howned⟩
    obtain ⟨s, rfl, hvalues⟩ := Option.map_eq_some_iff.mp hmap
    exact ⟨s, rfl, howned s rfl, hvalues⟩
  · rintro ⟨s, rfl, howned, hvalues⟩
    exact Sim.of_eq howned hvalues

theorem sim_none : Sim (none : Option (State α)) none := ⟨rfl, fun _ h => nomatch h⟩

/-- One after the other. -/
theorem Sim.bind {r : Option (State α)} {vs : Option (Values α)} {f : State α → Option (State α)}
    {g : Values α → Option (Values α)} (h : Sim r vs) (hf : ∀ s, Owned s → Sim (f s) (g s.values)) :
    Sim (r >>= f) (vs >>= g) := by
  obtain ⟨rfl, howned⟩ := h
  cases r with
  | none => exact sim_none
  | some s => exact hf s (howned s rfl)

variable {s : State α} {v w : ℕ}

theorem get_values (s : State α) (v : ℕ) : s.values.get v = (s.ptr v).map s.worth := by
  unfold Values.get values ptr
  rw [List.getElem?_map]
  cases s.vars[v]? with
  | none => rfl
  | some p => cases p <;> rfl

theorem deref_values (s : State α) (v : ℕ) : s.values.deref v = s.deref v := by
  unfold Values.deref deref
  rw [get_values]
  cases s.ptr v with
  | none => rfl
  | some p => cases p <;> rfl

theorem vars_of_ptr {p : Option ℕ} (h : s.ptr v = some p) : s.vars[v]? = some (some p) := by
  unfold ptr at h
  cases hv : s.vars[v]? with
  | none => rw [hv] at h; cases h
  | some q =>
    rw [hv] at h
    exact congrArg Option.some h

theorem ptr_lt {p : Option ℕ} (h : s.ptr v = some p) : v < s.vars.length :=
  (List.getElem?_eq_some_iff.mp (vars_of_ptr h)).1

/-- A variable that has an address has a cell there. -/
theorem Owned.cell_some (h : Owned s) {a : ℕ} (hv : s.ptr v = some (some a)) : ∃ x, s.cell a = some x :=
  Option.ne_none_iff_exists'.mp ((h.live a).mpr ⟨v, hv⟩)

theorem cell_lt {a : ℕ} {x : α} (h : s.cell a = some x) : a < s.cells.length := by
  unfold cell at h
  by_cases hlt : a < s.cells.length
  · exact hlt
  · rw [List.getElem?_eq_none (Nat.not_lt.mp hlt)] at h
    cases h

theorem join_set {β : Type} {l : List (Option β)} {i : ℕ} (hi : i < l.length) (y : Option β) (j : ℕ) :
    (l.set i y)[j]?.join = if j = i then y else l[j]?.join := by
  by_cases hj : j = i
  · rw [if_pos hj, hj, List.getElem?_set_self hi]
    rfl
  · rw [if_neg hj, List.getElem?_set_ne fun he => hj he.symm]

theorem join_concat {β : Type} (l : List (Option β)) (y : Option β) (j : ℕ) :
    (l ++ [y])[j]?.join = if j = l.length then y else l[j]?.join := by
  rw [RefHeap.getElem?_concat]
  split <;> rfl

/-! ### What the operations come to -/

/-- Pointers that are worth the same make the same values. -/
theorem values_congr {s' : State α} (hvars : s'.vars = s.vars)
    (h : ∀ v a, s.ptr v = some (some a) → s'.cell a = s.cell a) : s'.values = s.values := by
  unfold values
  rw [hvars]
  apply List.map_congr_left
  intro p hp
  obtain ⟨v, hv⟩ := List.getElem?_of_mem hp
  cases p with
  | none => rfl
  | some q =>
    cases q with
    | none => rfl
    | some a =>
      have hptr : s.ptr v = some (some a) := by
        rw [ptr, hv]
        rfl
      exact congrArg Option.some (h v a hptr)

/-- Where one variable is changed, and what the others point to stays. -/
theorem values_set (s' : State α) {y : Option (Option ℕ)} (hvars : s'.vars = s.vars.set v y)
    (h : ∀ u a, u ≠ v → s.ptr u = some (some a) → s'.cell a = s.cell a) :
    s'.values = s.values.set v (y.map s'.worth) := by
  unfold values
  rw [hvars, List.map_set]
  apply List.ext_getElem?
  intro u
  rw [List.getElem?_set, List.getElem?_set, List.length_map, List.length_map, List.getElem?_map, List.getElem?_map]
  by_cases hu : v = u
  · rw [if_pos hu, if_pos hu]
  · rw [if_neg hu, if_neg hu]
    rcases hq : s.vars[u]? with _ | _ | _ | a
    · rfl
    · rfl
    · rfl
    · have hptr : s.ptr u = some (some a) := by
        rw [ptr, hq]
        rfl
      exact congrArg (fun x => some (some x)) (h u a (Ne.symm hu) hptr)

theorem Owned.length_not_held (h : Owned s) : s.ptr v ≠ some (some s.cells.length) := by
  intro hv
  obtain ⟨x, hx⟩ := h.cell_some hv
  exact Nat.lt_irrefl _ (cell_lt hx)

theorem sim_make (h : Owned s) (x : α) : Sim (some (s.make x)) (some (s.values ++ [some (some x)])) := by
  have hcell : ∀ a, (s.make x).cell a = if a = s.cells.length then some x else s.cell a :=
    fun a => join_concat s.cells (some x) a
  have hptr : ∀ v, (s.make x).ptr v = if v = s.vars.length then some (some s.cells.length) else s.ptr v :=
    fun v => join_concat s.vars _ v
  have hold : ∀ v a, s.ptr v = some (some a) → a ≠ s.cells.length := fun v a hv he =>
    h.length_not_held (he ▸ hv)
  refine Sim.of_eq ⟨?_, ?_⟩ ?_
  · intro v w a hv hw
    rw [hptr] at hv hw
    split_ifs at hv hw with h1 h2 h2
    · exact h1.trans h2.symm
    · cases hv
      exact absurd rfl (hold w _ hw)
    · cases hw
      exact absurd rfl (hold v _ hv)
    · exact h.unique v w a hv hw
  · intro a
    rw [hcell]
    by_cases ha : a = s.cells.length
    · rw [if_pos ha]
      exact iff_of_true (Option.some_ne_none x) ⟨s.vars.length, by rw [hptr, if_pos rfl, ha]⟩
    · rw [if_neg ha, h.live a]
      constructor
      · rintro ⟨v, hv⟩
        exact ⟨v, by rw [hptr, if_neg (Nat.ne_of_lt (ptr_lt hv)), hv]⟩
      · rintro ⟨v, hv⟩
        rw [hptr] at hv
        split_ifs at hv
        · cases hv
          exact absurd rfl ha
        · exact ⟨v, hv⟩
  · have hsame : (⟨s.cells ++ [some x], s.vars⟩ : State α).values = s.values :=
      values_congr rfl fun v a hv => (hcell a).trans (if_neg (hold v a hv))
    have hnew : (s.make x).worth (some s.cells.length) = some x := by
      rw [worth, Option.bind_some, hcell, if_pos rfl]
    calc (s.make x).values
        = (⟨s.cells ++ [some x], s.vars⟩ : State α).values ++ [some ((s.make x).worth (some s.cells.length))] :=
          List.map_append
      _ = s.values ++ [some (some x)] := by rw [hsame, hnew]

/-- Where the variables have the same addresses as before, each once, everything
is owned still. -/
theorem Owned.permute {vars' : List (Option (Option ℕ))} (h : Owned s) (f : ℕ → ℕ)
    (hf : ∀ (v : ℕ) a, vars'[v]?.join = some (some a) → s.ptr (f v) = some (some a))
    (hinj : ∀ (v w : ℕ) a b, vars'[v]?.join = some (some a) → vars'[w]?.join = some (some b) → f v = f w → v = w)
    (hsurj : ∀ v a, s.ptr v = some (some a) → ∃ w : ℕ, vars'[w]?.join = some (some a)) :
    Owned ⟨s.cells, vars'⟩ := by
  constructor
  · intro v w a hv hw
    exact hinj v w a a hv hw (h.unique _ _ a (hf v a hv) (hf w a hw))
  · intro a
    refine (h.live a).trans ⟨?_, ?_⟩
    · rintro ⟨v, hv⟩
      exact hsurj v a hv
    · rintro ⟨v, hv⟩
      exact ⟨f v, hf v a hv⟩

theorem sim_moveNew (h : Owned s) (w : ℕ) :
    Sim (s.moveNew w) ((s.values.get w).map fun q => s.values.set w (some none) ++ [some q]) := by
  rw [get_values]
  unfold moveNew
  cases hw : s.ptr w with
  | none => exact sim_none
  | some p =>
    have hlt := ptr_lt hw
    have hptr : ∀ v, (s.vars.set w (some none) ++ [some p])[v]?.join =
        if v = s.vars.length then some p else if v = w then some none else s.ptr v := fun v => by
      rw [join_concat, List.length_set, join_set hlt]
      rfl
    refine Sim.of_eq (h.permute (fun v => if v = s.vars.length then w else v) ?_ ?_ ?_) ?_
    · intro v a hv
      rw [hptr] at hv
      split_ifs at hv ⊢ with h1 h2
      · exact hw.trans hv
      · cases hv
      · exact hv
    · intro v u a b hv hu he
      have hne : ∀ t c, (s.vars.set w (some none) ++ [some p])[t]?.join = some (some c) →
          t ≠ s.vars.length → t ≠ w := by
        intro t c ht hlen htw
        rw [hptr, if_neg hlen, if_pos htw] at ht
        cases ht
      split_ifs at he with h1 h2 h2
      · exact h1.trans h2.symm
      · exact absurd he.symm (hne u b hu h2)
      · exact absurd he (hne v a hv h1)
      · exact he
    · intro v a hv
      by_cases hvw : v = w
      · exact ⟨s.vars.length, by rw [hptr, if_pos rfl, ← hw, ← hvw, hv]⟩
      · exact ⟨v, by rw [hptr, if_neg (Nat.ne_of_lt (ptr_lt hv)), if_neg hvw, hv]⟩
    · show (s.vars.set w (some none) ++ [some p]).map _ = _
      rw [List.map_append, List.map_set]
      rfl

theorem sim_swap (h : Owned s) (v w : ℕ) :
    Sim (s.swap v w) (do
      let p ← s.values.get v
      let q ← s.values.get w
      return (s.values.set v (some q)).set w (some p)) := by
  rw [get_values, get_values]
  unfold swap
  cases hv : s.ptr v with
  | none => exact sim_none
  | some p =>
    cases hw : s.ptr w with
    | none => exact sim_none
    | some q =>
      have hptr : ∀ u, ((s.vars.set v (some q)).set w (some p))[u]?.join =
          if u = w then some p else if u = v then some q else s.ptr u := fun u => by
        rw [join_set (by rw [List.length_set]; exact ptr_lt hw), join_set (ptr_lt hv)]
        rfl
      refine Sim.of_eq (h.permute (fun u => if u = w then v else if u = v then w else u) ?_ ?_ ?_) ?_
      · intro u a hu
        rw [hptr] at hu
        split_ifs at hu ⊢ with h1 h2
        · exact hv.trans hu
        · exact hw.trans hu
        · exact hu
      · intro u t a b _ _ he
        split_ifs at he <;> omega
      · intro u a hu
        by_cases hu1 : u = w
        · by_cases hvw : v = w
          · exact ⟨w, by rw [hptr, if_pos rfl, ← hv, hvw, ← hu1, hu]⟩
          · exact ⟨v, by rw [hptr, if_neg hvw, if_pos rfl, ← hw, ← hu1, hu]⟩
        · by_cases hu2 : u = v
          · exact ⟨w, by rw [hptr, if_pos rfl, ← hv, ← hu2, hu]⟩
          · exact ⟨u, by rw [hptr, if_neg hu1, if_neg hu2, hu]⟩
      · show ((s.vars.set v (some q)).set w (some p)).map _ = _
        rw [List.map_set, List.map_set]
        rfl

/-- A write reaches one variable. -/
theorem sim_write (h : Owned s) (v : ℕ) (x : α) :
    Sim (s.write v x) ((s.values.deref v).map fun _ => s.values.set v (some (some x))) := by
  rw [deref_values]
  unfold write deref
  cases hv : s.ptr v with
  | none => exact sim_none
  | some p =>
    cases p with
    | none => exact sim_none
    | some a =>
      obtain ⟨y, hy⟩ := h.cell_some hv
      have hlt := cell_lt hy
      simp only [Option.join_some, Option.bind_eq_bind, Option.bind_some, hy, Option.map_some]
      have hcell : ∀ b, (⟨s.cells.set a (some x), s.vars⟩ : State α).cell b = if b = a then some x else s.cell b :=
        fun b => join_set hlt (some x) b
      refine Sim.of_eq ⟨h.unique, fun b => ?_⟩ ?_
      · rw [hcell]
        by_cases hb : b = a
        · rw [if_pos hb]
          exact iff_of_true (Option.some_ne_none x) ⟨v, hb ▸ hv⟩
        · rw [if_neg hb]
          exact h.live b
      · have hvars : s.vars = s.vars.set v (some (some a)) := by
          rw [← (List.getElem?_eq_some_iff.mp (vars_of_ptr hv)).2, List.set_getElem_self]
        have hother : ∀ u b, u ≠ v → s.ptr u = some (some b) → b ≠ a := fun u b hu hb he =>
          hu (h.unique u v b hb (he ▸ hv))
        have hset := values_set ⟨s.cells.set a (some x), s.vars⟩ hvars fun u b hu hb =>
          (hcell b).trans (if_neg (hother u b hu hb))
        rw [hset]
        show s.values.set v (some (State.cell _ a)) = _
        rw [hcell, if_pos rfl]

/-- A variable that owns nothing any more, with the cell it had deleted. -/
theorem Owned.dropped (h : Owned s) {p : Option ℕ} (hv : s.ptr v = some p) {cells : List (Option α)}
    (hcells : ∀ b, cells[b]?.join = if p = some b then none else s.cell b) :
    Owned ⟨cells, s.vars.set v none⟩ := by
  have hptr : ∀ u, (⟨cells, s.vars.set v none⟩ : State α).ptr u = if u = v then none else s.ptr u :=
    join_set (ptr_lt hv) none
  constructor
  · intro u t b hu ht
    rw [hptr] at hu ht
    split_ifs at hu ht
    exact h.unique u t b hu ht
  · intro b
    show cells[b]?.join ≠ none ↔ _
    rw [hcells]
    by_cases hb : p = some b
    · rw [if_pos hb]
      refine iff_of_false (fun hne => hne rfl) ?_
      rintro ⟨u, hu⟩
      rw [hptr] at hu
      split_ifs at hu with huv
      exact huv (h.unique u v b hu (hb ▸ hv))
    · rw [if_neg hb, h.live b]
      constructor
      · rintro ⟨u, hu⟩
        have huv : u ≠ v := by
          rintro rfl
          exact hb (Option.some.inj (hv.symm.trans hu))
        exact ⟨u, by rw [hptr, if_neg huv, hu]⟩
      · rintro ⟨u, hu⟩
        rw [hptr] at hu
        split_ifs at hu
        exact ⟨u, hu⟩

/-- The cell of a destroyed variable is gone, and no other. -/
theorem destroy_ok (h : Owned s) {p : Option ℕ} (hv : s.ptr v = some p) : ∃ s', s.destroy v = some s' ∧
    Owned s' ∧ s'.vars = s.vars.set v none ∧ s'.values = s.values.set v none := by
  unfold destroy
  rw [hv]
  cases p with
  | none => exact ⟨_, rfl, h.dropped hv fun b => rfl, rfl, List.map_set ..⟩
  | some a =>
    obtain ⟨y, hy⟩ := h.cell_some hv
    simp only [Option.bind_eq_bind, Option.bind_some, delete, hy, Option.map_some]
    have hcell : ∀ b, (s.cells.set a none)[b]?.join = if b = a then none else s.cell b := join_set (cell_lt hy) none
    have hother : ∀ u b, u ≠ v → s.ptr u = some (some b) → b ≠ a := fun u b hu hb he =>
      hu (h.unique u v b hb (he ▸ hv))
    refine ⟨_, rfl, h.dropped hv fun b => ?_, rfl, ?_⟩
    · rw [hcell]
      simp only [Option.some.injEq, eq_comm]
    · exact values_set ⟨s.cells.set a none, s.vars.set v none⟩ rfl fun u b hu hb =>
        (hcell b).trans (if_neg (hother u b hu hb))

theorem sim_destroy (h : Owned s) (v : ℕ) :
    Sim (s.destroy v) ((s.values.get v).map fun _ => s.values.set v none) := by
  rw [get_values]
  cases hv : s.ptr v with
  | none =>
    unfold destroy
    rw [hv]
    exact sim_none
  | some p =>
    obtain ⟨s', hs', howned, -, hvalues⟩ := destroy_ok h hv
    rw [hs']
    exact Sim.of_eq howned hvalues

/-- A name that goes out of scope takes its cell along. -/
theorem sim_popLast (h : Owned s) :
    Sim s.popLast ((s.values.get (s.values.length - 1)).map fun _ => s.values.dropLast) := by
  have hlen : s.values.length = s.vars.length := List.length_map _
  rw [get_values, hlen]
  unfold popLast
  cases hv : s.ptr (s.vars.length - 1) with
  | none =>
    unfold destroy
    rw [hv]
    exact sim_none
  | some p =>
    obtain ⟨s', hs', howned, hvars, hvalues⟩ := destroy_ok h hv
    rw [hs']
    have hlt := ptr_lt hv
    have hvars' : s'.vars = s'.vars.dropLast ++ [none] := by
      have hne : s'.vars ≠ [] := by
        rw [hvars, ← List.length_pos_iff, List.length_set]
        omega
      have hlast : s'.vars.getLast hne = none := by
        simp only [hvars, List.getLast_eq_getElem, List.length_set, List.getElem_set_self]
      rw [← hlast, List.dropLast_append_getLast]
    have hptr : ∀ u, s'.ptr u = if u = s'.vars.dropLast.length then none else s'.vars.dropLast[u]?.join := by
      intro u
      rw [← join_concat, ← hvars']
      rfl
    refine Sim.of_eq (howned.permute id ?_ ?_ ?_) ?_
    · intro u a hu
      show s'.ptr u = _
      rw [hptr, if_neg, hu]
      rintro rfl
      rw [List.getElem?_eq_none (Nat.le_refl _)] at hu
      cases hu
    · intro u t a b _ _ he
      exact he
    · intro u a hu
      rw [hptr] at hu
      split_ifs at hu
      exact ⟨u, hu⟩
    · calc (⟨s'.cells, s'.vars.dropLast⟩ : State α).values = s'.values.dropLast := List.map_dropLast
        _ = (s.values.set (s.vars.length - 1) none).dropLast := by rw [hvalues]
        _ = s.values.dropLast := by
          rw [List.dropLast_eq_take, List.dropLast_eq_take, List.length_set, List.take_set, hlen]
          apply List.set_eq_of_length_le
          rw [List.length_take]
          exact Nat.min_le_left _ _

/-- Copy and swap: a variable gets what the one behind the others has, and that is
destroyed with what the variable had. -/
theorem sim_swap_popLast (h : Owned s) {vs : Values α} {x y : Option α} (hvs : s.values = vs ++ [some y])
    (hv : vs.get v = some x) : Sim (s.swap vs.length v >>= popLast) (some (vs.set v (some y))) := by
  have hlt : v < vs.length := by
    by_cases hlt : v < vs.length
    · exact hlt
    · rw [Values.get, List.getElem?_eq_none (Nat.not_lt.mp hlt)] at hv
      cases hv
  have hlast : s.values.get vs.length = some y := by
    rw [hvs, Values.get, List.getElem?_concat_length]
    rfl
  have hget : s.values.get v = some x := by
    rw [hvs, Values.get, List.getElem?_append_left hlt]
    exact hv
  have hset : (s.values.set vs.length (some x)).set v (some y) = vs.set v (some y) ++ [some x] := by
    rw [hvs, List.set_append_right _ _ (Nat.le_refl _), Nat.sub_self, List.set_append_left _ _ hlt]
    rfl
  have hswap := sim_swap h vs.length v
  rw [hlast, hget] at hswap
  obtain ⟨t, ht, howned, hvalues⟩ := sim_some_iff.mp hswap
  rw [hset] at hvalues
  have hend : t.values.get (t.values.length - 1) = some x := by
    rw [hvalues, Values.get, List.length_append, List.length_singleton, Nat.add_sub_cancel,
      List.getElem?_concat_length]
    rfl
  have hpop := sim_popLast howned
  rw [hend, Option.map_some, hvalues, List.dropLast_concat] at hpop
  rw [ht]
  exact hpop

end State

end UniquePtr
