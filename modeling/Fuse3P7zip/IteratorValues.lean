/-
# Iterators are values

A `ci_iterator` has its `Impl` behind a `unique_ptr`. Its constructors make
an `Impl` of their own, its assignments construct a temporary, swap with it
and destroy it, and compare pointers first; `operator++` writes through the
pointer. `Plain` is what one expects of all this: variables that are plain
values, or moved from.

Key theorem: `iterators_are_values`, for every sequence of operations on any
number of iterators.
-/
import Fuse3P7zip.Iteration
import Fuse3P7zip.Lib.UniquePtr

namespace Fuse3P7zip

open UniquePtr (State Values)
open UniquePtr.State (Owned Sim)

/-- The `ci_iterator` variables, and the `Impl`s. -/
abbrev CiIterators := State CiIterator

namespace CiIterators

/-- `ci_iterator(const ci_iterator&)` -/
def copy (s : CiIterators) (other : ℕ) : Option CiIterators := do
  let impl ← s.deref other
  return s.make impl

/-- `ci_iterator(ci_iterator&&)` -/
def move (s : CiIterators) (other : ℕ) : Option CiIterators := s.moveNew other

/-- `operator=(const ci_iterator&)`: the copy is the variable behind the others. -/
def copyAssign (s : CiIterators) (v other : ℕ) : Option CiIterators := do
  let p ← s.ptr v
  let q ← s.ptr other
  if p ≠ q then
    let tmp := s.vars.length
    let s ← s.copy other
    let s ← s.swap tmp v
    s.popLast
  else return s

/-- `operator=(ci_iterator&&)` -/
def moveAssign (s : CiIterators) (v other : ℕ) : Option CiIterators := do
  let p ← s.ptr v
  let q ← s.ptr other
  if p ≠ q then
    let tmp := s.vars.length
    let s ← s.move other
    let s ← s.swap tmp v
    s.popLast
  else return s

/-- `operator++` -/
def advance (arc : ImplArchive) (s : CiIterators) (v : ℕ) : Option CiIterators := do
  let impl ← s.deref v
  let impl ← (arc.next impl).toOption
  s.write v impl

/-- `operator++(int)`: what it returns is the variable behind the others. -/
def postAdvance (arc : ImplArchive) (s : CiIterators) (v : ℕ) : Option CiIterators := do
  let s ← s.copy v
  s.advance arc v

/-- `operator==` -/
def equal (s : CiIterators) (v w : ℕ) : Option Bool := do
  let impl ← s.deref v
  let rhs ← s.deref w
  return impl.eq rhs

/-- What is done with iterators. -/
inductive Op where
  | begin
  | ending
  | «at» (index : UInt64)
  | copy (other : ℕ)
  | move (other : ℕ)
  | copyAssign (v other : ℕ)
  | moveAssign (v other : ℕ)
  | swap (v other : ℕ)
  | advance (v : ℕ)
  | postAdvance (v : ℕ)
  | destroy (v : ℕ)
  deriving DecidableEq

def exec (arc : ImplArchive) (s : CiIterators) : Op → Option CiIterators
  | .begin => some (s.make arc.begin)
  | .ending => some (s.make .ending)
  | .«at» index => (arc.itemAt index).toOption.map s.make
  | .copy other => s.copy other
  | .move other => s.move other
  | .copyAssign v other => s.copyAssign v other
  | .moveAssign v other => s.moveAssign v other
  | .swap v other => s.swap v other
  | .advance v => s.advance arc v
  | .postAdvance v => s.postAdvance arc v
  | .destroy v => s.destroy v

def run (arc : ImplArchive) (ops : List Op) (s : CiIterators) : Option CiIterators := ops.foldlM (exec arc) s

/-! ### On plain values -/

namespace Plain

/-- A new variable. -/
def push (vs : Values CiIterator) (it : CiIterator) : Values CiIterator := vs ++ [some (some it)]

def copy (vs : Values CiIterator) (other : ℕ) : Option (Values CiIterator) := (vs.deref other).map (push vs)

/-- The new variable has what the other had, which is moved from. -/
def move (vs : Values CiIterator) (other : ℕ) : Option (Values CiIterator) :=
  (vs.get other).map fun x => vs.set other (some none) ++ [some x]

/-- A variable that is moved from cannot be copied, other than to itself or to
another that is. -/
def copyAssign (vs : Values CiIterator) (v other : ℕ) : Option (Values CiIterator) := do
  let x ← vs.get v
  let y ← vs.get other
  if v = other ∨ (x = none ∧ y = none) then return vs
  else y.map fun it => vs.set v (some (some it))

def moveAssign (vs : Values CiIterator) (v other : ℕ) : Option (Values CiIterator) := do
  let _ ← vs.get v
  let y ← vs.get other
  if v = other then return vs
  else return (vs.set other (some none)).set v (some y)

def swap (vs : Values CiIterator) (v other : ℕ) : Option (Values CiIterator) := do
  let x ← vs.get v
  let y ← vs.get other
  return (vs.set v (some y)).set other (some x)

def advance (arc : ImplArchive) (vs : Values CiIterator) (v : ℕ) : Option (Values CiIterator) := do
  let it ← vs.deref v
  let it ← (arc.next it).toOption
  return vs.set v (some (some it))

/-- The new variable has what `v` had. -/
def postAdvance (arc : ImplArchive) (vs : Values CiIterator) (v : ℕ) : Option (Values CiIterator) := do
  let it ← vs.deref v
  let vs ← advance arc vs v
  return push vs it

def destroy (vs : Values CiIterator) (v : ℕ) : Option (Values CiIterator) := (vs.get v).map fun _ => vs.set v none

/-- `operator==` -/
def equal (vs : Values CiIterator) (v w : ℕ) : Option Bool := do
  let it ← vs.deref v
  let rhs ← vs.deref w
  return it.eq rhs

def exec (arc : ImplArchive) (vs : Values CiIterator) : Op → Option (Values CiIterator)
  | .begin => some (push vs arc.begin)
  | .ending => some (push vs .ending)
  | .«at» index => (arc.itemAt index).toOption.map (push vs)
  | .copy other => copy vs other
  | .move other => move vs other
  | .copyAssign v other => copyAssign vs v other
  | .moveAssign v other => moveAssign vs v other
  | .swap v other => swap vs v other
  | .advance v => advance arc vs v
  | .postAdvance v => postAdvance arc vs v
  | .destroy v => destroy vs v

def run (arc : ImplArchive) (ops : List Op) (vs : Values CiIterator) : Option (Values CiIterator) :=
  ops.foldlM (exec arc) vs

end Plain

/-- The variables an operation changes. -/
def Op.changes : Op → List ℕ
  | .move other => [other]
  | .copyAssign v _ => [v]
  | .moveAssign v other => [v, other]
  | .swap v other => [v, other]
  | .advance v => [v]
  | .postAdvance v => [v]
  | .destroy v => [v]
  | .begin | .ending | .«at» _ | .copy _ => []

variable {s : CiIterators} {v w : ℕ} {arc : ImplArchive}

theorem worth_eq_none_iff (h : Owned s) {p : Option ℕ} (hp : s.ptr v = some p) : s.worth p = none ↔ p = none := by
  cases p with
  | none => exact iff_of_true rfl rfl
  | some a =>
    obtain ⟨x, hx⟩ := h.cell_some hp
    rw [State.worth, Option.bind_some, hx]
    simp

/-- Two variables have one pointer when they are one, or both moved from. -/
theorem ptr_eq_iff (h : Owned s) {p q : Option ℕ} (hp : s.ptr v = some p) (hq : s.ptr w = some q) :
    p = q ↔ v = w ∨ (s.worth p = none ∧ s.worth q = none) := by
  rw [worth_eq_none_iff h hp, worth_eq_none_iff h hq]
  constructor
  · rintro rfl
    cases p with
    | none => exact .inr ⟨rfl, rfl⟩
    | some a => exact .inl (h.unique v w a hp hq)
  · rintro (rfl | ⟨rfl, rfl⟩)
    · exact Option.some.inj (hp.symm.trans hq)
    · rfl

theorem sim_copy (h : Owned s) (w : ℕ) : Sim (s.copy w) (Plain.copy s.values w) := by
  unfold copy Plain.copy
  rw [State.deref_values]
  cases s.deref w with
  | none => exact State.sim_none
  | some it => exact State.sim_make h it

theorem sim_copyAssign (h : Owned s) (v w : ℕ) :
    Sim (s.copyAssign v w) (Plain.copyAssign s.values v w) := by
  unfold copyAssign Plain.copyAssign
  cases hp : s.ptr v with
  | none =>
    rw [State.get_values, hp]
    exact State.sim_none
  | some p =>
    cases hq : s.ptr w with
    | none =>
      rw [State.get_values, State.get_values, hp, hq]
      exact State.sim_none
    | some q =>
      have hv : s.values.get v = some (s.worth p) := by
        rw [State.get_values, hp]
        rfl
      have hw : s.values.get w = some (s.worth q) := by
        rw [State.get_values, hq]
        rfl
      rw [hv, hw]
      simp only [Option.bind_eq_bind, Option.bind_some, ne_eq, ite_not]
      by_cases hpq : p = q
      · rw [if_pos hpq, if_pos ((ptr_eq_iff h hp hq).mp hpq)]
        exact Sim.some h
      · rw [if_neg hpq, if_neg fun he => hpq ((ptr_eq_iff h hp hq).mpr he)]
        have hcopy := sim_copy h w
        rw [Plain.copy, Values.deref, hw, Option.join_some] at hcopy
        cases hworth : s.worth q with
        | none =>
          rw [hworth] at hcopy
          obtain ⟨hnone, -⟩ := hcopy
          rw [Option.map_eq_none_iff.mp hnone]
          exact State.sim_none
        | some it =>
          rw [hworth] at hcopy
          obtain ⟨t, ht, howned, hvalues⟩ := State.sim_some_iff.mp hcopy
          have hlen : s.vars.length = s.values.length := (List.length_map _).symm
          rw [ht, hlen]
          exact State.sim_swap_popLast howned hvalues hv

/-- A variable gets what it has. -/
theorem set_get {vs : Values CiIterator} {x : Option CiIterator} (h : vs.get v = some x) : vs.set v (some x) = vs := by
  unfold Values.get at h
  have hv : vs[v]? = some (some x) := by
    cases hv : vs[v]? with
    | none => rw [hv] at h; cases h
    | some y => rw [hv] at h; exact congrArg some h
  obtain ⟨hlt, he⟩ := List.getElem?_eq_some_iff.mp hv
  rw [← he, List.set_getElem_self]

theorem get_set_ne {vs : Values CiIterator} {y : Option (Option CiIterator)} (hvw : v ≠ w) :
    Values.get (vs.set w y) v = vs.get v := by
  rw [Values.get, List.getElem?_set_ne hvw.symm]
  rfl

theorem sim_moveAssign (h : Owned s) (v w : ℕ) : Sim (s.moveAssign v w) (Plain.moveAssign s.values v w) := by
  unfold moveAssign Plain.moveAssign
  cases hp : s.ptr v with
  | none =>
    rw [State.get_values, hp]
    exact State.sim_none
  | some p =>
    cases hq : s.ptr w with
    | none =>
      rw [State.get_values, State.get_values, hp, hq]
      exact State.sim_none
    | some q =>
      have hv : s.values.get v = some (s.worth p) := by
        rw [State.get_values, hp]
        rfl
      have hw : s.values.get w = some (s.worth q) := by
        rw [State.get_values, hq]
        rfl
      rw [hv, hw]
      simp only [Option.bind_eq_bind, Option.bind_some, ne_eq, ite_not]
      by_cases hpq : p = q
      · rw [if_pos hpq]
        rcases (ptr_eq_iff h hp hq).mp hpq with hvw | ⟨hx, hy⟩
        · rw [if_pos hvw]
          exact Sim.some h
        · -- both are moved from, and stay that
          rw [hy] at hw ⊢
          rw [hx] at hv
          rw [set_get hw, set_get hv, ite_self]
          exact Sim.some h
      · have hvw : v ≠ w := fun he => hpq ((ptr_eq_iff h hp hq).mpr (.inl he))
        rw [if_neg hpq, if_neg hvw]
        have hmove := State.sim_moveNew h w
        rw [hw] at hmove
        obtain ⟨t, ht, howned, hvalues⟩ := State.sim_some_iff.mp hmove
        have hlen : s.vars.length = (s.values.set w (some none)).length := by
          rw [List.length_set]
          exact (List.length_map _).symm
        rw [move, ht, hlen]
        exact State.sim_swap_popLast howned hvalues ((get_set_ne hvw).trans hv)

theorem sim_advance (arc : ImplArchive) (h : Owned s) (v : ℕ) :
    Sim (s.advance arc v) (Plain.advance arc s.values v) := by
  unfold advance Plain.advance
  rw [← State.deref_values]
  cases hv : s.values.deref v with
  | none => exact State.sim_none
  | some it =>
    simp only [Option.bind_eq_bind, Option.bind_some]
    cases (arc.next it).toOption with
    | none => exact State.sim_none
    | some it' =>
      have hwrite := State.sim_write h v it'
      rw [hv] at hwrite
      exact hwrite

/-- Advancing a variable and constructing another do not get in each other's way. -/
theorem advance_push {vs : Values CiIterator} {it : CiIterator} (arc : ImplArchive) (hv : vs.deref v = some it)
    (x : CiIterator) : Plain.advance arc (Plain.push vs x) v = (Plain.advance arc vs v).map fun vs => Plain.push vs x := by
  have hlt : v < vs.length := by
    by_cases hlt : v < vs.length
    · exact hlt
    · rw [Values.deref, Values.get, List.getElem?_eq_none (Nat.not_lt.mp hlt)] at hv
      cases hv
  have hpush : Values.deref (Plain.push vs x) v = vs.deref v := by
    rw [Values.deref, Values.get, Plain.push, List.getElem?_append_left hlt]
    rfl
  unfold Plain.advance
  rw [hpush, hv]
  simp only [Option.bind_eq_bind, Option.bind_some]
  cases (arc.next it).toOption with
  | none => rfl
  | some it' => exact congrArg some (List.set_append_left _ _ hlt)

theorem sim_postAdvance (arc : ImplArchive) (h : Owned s) (v : ℕ) :
    Sim (s.postAdvance arc v) (Plain.postAdvance arc s.values v) := by
  have hcopy := sim_copy h v
  unfold postAdvance Plain.postAdvance
  rw [Plain.copy] at hcopy
  cases hv : s.values.deref v with
  | none =>
    rw [hv] at hcopy
    rw [Option.map_eq_none_iff.mp hcopy.1]
    exact State.sim_none
  | some it =>
    rw [hv] at hcopy
    obtain ⟨t, ht, howned, hvalues⟩ := State.sim_some_iff.mp hcopy
    have hnext := sim_advance arc howned v
    rw [hvalues, advance_push arc hv] at hnext
    rw [ht]
    simp only [Option.bind_eq_bind, Option.bind_some]
    cases hadv : Plain.advance arc s.values v with
    | none =>
      rw [hadv] at hnext
      exact hnext
    | some vs =>
      rw [hadv] at hnext
      exact hnext

/-- An operation on pointers is the one on values. -/
theorem sim_exec (arc : ImplArchive) (h : Owned s) (op : Op) : Sim (s.exec arc op) (Plain.exec arc s.values op) := by
  cases op with
  | begin => exact State.sim_make h _
  | ending => exact State.sim_make h _
  | «at» index =>
    show Sim ((arc.itemAt index).toOption.map s.make) ((arc.itemAt index).toOption.map (Plain.push s.values))
    cases (arc.itemAt index).toOption with
    | none => exact State.sim_none
    | some it => exact State.sim_make h it
  | copy other => exact sim_copy h other
  | move other => exact State.sim_moveNew h other
  | copyAssign v other => exact sim_copyAssign h v other
  | moveAssign v other => exact sim_moveAssign h v other
  | swap v other => exact State.sim_swap h v other
  | advance v => exact sim_advance arc h v
  | postAdvance v => exact sim_postAdvance arc h v
  | destroy v => exact State.sim_destroy h v

theorem sim_run (arc : ImplArchive) : ∀ (ops : List Op) {s : CiIterators}, Owned s →
    Sim (run arc ops s) (Plain.run arc ops s.values)
  | [], _, h => Sim.some h
  | op :: ops, _, h => (sim_exec arc h op).bind fun _ ht => sim_run arc ops ht

/-! ### What an operation leaves alone -/

theorem get_append {vs : Values CiIterator} {x : Option CiIterator} (hv : vs.get v = some x)
    (ws : Values CiIterator) : Values.get (vs ++ ws) v = some x := by
  have hlt : v < vs.length := by
    by_cases hlt : v < vs.length
    · exact hlt
    · rw [Values.get, List.getElem?_eq_none (Nat.not_lt.mp hlt)] at hv
      cases hv
  rw [Values.get, List.getElem?_append_left hlt]
  exact hv

namespace Plain

variable {vs vs' : Values CiIterator} {x : Option CiIterator}

theorem get_advance (h : advance arc vs w = some vs') (hv : vs.get v = some x) (hvw : v ≠ w) : vs'.get v = some x := by
  obtain ⟨it, -, h⟩ := Option.bind_eq_some_iff.mp h
  obtain ⟨it', -, h⟩ := Option.bind_eq_some_iff.mp h
  cases h
  exact (get_set_ne hvw).trans hv

/-- A variable that an operation does not change stays as it is. -/
theorem get_exec {op : Op} (h : exec arc vs op = some vs') (hv : vs.get v = some x) (hop : v ∉ op.changes) :
    vs'.get v = some x := by
  cases op with
  | begin => cases h; exact get_append hv _
  | ending => cases h; exact get_append hv _
  | «at» index =>
    obtain ⟨it, -, rfl⟩ := Option.map_eq_some_iff.mp h
    exact get_append hv _
  | copy other =>
    obtain ⟨it, -, rfl⟩ := Option.map_eq_some_iff.mp h
    exact get_append hv _
  | move other =>
    obtain ⟨y, -, rfl⟩ := Option.map_eq_some_iff.mp h
    exact get_append ((get_set_ne (List.ne_of_not_mem_cons hop)).trans hv) _
  | copyAssign u other =>
    obtain ⟨y, -, h⟩ := Option.bind_eq_some_iff.mp h
    obtain ⟨z, -, h⟩ := Option.bind_eq_some_iff.mp h
    split_ifs at h
    · cases h
      exact hv
    · obtain ⟨it, -, rfl⟩ := Option.map_eq_some_iff.mp h
      exact (get_set_ne (List.ne_of_not_mem_cons hop)).trans hv
  | moveAssign u other =>
    obtain ⟨y, -, h⟩ := Option.bind_eq_some_iff.mp h
    obtain ⟨z, -, h⟩ := Option.bind_eq_some_iff.mp h
    have hu := List.ne_of_not_mem_cons hop
    have hother := List.ne_of_not_mem_cons (List.not_mem_of_not_mem_cons hop)
    split_ifs at h
    · cases h
      exact hv
    · cases h
      exact (get_set_ne hu).trans ((get_set_ne hother).trans hv)
  | swap u other =>
    obtain ⟨y, -, h⟩ := Option.bind_eq_some_iff.mp h
    obtain ⟨z, -, h⟩ := Option.bind_eq_some_iff.mp h
    have hu := List.ne_of_not_mem_cons hop
    have hother := List.ne_of_not_mem_cons (List.not_mem_of_not_mem_cons hop)
    cases h
    exact (get_set_ne hother).trans ((get_set_ne hu).trans hv)
  | advance u => exact get_advance h hv (List.ne_of_not_mem_cons hop)
  | postAdvance u =>
    obtain ⟨it, -, h⟩ := Option.bind_eq_some_iff.mp h
    obtain ⟨ws, hadv, h⟩ := Option.bind_eq_some_iff.mp h
    cases h
    exact get_append (get_advance hadv hv (List.ne_of_not_mem_cons hop)) _
  | destroy u =>
    obtain ⟨y, -, rfl⟩ := Option.map_eq_some_iff.mp h
    exact (get_set_ne (List.ne_of_not_mem_cons hop)).trans hv

theorem get_run : ∀ {ops : List Op} {vs : Values CiIterator}, run arc ops vs = some vs' → vs.get v = some x →
    (∀ op ∈ ops, v ∉ op.changes) → vs'.get v = some x
  | [], _, h, hv, _ => by
    cases h
    exact hv
  | op :: ops, _, h, hv, hops => by
    obtain ⟨ws, hop, h⟩ := Option.bind_eq_some_iff.mp h
    obtain ⟨hfirst, hrest⟩ := List.forall_mem_cons.mp hops
    exact get_run h (get_exec hop hv hfirst) hrest

end Plain

/-- **Iterators are values.** Whatever is constructed, copied, moved, assigned,
swapped, advanced and destroyed, in any order: the program does something
undefined exactly where a variable is used that is destroyed, or read that is
moved from, or an iterator without an archive is advanced; and where it does
not, every variable has the value it would have if it were a plain one, also
when assigned to itself, so that `operator==` compares these. No two variables
share an `Impl`, and the `Impl`s there are are those of the variables that are
there and not moved from: once all are destroyed, none is left. A variable that
later operations do not change keeps its value. -/
theorem iterators_are_values (arc : ImplArchive) (ops : List Op) :
    (run arc ops .empty).map State.values = Plain.run arc ops [] ∧
    ∀ s ∈ run arc ops .empty, (∀ v w, s.equal v w = Plain.equal s.values v w) ∧
      (∀ v w a, s.ptr v = some (some a) → s.ptr w = some (some a) → v = w) ∧
      (∀ a, s.cell a ≠ none ↔ ∃ v, s.ptr v = some (some a)) ∧
      ∀ later, ∀ t ∈ run arc later s, ∀ v x, s.values.get v = some x → (∀ op ∈ later, v ∉ op.changes) →
        t.values.get v = some x := by
  obtain ⟨hvalues, howned⟩ := sim_run arc ops State.owned_empty
  refine ⟨hvalues, fun s hs => ⟨fun v w => ?_, (howned s hs).unique, (howned s hs).live, ?_⟩⟩
  · rw [Plain.equal, State.deref_values, State.deref_values]
    rfl
  · intro later t ht v x hv hops
    have hlater := (sim_run arc later (howned s hs)).1
    rw [show run arc later s = some t from ht] at hlater
    exact Plain.get_run hlater.symm hv hops

/-- Of an archive of one item: a copy of `begin` stays where it is when the
original, assigned to itself, moved and assigned back, is advanced to the end. -/
theorem iterators_are_values_copy : ∃ s, run (.single (.file [97] (sOk, .empty)))
      [.begin, .copy 0, .copyAssign 0 0, .move 0, .moveAssign 0 2, .advance 0] .empty = some s ∧
    s.values = [some (some ⟨true, 1, true⟩), some (some (.item 0)), some none] := by
  have h := iterators_are_values (.single (.file [97] (sOk, .empty)))
    [.begin, .copy 0, .copyAssign 0 0, .move 0, .moveAssign 0 2, .advance 0]
  have hplain : Plain.run (.single (.file [97] (sOk, .empty)))
      [.begin, .copy 0, .copyAssign 0 0, .move 0, .moveAssign 0 2, .advance 0] [] =
    some [some (some ⟨true, 1, true⟩), some (some (.item 0)), some none] := by decide
  rw [hplain] at h
  obtain ⟨s, hs, hvalues⟩ := Option.map_eq_some_iff.mp h.1
  exact ⟨s, hs, hvalues⟩

end CiIterators

end Fuse3P7zip
