/-
# Smart pointers

`com::Object`, over objects that are `UnknownImp`s. Constructing an `Object`
from a raw pointer takes over the reference that pointer owns, as `attach`
does and storing through `operator&`; `detach` gives it back. A copy takes
a reference of its own, a move takes that of the other.

Key theorem: `references_counted`, for every sequence of operations. The
counter has 32 bits, and wraps for more copies than that
(`counter_wraps`).
-/
import Fuse3P7zip.Lib.RefHeap

namespace Fuse3P7zip

/-- The objects, the `Object` variables in the order they were constructed, which
are nothing when they are destroyed and else have their pointer, and the raw
pointers that own a reference. -/
structure ComState where
  objects : List (Option UInt32)
  vars : List (Option (Option ℕ))
  raw : List ℕ

namespace ComState

def start : ComState := ⟨[], [], []⟩

/-- The pointer of a variable that is there. -/
def ptr (s : ComState) (v : ℕ) : Option (Option ℕ) := s.vars[v]?.join

def setPtr (s : ComState) (v : ℕ) (p : Option ℕ) : ComState := { s with vars := s.vars.set v (some p) }

/-- A new variable. -/
def push (s : ComState) (p : Option ℕ) : ComState := { s with vars := s.vars ++ [some p] }

/-- `if (ptr) ptr->AddRef()` -/
def addRef (s : ComState) : Option ℕ → Option ComState
  | none => some s
  | some o => (RefHeap.addRef s.objects o).map fun objects => { s with objects := objects }

/-- `if (ptr) ptr->Release()` -/
def releasePtr (s : ComState) : Option ℕ → Option ComState
  | none => some s
  | some o => (RefHeap.release s.objects o).map fun objects => { s with objects := objects }

/-- A raw pointer gives its reference away. -/
def takeRaw (s : ComState) : Option ℕ → ComState
  | none => s
  | some o => { s with raw := s.raw.erase o }

/-- A raw pointer gets a reference. -/
def giveRaw (s : ComState) : Option ℕ → ComState
  | none => s
  | some o => { s with raw := o :: s.raw }

/-! ### Operations

A call on an object or a variable that is not there has no result. -/

/-- A new `UnknownImp`. -/
def create (s : ComState) : ComState :=
  { s with objects := RefHeap.alloc s.objects, raw := s.objects.length :: s.raw }

/-- `Object()` -/
def default (s : ComState) : ComState := s.push none

/-- `Object(const_pointer)` -/
def construct (s : ComState) (p : Option ℕ) : ComState := (s.takeRaw p).push p

/-- `Object(const this_type&)` -/
def copy (s : ComState) (other : ℕ) : Option ComState := do
  let p ← s.ptr other
  let s ← s.addRef p
  return s.push p

/-- `Object(this_type&&)` -/
def move (s : ComState) (other : ℕ) : Option ComState := do
  let p ← s.ptr other
  return (s.setPtr other none).push p

/-- `swap` -/
def swap (s : ComState) (v other : ℕ) : Option ComState := do
  let p ← s.ptr v
  let q ← s.ptr other
  return (s.setPtr v q).setPtr other p

/-- `release` -/
def release (s : ComState) (v : ℕ) : Option ComState := do
  let p ← s.ptr v
  let s ← s.releasePtr p
  return s.setPtr v none

/-- `~Object` -/
def destroy (s : ComState) (v : ℕ) : Option ComState := do
  let s ← s.release v
  return { s with vars := s.vars.set v none }

/-- `operator=(const this_type&)`: the copy is the variable behind the others. -/
def copyAssign (s : ComState) (v other : ℕ) : Option ComState := do
  let p ← s.ptr v
  let q ← s.ptr other
  if p ≠ q then
    let tmp := s.vars.length
    let s ← s.copy other
    let s ← s.swap tmp v
    s.destroy tmp
  else return s

/-- `operator=(this_type&&)` -/
def moveAssign (s : ComState) (v other : ℕ) : Option ComState := do
  let p ← s.ptr v
  let q ← s.ptr other
  if p ≠ q then
    let tmp := s.vars.length
    let s ← s.move other
    let s ← s.swap tmp v
    s.destroy tmp
  else return s

/-- `attach` -/
def attach (s : ComState) (v : ℕ) (other : Option ℕ) : Option ComState := do
  let s ← s.release v
  return (s.takeRaw other).setPtr v other

/-- `detach` -/
def detach (s : ComState) (v : ℕ) : Option ComState := do
  let p ← s.ptr v
  return (s.giveRaw p).setPtr v none

/-- `operator&`, and a pointer stored through it. -/
def addressOf (s : ComState) (v : ℕ) (p : Option ℕ) : Option ComState := do
  let s ← s.release v
  return (s.takeRaw p).setPtr v p

inductive Op where
  | create
  | default
  | construct (p : Option ℕ)
  | copy (other : ℕ)
  | move (other : ℕ)
  | copyAssign (v other : ℕ)
  | moveAssign (v other : ℕ)
  | attach (v : ℕ) (other : Option ℕ)
  | detach (v : ℕ)
  | swap (v other : ℕ)
  | release (v : ℕ)
  | addressOf (v : ℕ) (p : Option ℕ)
  | destroy (v : ℕ)

def step (s : ComState) : Op → Option ComState
  | .create => some s.create
  | .default => some s.default
  | .construct p => some (s.construct p)
  | .copy other => s.copy other
  | .move other => s.move other
  | .copyAssign v other => s.copyAssign v other
  | .moveAssign v other => s.moveAssign v other
  | .attach v other => s.attach v other
  | .detach v => s.detach v
  | .swap v other => s.swap v other
  | .release v => s.release v
  | .addressOf v p => s.addressOf v p
  | .destroy v => s.destroy v

def run (s : ComState) (ops : List Op) : Option ComState := ops.foldlM step s

/-! ### References -/

/-- How many variables and raw pointers have a reference to an object. -/
def refs (s : ComState) (o : ℕ) : ℕ := s.vars.count (some (some o)) + s.raw.count o

/-- The variable is there. -/
def Alive (s : ComState) (v : ℕ) : Prop := ∃ p, s.ptr v = some p

/-- The raw pointer owns a reference, or is null. -/
def Owns (s : ComState) (p : Option ℕ) : Prop := ∀ o, p = some o → o ∈ s.raw

/-- The variables an operation is applied to are there, and its raw pointer owns
a reference. -/
def Allowed (s : ComState) : Op → Prop
  | .create => True
  | .default => True
  | .construct p => s.Owns p
  | .copy other => s.Alive other
  | .move other => s.Alive other
  | .copyAssign v other => s.Alive v ∧ s.Alive other
  | .moveAssign v other => s.Alive v ∧ s.Alive other
  | .attach v other => s.Alive v ∧ s.Owns other
  | .detach v => s.Alive v
  | .swap v other => s.Alive v ∧ s.Alive other
  | .release v => s.Alive v
  | .addressOf v p => s.Alive v ∧ s.Owns p
  | .destroy v => s.Alive v

/-- What is copied has fewer than 2^32 - 1 references. An assignment copies only
where the variables hold different pointers. -/
def Fits (s : ComState) : Op → Prop
  | .copy other => ∀ o, s.ptr other = some (some o) → s.refs o + 1 < 2 ^ 32
  | .copyAssign v other =>
    s.ptr v ≠ s.ptr other → ∀ o, s.ptr other = some (some o) → s.refs o + 1 < 2 ^ 32
  | _ => True

/-- What holds before every operation of a sequence. -/
def Along (P : ComState → Op → Prop) : ComState → List Op → Prop
  | _, [] => True
  | s, op :: ops => P s op ∧ ∀ s', s.step op = some s' → Along P s' ops

/-! ### Counting -/

/-- Whether a pointer is to an object, as a number. -/
def holds (p : Option ℕ) (o : ℕ) : ℕ := if p = some o then 1 else 0

theorem holds_none (o : ℕ) : holds none o = 0 := if_neg nofun

/-- An element of a list that is replaced. -/
theorem count_set_add {α : Type} [BEq α] [LawfulBEq α] {l : List α} {i : ℕ} {b : α} (h : l[i]? = some b) (a c : α) :
    (l.set i a).count c + (if b == c then 1 else 0) = l.count c + (if a == c then 1 else 0) := by
  obtain ⟨hi, rfl⟩ := List.getElem?_eq_some_iff.mp h
  rw [List.count_set hi]
  have hpos : (l[i] == c) = true → 0 < l.count c := fun he =>
    List.count_pos_iff.mpr (eq_of_beq he ▸ List.getElem_mem hi)
  by_cases hb : (l[i] == c) = true
  · have := hpos hb
    rw [if_pos hb]
    omega
  · rw [if_neg hb]
    omega

variable {s : ComState} {v : ℕ} {p : Option ℕ}

theorem getElem?_of_ptr (h : s.ptr v = some p) : s.vars[v]? = some (some p) := by
  unfold ptr at h
  cases hv : s.vars[v]? with
  | none => rw [hv] at h; cases h
  | some x =>
    rw [hv] at h
    exact congrArg some h

theorem refs_set (h : s.ptr v = some p) (x : Option (Option ℕ)) (o : ℕ) :
    refs { s with vars := s.vars.set v x } o + holds p o = s.refs o + (if x = some (some o) then 1 else 0) := by
  have hset := count_set_add (getElem?_of_ptr h) x (some (some o))
  simp only [beq_iff_eq, Option.some.injEq] at hset
  simp only [refs, holds]
  omega

theorem refs_setPtr (h : s.ptr v = some p) (q : Option ℕ) (o : ℕ) :
    (s.setPtr v q).refs o + holds p o = s.refs o + holds q o := by
  have hset := refs_set h (some q) o
  simp only [Option.some.injEq] at hset
  exact hset

theorem refs_push (q : Option ℕ) (o : ℕ) : (s.push q).refs o = s.refs o + holds q o := by
  simp only [refs, push, holds, List.count_append, List.count_singleton]
  by_cases hq : q = some o
  · simp [hq]
    omega
  · simp [hq]

theorem holds_le_refs (h : s.ptr v = some p) (o : ℕ) : holds p o ≤ s.refs o := by
  have hset := refs_setPtr h none o
  have hnone := holds_none o
  omega

/-- What a variable has is referred to. -/
theorem refs_pos {o : ℕ} (h : s.ptr v = some (some o)) : 0 < s.refs o := by
  have hle := holds_le_refs h o
  rwa [holds, if_pos rfl] at hle

theorem refs_takeRaw (h : s.Owns p) (o : ℕ) : (s.takeRaw p).refs o + holds p o = s.refs o := by
  cases p with
  | none => rfl
  | some a =>
    have hmem := h a rfl
    have hpos := List.count_pos_iff.mpr hmem
    simp only [refs, takeRaw, holds, List.count_erase]
    by_cases ha : a = o
    · subst ha
      simp
      omega
    · simp [ha]

theorem refs_giveRaw (o : ℕ) : (s.giveRaw p).refs o = s.refs o + holds p o := by
  cases p with
  | none => rfl
  | some a =>
    simp only [refs, giveRaw, holds, List.count_cons]
    by_cases ha : a = o
    · simp [ha]
      omega
    · simp [ha]

/-- Every counter is the number of references to its object, which is deleted
when that is 0. -/
def Inv (s : ComState) : Prop := RefHeap.Counts s.objects s.refs

theorem inv_start : Inv start := RefHeap.counts_nil

/-- Variables and raw pointers are changed, and no counter has to change. -/
theorem Inv.of_refs {s' : ComState} (h : Inv s) (hobj : s'.objects = s.objects) (he : ∀ o, s'.refs o = s.refs o) :
    Inv s' := by
  rw [Inv, hobj]
  exact RefHeap.Counts.congr h he

theorem addRef_ok (h : Inv s) (hp : s.ptr v = some p) (hfits : ∀ o, p = some o → s.refs o + 1 < 2 ^ 32) :
    ∃ objects, s.addRef p = some { s with objects := objects } ∧
      RefHeap.Counts objects fun o => s.refs o + holds p o := by
  cases p with
  | none => exact ⟨s.objects, rfl, h⟩
  | some a =>
    obtain ⟨objects, ho, hc⟩ := h.addRef (refs_pos hp) (hfits a rfl)
    refine ⟨objects, by rw [addRef, ho]; rfl, hc.congr fun o => ?_⟩
    by_cases ha : o = a
    · rw [ha, Function.update_self, holds, if_pos rfl]
    · rw [Function.update_of_ne ha, holds, if_neg fun he => ha (Option.some.inj he).symm, Nat.add_zero]

theorem releasePtr_ok (h : Inv s) (hp : s.ptr v = some p) :
    ∃ objects, s.releasePtr p = some { s with objects := objects } ∧
      RefHeap.Counts objects fun o => s.refs o - holds p o := by
  cases p with
  | none => exact ⟨s.objects, rfl, h⟩
  | some a =>
    obtain ⟨objects, ho, hc⟩ := RefHeap.Counts.release h (refs_pos hp)
    refine ⟨objects, by rw [releasePtr, ho]; rfl, hc.congr fun o => ?_⟩
    by_cases ha : o = a
    · rw [ha, Function.update_self, holds, if_pos rfl]
    · rw [Function.update_of_ne ha, holds, if_neg fun he => ha (Option.some.inj he).symm, Nat.sub_zero]

theorem ptr_set (hp : s.ptr v = some p) (x : Option (Option ℕ)) (u : ℕ) :
    ptr { s with vars := s.vars.set v x } u = if u = v then x else s.ptr u := by
  obtain ⟨hlt, -⟩ := List.getElem?_eq_some_iff.mp (getElem?_of_ptr hp)
  unfold ptr
  by_cases hu : u = v
  · rw [if_pos hu, hu, List.getElem?_set_self hlt]
    rfl
  · rw [if_neg hu, List.getElem?_set_ne fun he => hu he.symm]

theorem ptr_push (q : Option ℕ) (u : ℕ) : (s.push q).ptr u = if u = s.vars.length then some q else s.ptr u := by
  unfold ptr push
  rw [RefHeap.getElem?_concat]
  split <;> rfl

theorem release_ok (h : Inv s) (hp : s.ptr v = some p) :
    ∃ s', s.release v = some s' ∧ Inv s' ∧ s'.raw = s.raw ∧ s'.ptr v = some none := by
  obtain ⟨objects, hr, hc⟩ := releasePtr_ok h hp
  refine ⟨setPtr { s with objects := objects } v none, ?_, hc.congr fun o => ?_, rfl, ?_⟩
  · rw [release, hp]
    simp only [Option.bind_eq_bind, Option.bind_some, hr]
    rfl
  · have hset := refs_setPtr hp none o
    have hnone := holds_none o
    change (s.setPtr v none).refs o = s.refs o - holds p o
    omega
  · exact (ptr_set hp (some none) v).trans (if_pos rfl)

theorem destroy_ok (h : Inv s) (hp : s.ptr v = some p) : ∃ s', s.destroy v = some s' ∧ Inv s' := by
  obtain ⟨s1, hs1, hinv, -, hptr⟩ := release_ok h hp
  refine ⟨{ s1 with vars := s1.vars.set v none }, by rw [destroy, hs1]; rfl, hinv.of_refs rfl fun o => ?_⟩
  have hset := refs_set hptr none o
  have hnone := holds_none o
  simp only [reduceCtorEq, if_false] at hset
  exact (Nat.add_right_cancel (hset.trans (by rw [hnone])))

theorem copy_ok (h : Inv s) (hp : s.ptr v = some p) (hfits : ∀ o, p = some o → s.refs o + 1 < 2 ^ 32) :
    ∃ s', s.copy v = some s' ∧ Inv s' ∧ s'.vars = s.vars ++ [some p] := by
  obtain ⟨objects, ha, hc⟩ := addRef_ok h hp hfits
  refine ⟨push { s with objects := objects } p, ?_, hc.congr fun o => ?_, rfl⟩
  · rw [copy, hp]
    simp only [Option.bind_eq_bind, Option.bind_some, ha]
    rfl
  · exact refs_push p o

theorem move_ok (h : Inv s) (hp : s.ptr v = some p) :
    ∃ s', s.move v = some s' ∧ Inv s' ∧ s'.vars = s.vars.set v (some none) ++ [some p] := by
  refine ⟨(s.setPtr v none).push p, by rw [move, hp]; rfl, h.of_refs rfl fun o => ?_, rfl⟩
  have hset := refs_setPtr hp none o
  have hnone := holds_none o
  rw [refs_push]
  omega

theorem swap_ok {u : ℕ} {q : Option ℕ} (h : Inv s) (hp : s.ptr v = some p) (hq : s.ptr u = some q) :
    ∃ s', s.swap v u = some s' ∧ Inv s' ∧ s'.ptr u = some p ∧ s'.ptr v = some q := by
  have hptr : ∀ w, (s.setPtr v q).ptr w = if w = v then some q else s.ptr w := ptr_set hp (some q)
  have hu : (s.setPtr v q).ptr u = some q := by
    rw [hptr, hq]
    split <;> rfl
  have hptr' : ∀ w, ((s.setPtr v q).setPtr u p).ptr w = if w = u then some p else (s.setPtr v q).ptr w :=
    ptr_set hu (some p)
  refine ⟨(s.setPtr v q).setPtr u p, by rw [swap, hp, hq]; rfl, h.of_refs rfl fun o => ?_, ?_, ?_⟩
  · have h1 := refs_setPtr hp q o
    have h2 := refs_setPtr hu p o
    omega
  · rw [hptr', if_pos rfl]
  · rw [hptr', hptr]
    by_cases hvu : v = u
    · subst hvu
      rw [if_pos rfl]
      exact hp.symm.trans hq
    · rw [if_neg hvu, if_pos rfl]

theorem ptr_lt (hp : s.ptr v = some p) : v < s.vars.length :=
  (List.getElem?_eq_some_iff.mp (getElem?_of_ptr hp)).1

/-- The second half of both assignments: the variable behind the others, which
has `q`, is swapped with `v` and destroyed. -/
theorem swap_destroy_ok {n : ℕ} {q : Option ℕ} (h : Inv s) (hp : s.ptr v = some p) (hq : s.ptr n = some q) :
    ∃ s', (s.swap n v >>= fun s => s.destroy n) = some s' ∧ Inv s' := by
  obtain ⟨s1, hs1, hinv1, -, hn⟩ := swap_ok h hq hp
  obtain ⟨s2, hs2, hinv2⟩ := destroy_ok hinv1 hn
  exact ⟨s2, by rw [hs1]; exact hs2, hinv2⟩

theorem copyAssign_ok {u : ℕ} {q : Option ℕ} (h : Inv s) (hp : s.ptr v = some p) (hq : s.ptr u = some q)
    (hfits : p ≠ q → ∀ o, q = some o → s.refs o + 1 < 2 ^ 32) : ∃ s', s.copyAssign v u = some s' ∧ Inv s' := by
  by_cases hpq : p = q
  · refine ⟨s, ?_, h⟩
    rw [copyAssign, hp, hq]
    simp [hpq]
  · obtain ⟨s1, hs1, hinv1, hvars⟩ := copy_ok h hq (hfits hpq)
    have hptr : ∀ w, s1.ptr w = if w = s.vars.length then some q else s.ptr w := fun w => by
      rw [← ptr_push q w, ptr, hvars]
      rfl
    have hv : s1.ptr v = some p := by rw [hptr, if_neg (Nat.ne_of_lt (ptr_lt hp)), hp]
    have hn : s1.ptr s.vars.length = some q := by rw [hptr, if_pos rfl]
    obtain ⟨s2, hs2, hinv2⟩ := swap_destroy_ok hinv1 hv hn
    refine ⟨s2, ?_, hinv2⟩
    rw [copyAssign, hp, hq]
    simp only [Option.bind_eq_bind, Option.bind_some, if_pos hpq, ne_eq, hs1]
    exact hs2

theorem moveAssign_ok {u : ℕ} {q : Option ℕ} (h : Inv s) (hp : s.ptr v = some p) (hq : s.ptr u = some q) :
    ∃ s', s.moveAssign v u = some s' ∧ Inv s' := by
  by_cases hpq : p = q
  · refine ⟨s, ?_, h⟩
    rw [moveAssign, hp, hq]
    simp [hpq]
  · have hvu : v ≠ u := fun he => hpq (Option.some.inj ((he ▸ hp).symm.trans hq))
    obtain ⟨s1, hs1, hinv1, hvars⟩ := move_ok h hq
    have hlen : (s.vars.set u (some none)).length = s.vars.length := List.length_set
    have hptr : ∀ w, s1.ptr w = if w = s.vars.length then some q else if w = u then some none else s.ptr w :=
      fun w => by
        rw [← hlen, ← ptr_set hq (some none) w, ptr, hvars]
        exact ptr_push (s := { s with vars := s.vars.set u (some none) }) q w
    have hv : s1.ptr v = some p := by rw [hptr, if_neg (Nat.ne_of_lt (ptr_lt hp)), if_neg hvu, hp]
    have hn : s1.ptr s.vars.length = some q := by rw [hptr, if_pos rfl]
    obtain ⟨s2, hs2, hinv2⟩ := swap_destroy_ok hinv1 hv hn
    refine ⟨s2, ?_, hinv2⟩
    rw [moveAssign, hp, hq]
    simp only [Option.bind_eq_bind, Option.bind_some, if_pos hpq, ne_eq, hs1]
    exact hs2

/-- What `attach` and storing through `operator&` have in common: what is there is
released, and a raw pointer gives its reference. -/
theorem release_take_ok {q : Option ℕ} (h : Inv s) (hp : s.ptr v = some p) (hq : s.Owns q) :
    ∃ s', (s.release v >>= fun s => some ((s.takeRaw q).setPtr v q)) = some s' ∧ Inv s' := by
  obtain ⟨s1, hs1, hinv, hraw, hptr⟩ := release_ok h hp
  refine ⟨(s1.takeRaw q).setPtr v q, by rw [hs1]; rfl, ?_⟩
  have hown : s1.Owns q := by rwa [Owns, hraw]
  have htaken : (s1.takeRaw q).ptr v = some none ∧ (s1.takeRaw q).objects = s1.objects := by
    cases q <;> exact ⟨hptr, rfl⟩
  refine hinv.of_refs htaken.2 fun o => ?_
  have h1 := refs_setPtr htaken.1 q o
  have h2 := refs_takeRaw hown o
  rw [holds_none] at h1
  omega

theorem construct_ok (h : Inv s) (hq : s.Owns p) : Inv (s.construct p) := by
  refine h.of_refs (by cases p <;> rfl) fun o => ?_
  rw [construct, refs_push, refs_takeRaw hq]

theorem detach_ok (h : Inv s) (hp : s.ptr v = some p) : ∃ s', s.detach v = some s' ∧ Inv s' := by
  refine ⟨(s.giveRaw p).setPtr v none, by rw [detach, hp]; rfl, ?_⟩
  have hgiven : (s.giveRaw p).ptr v = some p := by cases p <;> exact hp
  refine h.of_refs (by cases p <;> rfl) fun o => ?_
  have h1 := refs_setPtr hgiven none o
  have h2 := refs_giveRaw (s := s) (p := p) o
  rw [holds_none] at h1
  omega

theorem create_ok (h : Inv s) : Inv s.create := by
  refine (RefHeap.Counts.alloc h).congr fun o => ?_
  have hnone : s.refs s.objects.length = 0 := h.refs_length
  by_cases ho : o = s.objects.length
  · rw [ho, Function.update_self]
    simp only [refs, create, List.count_cons_self] at hnone ⊢
    omega
  · rw [Function.update_of_ne ho]
    simp only [refs, create, List.count_cons_of_ne fun he => ho he.symm]

/-- Every operation that is allowed, and whose copy fits, keeps the counters right. -/
theorem step_ok {op : Op} (h : Inv s) (hall : s.Allowed op) (hfits : s.Fits op) :
    ∃ s', s.step op = some s' ∧ Inv s' := by
  cases op with
  | create => exact ⟨_, rfl, create_ok h⟩
  | default => exact ⟨_, rfl, h.of_refs rfl fun o => by rw [default, refs_push, holds_none, Nat.add_zero]⟩
  | construct p => exact ⟨_, rfl, construct_ok h hall⟩
  | copy other =>
    obtain ⟨p, hp⟩ := hall
    obtain ⟨s', hs', hinv, -⟩ := copy_ok h hp fun o ho => hfits o (ho ▸ hp)
    exact ⟨s', hs', hinv⟩
  | move other =>
    obtain ⟨p, hp⟩ := hall
    obtain ⟨s', hs', hinv, -⟩ := move_ok h hp
    exact ⟨s', hs', hinv⟩
  | copyAssign v other =>
    obtain ⟨⟨p, hp⟩, q, hq⟩ := hall
    refine copyAssign_ok h hp hq fun hne o ho => hfits ?_ o (ho ▸ hq)
    rw [hp, hq]
    exact fun he => hne (Option.some.inj he)
  | moveAssign v other =>
    obtain ⟨⟨p, hp⟩, q, hq⟩ := hall
    exact moveAssign_ok h hp hq
  | attach v other =>
    obtain ⟨⟨p, hp⟩, hown⟩ := hall
    exact release_take_ok h hp hown
  | detach v =>
    obtain ⟨p, hp⟩ := hall
    exact detach_ok h hp
  | swap v other =>
    obtain ⟨⟨p, hp⟩, q, hq⟩ := hall
    obtain ⟨s', hs', hinv, -, -⟩ := swap_ok h hp hq
    exact ⟨s', hs', hinv⟩
  | release v =>
    obtain ⟨p, hp⟩ := hall
    obtain ⟨s', hs', hinv, -, -⟩ := release_ok h hp
    exact ⟨s', hs', hinv⟩
  | addressOf v p =>
    obtain ⟨⟨q, hq⟩, hown⟩ := hall
    exact release_take_ok h hq hown
  | destroy v =>
    obtain ⟨p, hp⟩ := hall
    exact destroy_ok h hp

theorem run_ok : ∀ {ops : List Op} {s : ComState}, Inv s →
    Along (fun s op => s.Allowed op ∧ s.Fits op) s ops → ∃ s', s.run ops = some s' ∧ Inv s'
  | [], s, h, _ => ⟨s, rfl, h⟩
  | op :: ops, s, h, ⟨⟨hall, hfits⟩, hrest⟩ => by
    obtain ⟨s1, hs1, hinv1⟩ := step_ok h hall hfits
    obtain ⟨s2, hs2, hinv2⟩ := run_ok hinv1 (hrest s1 hs1)
    refine ⟨s2, ?_, hinv2⟩
    rw [run, List.foldlM_cons, hs1]
    exact hs2

theorem Along.of_isPrefix {P : ComState → Op → Prop} : ∀ {pre ops : List Op} {s : ComState}, pre <+: ops →
    Along P s ops → Along P s pre
  | [], _, _, _, _ => trivial
  | op :: pre, ops, s, ⟨behind, hb⟩, h => by
    subst hb
    exact ⟨h.1, fun s' hs' => of_isPrefix ⟨behind, rfl⟩ (h.2 s' hs')⟩

/-- The references to an object are counted: it is there as long as there are
some, and then its counter is their number. -/
def Counted (s : ComState) : Prop :=
  ∀ o, (RefHeap.counter s.objects o = none ↔ s.refs o = 0) ∧
    ∀ n, RefHeap.counter s.objects o = some n → n.toNat = s.refs o

theorem Inv.counted (h : Inv s) : s.Counted := by
  intro o
  obtain ⟨hc, hlt⟩ := h o
  rw [hc]
  unfold RefHeap.exact
  by_cases h0 : s.refs o = 0
  · rw [if_pos h0]
    exact ⟨iff_of_true rfl h0, nofun⟩
  · rw [if_neg h0]
    refine ⟨iff_of_false nofun h0, ?_⟩
    rintro n ⟨⟩
    rw [UInt32.toNat_ofNat', Nat.mod_eq_of_lt hlt]

/-- **Every reference is counted.** However many operations there are on however
many variables and objects, as long as nothing is copied that has 2^32 - 1
references already: no call goes to a deleted object, and after every
operation the counters are right. -/
theorem references_counted {ops : List Op} (h : Along (fun s op => s.Allowed op ∧ s.Fits op) start ops) :
    ∀ pre, pre <+: ops → ∃ s, start.run pre = some s ∧ s.Counted := by
  intro pre hpre
  obtain ⟨s, hs, hinv⟩ := run_ok inv_start (h.of_isPrefix hpre)
  exact ⟨s, hs, hinv.counted⟩

/-- An object, two variables for it, one assigned to the other, and both released. -/
theorem references_counted_copy : ∃ s,
    start.run [.create, .construct (some 0), .copy 0, .copyAssign 0 1, .release 0, .destroy 1] = some s ∧
      s.Counted := by
  refine references_counted ?_ _ (List.prefix_refl _)
  refine ⟨⟨trivial, trivial⟩, ?_⟩
  rintro _ ⟨⟩
  refine ⟨⟨fun o ho => by cases ho; exact List.mem_singleton_self _, trivial⟩, ?_⟩
  rintro _ ⟨⟩
  refine ⟨⟨⟨_, rfl⟩, fun o ho => by cases ho; decide⟩, ?_⟩
  rintro _ ⟨⟩
  refine ⟨⟨⟨⟨_, rfl⟩, _, rfl⟩, fun hne => absurd rfl hne⟩, ?_⟩
  rintro _ ⟨⟩
  refine ⟨⟨⟨_, rfl⟩, trivial⟩, ?_⟩
  rintro _ ⟨⟩
  exact ⟨⟨⟨_, rfl⟩, trivial⟩, fun _ _ => trivial⟩

/-- One object, and `m` variables that have it. -/
def sharing (m : ℕ) : ComState := ⟨[some (UInt32.ofNat m)], List.replicate m (some (some 0)), []⟩

theorem copy_sharing (m : ℕ) : (sharing (m + 1)).step (.copy 0) = some (sharing (m + 2)) := by
  have hcounter : UInt32.ofNat (m + 1) + 1 = UInt32.ofNat (m + 2) := (UInt32.ofNat_add (m + 1) 1).symm
  have hvars : List.replicate (m + 1) (some (some 0)) ++ [some (some 0)] =
      List.replicate (m + 2) (some (some 0)) := List.replicate_succ'.symm
  calc (sharing (m + 1)).step (.copy 0)
      = some ⟨[some (UInt32.ofNat (m + 1) + 1)], List.replicate (m + 1) (some (some 0)) ++ [some (some 0)], []⟩ := rfl
    _ = some (sharing (m + 2)) := by rw [hcounter, hvars]; rfl

/-- However many copies there are, the counter goes on. -/
theorem run_copies : ∀ k m : ℕ, Along Allowed (sharing (m + 1)) (List.replicate k (.copy 0)) ∧
    (sharing (m + 1)).run (List.replicate k (.copy 0)) = some (sharing (m + k + 1))
  | 0, _ => ⟨trivial, rfl⟩
  | k + 1, m => by
    obtain ⟨hall, hrun⟩ := run_copies k (m + 1)
    constructor
    · refine ⟨⟨some 0, rfl⟩, fun s' hs' => ?_⟩
      rw [copy_sharing] at hs'
      cases hs'
      exact hall
    · have hk : m + (k + 1) + 1 = m + 1 + k + 1 := by omega
      rw [List.replicate_succ, run, List.foldlM_cons, copy_sharing, hk]
      exact hrun

theorem refs_sharing (m : ℕ) : (sharing m).refs 0 = m := by
  rw [refs, sharing, List.count_replicate_self]
  rfl

theorem shared_of_copies (k : ℕ) :
    Along Allowed start (.create :: .construct (some 0) :: List.replicate k (.copy 0)) ∧
      start.run (.create :: .construct (some 0) :: List.replicate k (.copy 0)) = some (sharing (k + 1)) := by
  obtain ⟨hall, hrun⟩ := run_copies k 0
  rw [Nat.zero_add k] at hrun
  refine ⟨⟨trivial, ?_⟩, hrun⟩
  rintro _ ⟨⟩
  refine ⟨fun o ho => by cases ho; exact List.mem_singleton_self _, ?_⟩
  rintro _ ⟨⟩
  exact hall

/-- After 2^32 - 1 copies of the first variable the counter is 0. -/
theorem counter_wraps : ∃ ops s, Along Allowed start ops ∧ start.run ops = some s ∧ s.refs 0 = 2 ^ 32 ∧
    RefHeap.counter s.objects 0 = some 0 ∧ ¬ s.Counted := by
  obtain ⟨hall, hrun⟩ := shared_of_copies (2 ^ 32 - 1)
  have hrefs := refs_sharing (2 ^ 32 - 1 + 1)
  have hcounter : RefHeap.counter (sharing (2 ^ 32 - 1 + 1)).objects 0 = some 0 := by decide
  refine ⟨_, _, hall, hrun, hrefs, hcounter, fun h => ?_⟩
  have hzero := (h 0).2 0 hcounter
  rw [hrefs] at hzero
  exact absurd hzero (by decide)

end ComState

end Fuse3P7zip
