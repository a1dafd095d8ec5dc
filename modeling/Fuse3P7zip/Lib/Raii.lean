/-
# Objects that are destroyed at the end of their scope

A computation makes objects, uses them and destroys them. It returns, it
throws, or it stops the process, and then nothing more is destroyed:
`ensuring` is what the end of a block destroys, and `undoing` what a
constructor that throws has to.

An observer of a run keeps the objects there are (`observes`). It refuses to
have one made twice, used or destroyed when it is not there, or destroyed
while another one needs it. `Meets` is that it lets a run pass, and what is
there at the end, by how the run ends. The rules give that for a program by
its parts, and `made_eq_dropped` is what it comes to for each object.
-/
import Mathlib.Data.List.Basic

namespace Raii

/-- What happens to an object. -/
inductive Ev (O : Type) where
  | make (o : O)
  | use (o : O)
  | drop (o : O)
  deriving DecidableEq

inductive Ending (S A : Type) where
  | ret (a : A)
  | throw (what : String)
  /-- The process ends, with nothing destroyed. -/
  | stop (s : S)

structure Run (O S A : Type) where
  log : List (Ev O)
  ending : Ending S A

variable {O S A B : Type}

namespace Run

def bind (x : Run O S A) (f : A → Run O S B) : Run O S B :=
  match x.ending with
  | .ret a => ⟨x.log ++ (f a).log, (f a).ending⟩
  | .throw what => ⟨x.log, .throw what⟩
  | .stop s => ⟨x.log, .stop s⟩

instance : Monad (Run O S) where
  pure a := ⟨[], .ret a⟩
  bind := bind

def emit (evs : List (Ev O)) : Run O S Unit := ⟨evs, .ret ()⟩
def throw (what : String) : Run O S A := ⟨[], .throw what⟩
def stop (s : S) : Run O S A := ⟨[], .stop s⟩

/-- The end of a block, which may go by how it comes. -/
def ensuring (x : Run O S A) (destroy : Ending S A → List (Ev O)) : Run O S A :=
  match x.ending with
  | .stop _ => x
  | e => ⟨x.log ++ destroy e, e⟩

/-- A constructor, with what it destroys when it throws. -/
def undoing (x : Run O S A) (destroy : List (Ev O)) : Run O S A :=
  match x.ending with
  | .throw what => ⟨x.log ++ destroy, .throw what⟩
  | _ => x

def catching (x : Run O S A) (handler : String → Run O S A) : Run O S A :=
  match x.ending with
  | .throw what => ⟨x.log ++ (handler what).log, (handler what).ending⟩
  | _ => x

/-! ### How a run ends -/

@[simp] theorem emit_bind_ending (evs : List (Ev O)) (f : Unit → Run O S A) :
    (emit evs >>= f).ending = (f ()).ending := rfl

theorem bind_ending_of_ret {x : Run O S B} {f : B → Run O S A} {b : B} (h : x.ending = .ret b) :
    (x >>= f).ending = (f b).ending := by
  show (bind x f).ending = _
  unfold bind
  rw [h]

/-- A computation behind another one returns when both do. -/
theorem bind_ending_eq_ret {x : Run O S B} {f : B → Run O S A} {a : A} :
    (x >>= f).ending = .ret a ↔ ∃ b, x.ending = .ret b ∧ (f b).ending = .ret a := by
  show (bind x f).ending = .ret a ↔ _
  unfold bind
  cases x.ending with
  | ret b => simp
  | throw what => simp
  | stop s => simp

@[simp] theorem ensuring_ending (x : Run O S A) (destroy : Ending S A → List (Ev O)) :
    (x.ensuring destroy).ending = x.ending := by
  unfold ensuring
  cases h : x.ending with
  | stop s => exact h
  | _ => rfl

@[simp] theorem undoing_ending (x : Run O S A) (destroy : List (Ev O)) : (x.undoing destroy).ending = x.ending := by
  unfold undoing
  cases h : x.ending with
  | throw what => rfl
  | _ => exact h

theorem catching_ending_eq_ret {x : Run O S A} {handler : String → Run O S A} {a : A} :
    (x.catching handler).ending = .ret a ↔
      x.ending = .ret a ∨ ∃ what, x.ending = .throw what ∧ (handler what).ending = .ret a := by
  unfold catching
  cases h : x.ending with
  | throw what => simp
  | _ => simp [h]

end Run

section observer

variable [DecidableEq O] (needs : O → O → Bool)

/-- The objects that are there after an event, if it may be. -/
def observe (live : List O) : Ev O → Option (List O)
  | .make o => if o ∈ live then none else some (o :: live)
  | .use o => if o ∈ live then some live else none
  | .drop o => if o ∈ live ∧ ∀ p ∈ live, needs p o = false then some (live.erase o) else none

def observes : List O → List (Ev O) → Option (List O)
  | live, [] => some live
  | live, e :: es =>
    match observe needs live e with
    | some live' => observes live' es
    | none => none

/-- The observer lets the run pass, and what is there at its end is as `post` says. -/
def Meets (x : Run O S A) (live : List O) (post : Ending S A → List O → Prop) : Prop :=
  ∃ live', observes needs live x.log = some live' ∧ post x.ending live'

variable {needs} {live : List O}

theorem observes_cons {e : Ev O} {es : List (Ev O)} :
    observes needs live (e :: es) = (observe needs live e).bind fun l => observes needs l es := by
  rw [observes]
  cases observe needs live e <;> rfl

theorem observes_singleton (e : Ev O) : observes needs live [e] = observe needs live e := by
  rw [observes_cons]
  exact Option.bind_fun_some _

theorem observes_append {es fs : List (Ev O)} {live' : List O} (h : observes needs live es = some live') :
    observes needs live (es ++ fs) = observes needs live' fs := by
  induction es generalizing live with
  | nil =>
    cases h
    rfl
  | cons e es ih =>
    rw [observes_cons] at h
    obtain ⟨l, hl, h⟩ := Option.bind_eq_some_iff.mp h
    rw [List.cons_append, observes_cons, hl, Option.bind_some]
    exact ih h

/-- The first event by itself, and then the rest. -/
theorem observes_first {e : Ev O} {es : List (Ev O)} {live' : List O} (h : observes needs live [e] = some live') :
    observes needs live (e :: es) = observes needs live' es := observes_append h

/-! ### Events -/

theorem observes_make {o : O} (h : o ∉ live) : observes needs live [.make o] = some (o :: live) := by
  rw [observes_singleton]
  exact if_neg h

theorem observes_use {o : O} (h : o ∈ live) : observes needs live [.use o] = some live := by
  rw [observes_singleton]
  exact if_pos h

theorem observes_drop {o : O} {before : List O} (hb : o ∉ before) (hn : ∀ p ∈ before ++ o :: live, needs p o = false) :
    observes needs (before ++ o :: live) [.drop o] = some (before ++ live) := by
  have ho : o ∈ before ++ o :: live := List.mem_append_right before List.mem_cons_self
  rw [observes_singleton]
  refine (if_pos ⟨ho, hn⟩).trans ?_
  rw [List.erase_append_right _ hb, List.erase_cons_head]

theorem observes_drop_newest {o : O} (hn : ∀ p ∈ o :: live, needs p o = false) :
    observes needs (o :: live) [.drop o] = some live := by
  have ho : o ∉ ([] : List O) := List.not_mem_nil
  exact observes_drop ho hn

variable {post : Ending S A → List O → Prop}

theorem Meets.mono {x : Run O S A} {post' : Ending S A → List O → Prop} (h : Meets needs x live post)
    (himp : ∀ e l, post e l → post' e l) : Meets needs x live post' := by
  obtain ⟨l, hl, hp⟩ := h
  exact ⟨l, hl, himp _ _ hp⟩

theorem Meets.with_ending {x : Run O S A} (h : Meets needs x live post) :
    Meets needs x live fun e l => x.ending = e ∧ post e l := by
  obtain ⟨l, hl, hp⟩ := h
  exact ⟨l, hl, rfl, hp⟩

theorem meets_pure {a : A} (h : post (.ret a) live) : Meets needs (pure a : Run O S A) live post := ⟨live, rfl, h⟩

theorem meets_stop {s : S} (h : post (.stop s) live) : Meets needs (Run.stop s : Run O S A) live post := ⟨live, rfl, h⟩

/-- One computation behind the other. -/
theorem meets_bind {x : Run O S B} {f : B → Run O S A} (h : Meets needs x live fun e l =>
    match e with
    | .ret b => Meets needs (f b) l post
    | .throw what => post (.throw what) l
    | .stop s => post (.stop s) l) : Meets needs (x >>= f) live post := by
  obtain ⟨l, hl, hp⟩ := h
  show Meets needs (Run.bind x f) live post
  unfold Run.bind
  cases he : x.ending with
  | ret b =>
    rw [he] at hp
    obtain ⟨l', hl', hp'⟩ := hp
    exact ⟨l', (observes_append hl).trans hl', hp'⟩
  | throw what =>
    rw [he] at hp
    exact ⟨l, hl, hp⟩
  | stop s =>
    rw [he] at hp
    exact ⟨l, hl, hp⟩

theorem meets_emit {evs : List (Ev O)} {l : List O} {f : Unit → Run O S A} (he : observes needs live evs = some l)
    (h : Meets needs (f ()) l post) : Meets needs (Run.emit evs >>= f) live post :=
  meets_bind ⟨l, he, h⟩

theorem meets_undoing {x : Run O S A} {destroy : List (Ev O)} (h : Meets needs x live fun e l =>
    match e with
    | .throw what => ∃ l', observes needs l destroy = some l' ∧ post (.throw what) l'
    | e => post e l) : Meets needs (x.undoing destroy) live post := by
  obtain ⟨l, hl, hp⟩ := h
  unfold Run.undoing
  cases he : x.ending with
  | throw what =>
    rw [he] at hp
    obtain ⟨l', hl', hp'⟩ := hp
    exact ⟨l', (observes_append hl).trans hl', hp'⟩
  | ret a =>
    rw [he] at hp
    refine ⟨l, hl, ?_⟩
    rw [he]
    exact hp
  | stop s =>
    rw [he] at hp
    refine ⟨l, hl, ?_⟩
    rw [he]
    exact hp

theorem observe_count {l : List O} {e : Ev O} (h : observe needs live e = some l) (o : O) :
    l.count o + [e].count (.drop o) = live.count o + [e].count (.make o) := by
  cases e with
  | make p =>
    change (if p ∈ live then none else some (p :: live)) = _ at h
    split_ifs at h
    cases h
    by_cases hp : p = o
    · subst hp
      simp
    · simp [hp]
  | use p =>
    change (if p ∈ live then some live else none) = _ at h
    split_ifs at h
    cases h
    simp
  | drop p =>
    change (if p ∈ live ∧ ∀ q ∈ live, needs q p = false then some (live.erase p) else none) = _ at h
    split_ifs at h with hin
    cases h
    by_cases hp : p = o
    · subst hp
      have hpos : 0 < live.count p := List.count_pos_iff.mpr hin.1
      rw [List.count_erase_self]
      simp
      omega
    · rw [List.count_erase_of_ne (Ne.symm hp)]
      simp [hp]

/-- **Every object is destroyed as often as it is made**, but for those that are
still there. -/
theorem made_eq_dropped {l : List O} {es : List (Ev O)} (h : observes needs live es = some l) (o : O) :
    l.count o + es.count (.drop o) = live.count o + es.count (.make o) := by
  induction es generalizing live with
  | nil =>
    cases h
    rfl
  | cons e es ih =>
    rw [observes_cons] at h
    obtain ⟨l', ho, h⟩ := Option.bind_eq_some_iff.mp h
    have h1 := observe_count ho o
    have h2 := ih h
    have hcons : ∀ x : Ev O, (e :: es).count x = [e].count x + es.count x := fun x => by
      rw [← List.singleton_append, List.count_append]
    rw [hcons, hcons]
    omega

end observer

end Raii
