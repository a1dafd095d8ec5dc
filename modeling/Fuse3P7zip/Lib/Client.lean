/-
# A client of a stateful service

A client is a finite tree of calls: it returns, or makes a call and goes on
with the reply. A service answers each call from its state, or fails, and a
failure ends the run. `run` is the client against the service; `Reaches`
are the points of the run, each with the calls made so far and their
replies; `Follows` are the points a client gets to whatever is replied.

The rules of a run: a property of the exchange so far and the state that
every answered call keeps holds at every point (`Reaches.invariant`), and a
run ends where the client returns or where a call fails (`run_eq_ok_iff`,
`run_eq_error_iff`).
-/
import Mathlib.Data.List.Basic

/-- A client that makes calls `C`, gets replies `R` and returns an `A`. -/
inductive Client (C R A : Type) where
  | ret (a : A)
  | call (c : C) (k : R → Client C R A)

namespace Client

variable {C R A σ ε : Type}

/-- The client gets from the start to a point by this exchange of calls and
replies, whatever service gives them. -/
inductive Follows : Client C R A → List (C × R) → Client C R A → Prop
  | here (d : Client C R A) : Follows d [] d
  | call {c : C} {k : R → Client C R A} {r : R} {tr : List (C × R)} {d : Client C R A} :
      Follows (k r) tr d → Follows (.call c k) ((c, r) :: tr) d

/-- The client makes only such calls, whatever is replied. -/
inductive Only (P : C → Prop) : Client C R A → Prop
  | ret (a : A) : Only P (.ret a)
  | call {c : C} {k : R → Client C R A} : P c → (∀ r, Only P (k r)) → Only P (.call c k)

theorem Only.calls {P : C → Prop} {d d' : Client C R A} {tr : List (C × R)} (hd : d.Only P)
    (h : Follows d tr d') : ∀ x ∈ tr, P x.1 := by
  induction h with
  | here => exact fun x hx => absurd hx List.not_mem_nil
  | call _ ih =>
    cases hd with
    | call hc hk =>
      rintro x (_ | ⟨_, hx⟩)
      · exact hc
      · exact ih (hk _) x hx

variable (serve : σ → C → Except ε (R × σ))

def run : Client C R A → σ → Except ε (A × σ)
  | .ret a, s => .ok (a, s)
  | .call c k, s =>
    match serve s c with
    | .error e => .error e
    | .ok (r, s') => run (k r) s'

/-- The answered calls of the run, with their replies. -/
def trace : Client C R A → σ → List (C × R)
  | .ret _, _ => []
  | .call c k, s =>
    match serve s c with
    | .error _ => []
    | .ok (r, s') => (c, r) :: trace (k r) s'

/-- The points of the run from `s`: after the exchange `tr` the client is `d`
and the service is in state `t`. -/
inductive Reaches : Client C R A → σ → List (C × R) → Client C R A → σ → Prop
  | here (d : Client C R A) (s : σ) : Reaches d s [] d s
  | call {c : C} {k : R → Client C R A} {s s' : σ} {r : R} {tr : List (C × R)}
      {d : Client C R A} {t : σ} :
      serve s c = .ok (r, s') → Reaches (k r) s' tr d t → Reaches (.call c k) s ((c, r) :: tr) d t

variable {serve}

theorem Reaches.follows {d d' : Client C R A} {s t : σ} {tr : List (C × R)}
    (h : Reaches serve d s tr d' t) : Follows d tr d' := by
  induction h with
  | here => exact .here _
  | call _ _ ih => exact .call ih

theorem Reaches.trans {d d' d'' : Client C R A} {s t u : σ} {tr tr' : List (C × R)}
    (h : Reaches serve d s tr d' t) (h' : Reaches serve d' t tr' d'' u) :
    Reaches serve d s (tr ++ tr') d'' u := by
  induction h with
  | here => exact h'
  | call hs _ ih => exact .call hs (ih h')

/-- **What every answered call keeps holds at every point of the run.** The
property may look at the exchange so far and at the point itself. -/
theorem Reaches.invariant_at {I : List (C × R) → Client C R A → σ → Prop} {d d' : Client C R A}
    {s t : σ} {tr : List (C × R)} (h : Reaches serve d s tr d' t) (h0 : I [] d s)
    (step : ∀ tr c k t r t', I tr (.call c k) t → serve t c = .ok (r, t') →
      I (tr ++ [(c, r)]) (k r) t') : I tr d' t := by
  suffices ∀ pre, I pre d s → I (pre ++ tr) d' t from this [] h0
  clear h0
  induction h with
  | here => intro pre hp; simpa using hp
  | call hs _ ih =>
    intro pre hp
    simpa using ih (pre ++ [_]) (step pre _ _ _ _ _ hp hs)

theorem Reaches.invariant {I : List (C × R) → σ → Prop} {d d' : Client C R A}
    {s t : σ} {tr : List (C × R)} (h : Reaches serve d s tr d' t) (h0 : I [] s)
    (step : ∀ tr c t r t', I tr t → serve t c = .ok (r, t') → I (tr ++ [(c, r)]) t') : I tr t :=
  h.invariant_at (I := fun tr _ t => I tr t) h0 fun tr c _ t r t' => step tr c t r t'

theorem run_eq_ok_iff {d : Client C R A} {s t : σ} {a : A} :
    run serve d s = .ok (a, t) ↔ Reaches serve d s (trace serve d s) (.ret a) t := by
  induction d generalizing s with
  | ret b =>
    constructor
    · intro h
      cases h
      exact .here _ _
    · intro h
      cases h
      rfl
  | call c k ih =>
    rw [run, trace]
    cases hs : serve s c with
    | error e =>
      constructor
      · intro h; cases h
      · intro h; cases h
    | ok rs =>
      obtain ⟨r, s'⟩ := rs
      simp only [ih r]
      constructor
      · exact .call hs
      · intro h
        cases h with
        | call hs' h' =>
          rw [hs] at hs'
          cases hs'
          exact h'

theorem Reaches.run_eq {d : Client C R A} {s t : σ} {a : A} {tr : List (C × R)}
    (h : Reaches serve d s tr (.ret a) t) : run serve d s = .ok (a, t) ∧ trace serve d s = tr := by
  generalize hd : Client.ret a = d' at h
  induction h with
  | here => subst hd; exact ⟨rfl, rfl⟩
  | call hs _ ih =>
    obtain ⟨h1, h2⟩ := ih hd
    rw [run, trace, hs]
    exact ⟨h1, by rw [← h2]⟩

/-- A run fails where one of its calls fails. -/
theorem run_eq_error_iff {d : Client C R A} {s : σ} {e : ε} : run serve d s = .error e ↔
    ∃ tr c k t, Reaches serve d s tr (.call c k) t ∧ serve t c = .error e := by
  constructor
  · intro h
    induction d generalizing s with
    | ret a => cases h
    | call c k ih =>
      rw [run] at h
      cases hs : serve s c with
      | error e' =>
        rw [hs] at h
        exact ⟨[], c, k, s, .here _ _, by rw [hs, show e' = e by simpa using h]⟩
      | ok rs =>
        obtain ⟨r, s'⟩ := rs
        rw [hs] at h
        obtain ⟨tr, c', k', t, hr, ht⟩ := ih r h
        exact ⟨_, c', k', t, .call hs hr, ht⟩
  · rintro ⟨tr, c, k, t, hr, ht⟩
    generalize hd : Client.call c k = d' at hr
    induction hr with
    | here => subst hd; rw [run, ht]
    | call hs _ ih => rw [run, hs]; exact ih ht hd

/-- On the way to a point the run gets through every first part of the
exchange. -/
theorem Reaches.split {d d' : Client C R A} {s t : σ} {tr tr' : List (C × R)}
    (h : Reaches serve d s (tr ++ tr') d' t) :
    ∃ d'' u, Reaches serve d s tr d'' u ∧ Reaches serve d'' u tr' d' t := by
  induction tr generalizing d s with
  | nil => exact ⟨d, s, .here _ _, h⟩
  | cons x tr ih =>
    cases h with
    | call hs h =>
      obtain ⟨d'', u, h1, h2⟩ := ih h
      exact ⟨d'', u, .call hs h1, h2⟩

/-- Every point of a run is on the way to its end. -/
theorem Reaches.run_eq_run {d d' : Client C R A} {s t : σ} {tr : List (C × R)}
    (h : Reaches serve d s tr d' t) : run serve d s = run serve d' t := by
  induction h with
  | here => rfl
  | call hs _ ih => rw [run, hs]; exact ih

/-- What is exchanged up to a point comes first in the whole exchange. -/
theorem Reaches.prefix_ret {d d' : Client C R A} {s t u : σ} {tr tr' : List (C × R)} {a : A}
    (h : Reaches serve d s tr d' t) (h' : Reaches serve d s tr' (.ret a) u) : tr <+: tr' := by
  have hrun : run serve d' t = .ok (a, u) := by rw [← h.run_eq_run, h'.run_eq.1]
  have htr := (h.trans (run_eq_ok_iff.mp hrun)).run_eq.2
  exact ⟨trace serve d' t, by rw [← htr, h'.run_eq.2]⟩

end Client
