/-
# Services a client cannot tell apart

Two services are alike from related states when they give the same reply to
every call, and are in related states behind it, or fail alike. Then a client
gets the same from both (`Alike.run`), whatever it asks for; a client that
makes only some calls needs them to be alike in these (`Only.agree_run`). A
service that always gives the same reply to some calls, and stays where it is,
may as well not be asked: `run_knowing`.
-/
import Fuse3P7zip.Lib.Client

namespace Client

variable {C R A σ τ ε : Type}

/-- The same result, with related states behind it, or the same failure. -/
inductive Agree (rel : σ → τ → Prop) : Except ε (A × σ) → Except ε (A × τ) → Prop
  | ok {a : A} {s : σ} {t : τ} : rel s t → Agree rel (.ok (a, s)) (.ok (a, t))
  | error (e : ε) : Agree rel (.error e) (.error e)

variable {rel : σ → τ → Prop}

theorem Agree.of_ok {x : Except ε (A × σ)} {a : A} {t : τ} (h : Agree rel x (.ok (a, t))) :
    ∃ s, x = .ok (a, s) ∧ rel s t := by
  cases h with
  | ok hst => exact ⟨_, rfl, hst⟩

def Alike (serve : σ → C → Except ε (R × σ)) (serve' : τ → C → Except ε (R × τ)) (rel : σ → τ → Prop) : Prop :=
  ∀ s t c, rel s t → Agree rel (serve s c) (serve' t c)

theorem only_true (d : Client C R A) : d.Only fun _ => True := by
  induction d with
  | ret a => exact .ret a
  | call c k ih => exact .call trivial ih

/-- Services that are alike in the calls a client makes come to the same for it. -/
theorem Only.agree_run {P : C → Prop} {serve : σ → C → Except ε (R × σ)} {serve' : τ → C → Except ε (R × τ)}
    (h : ∀ s t c, P c → rel s t → Agree rel (serve s c) (serve' t c)) {d : Client C R A} (hd : d.Only P) {s : σ} {t : τ}
    (hst : rel s t) : Agree rel (d.run serve s) (d.run serve' t) := by
  induction hd generalizing s t with
  | ret a => exact .ok hst
  | @call c k hc _ ih =>
    rw [Client.run, Client.run]
    generalize hx : serve s c = x
    generalize hy : serve' t c = y
    have hxy := h s t c hc hst
    rw [hx, hy] at hxy
    cases hxy with
    | ok hst' => exact ih _ hst'
    | error e => exact .error e

/-- **A run against either service comes to the same.** -/
theorem Alike.run {serve : σ → C → Except ε (R × σ)} {serve' : τ → C → Except ε (R × τ)}
    (h : Alike serve serve' rel) (d : Client C R A) {s : σ} {t : τ} (hst : rel s t) :
    Agree rel (d.run serve s) (d.run serve' t) :=
  (only_true d).agree_run (fun s t c _ => h s t c) hst

/-- The client with the replies it knows in place of these calls. -/
def knowing (known : C → Option R) : Client C R A → Client C R A
  | .ret a => .ret a
  | .call c k =>
    match known c with
    | some r => knowing known (k r)
    | none => .call c fun r => knowing known (k r)

/-- **What is known need not be asked for.** The other service may reply to
these calls as it likes. -/
theorem run_knowing {serve serve' : σ → C → Except ε (R × σ)} {known : C → Option R}
    (hknown : ∀ s c r, known c = some r → serve s c = .ok (r, s))
    (hother : ∀ s c, known c = none → serve s c = serve' s c) (d : Client C R A) (s : σ) :
    d.run serve s = (d.knowing known).run serve' s := by
  induction d generalizing s with
  | ret a => rfl
  | call c k ih =>
    rw [Client.run, knowing]
    cases hc : known c with
    | some r =>
      simp only [hknown s c r hc]
      exact ih r s
    | none =>
      show _ = Client.run serve' (.call c fun r => knowing known (k r)) s
      rw [Client.run, hother s c hc]
      cases serve' s c with
      | error e => rfl
      | ok reply => exact ih reply.1 reply.2

end Client
