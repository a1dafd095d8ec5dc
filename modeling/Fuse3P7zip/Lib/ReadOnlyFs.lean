/-
# A file system that is only read

Nodes are at paths, which are lists of names, and stay as they are. An open of
a file finds one of the contents that it may have and gives out a handle that
is not in use; a read through the handle is of these contents until it is
closed, whatever else is opened, read and closed. `Trace` are the requests
with their responses that such a file system may have.

A read is then of contents of the path at which its handle was opened
(`Trace.read_mem`).

`Simulates` is the rule to show that an implementation has no others
(`Simulates.traces`): each of its steps is one of the file system's, and keeps
the relation between their states.
-/
import Mathlib.Data.Nat.Notation
import Mathlib.Data.Set.Defs
import Mathlib.Logic.Function.Basic
import Mathlib.Order.Defs.LinearOrder

/-- Names `N`, nodes `A`, and contents of `B`. -/
structure ReadOnlyFs (N A B : Type) where
  node : List N → Option A
  contents : List N → Set (List B)
  /-- An open may be refused. -/
  refuses : List N → Prop

namespace ReadOnlyFs

variable {N A B : Type}

inductive Request (N : Type) where
  | stat (path : List N)
  | list (path : List N)
  | open (path : List N)
  | read (handle offset size : ℕ)
  | close (handle : ℕ)

inductive Response (N A B : Type) where
  | node (a : A)
  | names (l : List (N × A))
  | handle (h : ℕ)
  | data (bytes : List B)
  | closed
  | refused

/-- The contents behind every open handle. -/
abbrev State (B : Type) := ℕ → Option (List B)

/-- The directory at a path has these names, with their nodes, in order. -/
structure Lists [LT N] (fs : ReadOnlyFs N A B) (path : List N) (l : List (N × A)) : Prop where
  sorted : l.Pairwise fun x y => x.1 < y.1
  mem : ∀ n a, (n, a) ∈ l ↔ fs.node (path ++ [n]) = some a

/-- A request, its response, and the state behind it. -/
inductive Step [LT N] (fs : ReadOnlyFs N A B) : State B → Request N → Response N A B → State B → Prop
  | stat {s : State B} {path : List N} {a : A} : fs.node path = some a → Step fs s (.stat path) (.node a) s
  | noNode {s : State B} {path : List N} : fs.node path = none → Step fs s (.stat path) .refused s
  | list {s : State B} {path : List N} {l : List (N × A)} : fs.node path ≠ none → fs.Lists path l →
      Step fs s (.list path) (.names l) s
  | noList {s : State B} {path : List N} : fs.node path = none → Step fs s (.list path) .refused s
  | open {s : State B} {path : List N} {h : ℕ} {bytes : List B} : bytes ∈ fs.contents path → s h = none →
      Step fs s (.open path) (.handle h) (Function.update s h (some bytes))
  | noOpen {s : State B} {path : List N} : fs.refuses path → Step fs s (.open path) .refused s
  | read {s : State B} {h offset size : ℕ} {bytes : List B} : s h = some bytes →
      Step fs s (.read h offset size) (.data ((bytes.drop offset).take size)) s
  | close {s : State B} {h : ℕ} : s h ≠ none → Step fs s (.close h) .closed (Function.update s h none)

/-- Requests with their responses, and the state they lead to. -/
inductive Trace [LT N] (fs : ReadOnlyFs N A B) : List (Request N × Response N A B) → State B → Prop
  | start : Trace fs [] fun _ => none
  | step {hist : List (Request N × Response N A B)} {s s' : State B} {req : Request N} {resp : Response N A B} :
      Trace fs hist s → Step fs s req resp s' → Trace fs (hist ++ [(req, resp)]) s'

/-! ### What is read -/

/-- Where the handles were opened, behind a request. -/
def openAfter (opened : ℕ → Option (List N)) : Request N × Response N A B → ℕ → Option (List N)
  | (.open path, .handle h) => Function.update opened h (some path)
  | (.close h, .closed) => Function.update opened h none
  | _ => opened

/-- The path at which a handle was opened, if it was not closed since. -/
def openAt (hist : List (Request N × Response N A B)) : ℕ → Option (List N) := hist.foldl openAfter fun _ => none

theorem openAt_concat (hist : List (Request N × Response N A B)) (x : Request N × Response N A B) :
    openAt (hist ++ [x]) = openAfter (openAt hist) x := by
  rw [openAt, List.foldl_append]
  rfl

/-- The contents behind a handle are of the path at which it was opened. -/
theorem Trace.opened [LT N] {fs : ReadOnlyFs N A B} {hist : List (Request N × Response N A B)} {s : State B}
    (h : fs.Trace hist s) : ∀ handle bytes, s handle = some bytes →
      ∃ path, openAt hist handle = some path ∧ bytes ∈ fs.contents path := by
  induction h with
  | start =>
    intro _ _ h
    cases h
  | step _ hstep ih =>
    intro handle bytes hbytes
    rw [openAt_concat]
    cases hstep with
    | @«open» path h b hb hfree =>
      simp only [openAfter, Function.update_apply] at hbytes ⊢
      split_ifs at hbytes ⊢ with he
      · cases hbytes
        exact ⟨path, rfl, hb⟩
      · exact ih handle bytes hbytes
    | close hopen =>
      simp only [openAfter, Function.update_apply] at hbytes ⊢
      split_ifs at hbytes ⊢ with he
      exact ih handle bytes hbytes
    | _ => exact ih handle bytes hbytes

theorem Trace.step_at [LT N] {fs : ReadOnlyFs N A B} {hist pre suf : List (Request N × Response N A B)} {s : State B}
    (h : fs.Trace hist s) {x : Request N × Response N A B} (he : hist = pre ++ x :: suf) :
    ∃ u v, fs.Trace pre u ∧ fs.Step u x.1 x.2 v := by
  induction h generalizing suf with
  | start => simp at he
  | @step hist u v req resp htrace hstep ih =>
    rcases List.eq_nil_or_concat suf with rfl | ⟨suf, y, rfl⟩
    · obtain ⟨rfl, hx⟩ := List.append_inj' he rfl
      obtain rfl := List.singleton_inj.mp hx
      exact ⟨u, v, htrace, hstep⟩
    · rw [List.concat_eq_append, ← List.cons_append, ← List.append_assoc] at he
      obtain ⟨rfl, -⟩ := List.append_inj' he rfl
      exact ih rfl

/-- **A read is a slice of contents that its path may have**, the path at which its handle was opened. -/
theorem Trace.read_mem [LT N] {fs : ReadOnlyFs N A B} {hist pre suf : List (Request N × Response N A B)} {s : State B}
    (h : fs.Trace hist s) {handle offset size : ℕ} {data : List B}
    (he : hist = pre ++ (.read handle offset size, .data data) :: suf) :
    ∃ path, openAt pre handle = some path ∧ ∃ bytes ∈ fs.contents path, data = (bytes.drop offset).take size := by
  obtain ⟨u, v, htrace, hstep⟩ := h.step_at he
  cases hstep with
  | @read _ _ _ bytes hbytes =>
    obtain ⟨path, hpath, hm⟩ := htrace.opened handle bytes hbytes
    exact ⟨path, hpath, bytes, hm, rfl⟩

/-! ### Implementations -/

variable {σ ε : Type}

/-- The runs of an implementation, as far as it answers, under requests that are allowed. -/
inductive Runs (answer : σ → Request N → Except ε (Response N A B × σ)) (Allowed : σ → Request N → Prop) (init : σ) :
    List (Request N × Response N A B) → σ → Prop
  | start : Runs answer Allowed init [] init
  | step {hist : List (Request N × Response N A B)} {m m' : σ} {req : Request N} {resp : Response N A B} :
      Runs answer Allowed init hist m → Allowed m req → answer m req = .ok (resp, m') →
      Runs answer Allowed init (hist ++ [(req, resp)]) m'

/-- The implementation's steps are steps of the file system. -/
structure Simulates [LT N] (fs : ReadOnlyFs N A B) (answer : σ → Request N → Except ε (Response N A B × σ))
    (Allowed : σ → Request N → Prop) (init : σ) (rel : σ → State B → Prop) : Prop where
  init : rel init fun _ => none
  step : ∀ m s req resp m', rel m s → Allowed m req → answer m req = .ok (resp, m') →
    ∃ s', fs.Step s req resp s' ∧ rel m' s'

/-- **The runs of an implementation are traces of the file system.** -/
theorem Simulates.traces [LT N] {fs : ReadOnlyFs N A B} {answer : σ → Request N → Except ε (Response N A B × σ)}
    {Allowed : σ → Request N → Prop} {init : σ} {rel : σ → State B → Prop}
    (h : fs.Simulates answer Allowed init rel) {hist : List (Request N × Response N A B)} {m : σ}
    (hruns : Runs answer Allowed init hist m) : ∃ s, fs.Trace hist s ∧ rel m s := by
  induction hruns with
  | start => exact ⟨_, .start, h.init⟩
  | step _ hallowed hanswer ih =>
    obtain ⟨s, htrace, hrel⟩ := ih
    obtain ⟨s', hstep, hrel'⟩ := h.step _ s _ _ _ hrel hallowed hanswer
    exact ⟨s', .step htrace hstep, hrel'⟩

end ReadOnlyFs
