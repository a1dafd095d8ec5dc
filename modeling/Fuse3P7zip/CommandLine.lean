/-
# The command line

`fuse_opt_parse` takes the arguments that `opts_spec` matches, and gives
every other one to `process_arg`, which says whether libfuse keeps it. The
case for options of `process_arg` falls through into the one for the
archive: the first argument it is given, but for `allow_other`, is taken
for the archive, whatever it is. `selects_iff` is when that is the archive.
-/
import Mathlib.Tactic.SplitIfs
import Fuse3P7zip.Com

namespace Fuse3P7zip

/-- `cmd_params_t` -/
structure CmdParams where
  password : Option Str := none
  passfile : Option Str := none
  cliArgs : List Str := []
  allowOther : Bool := false
  deriving DecidableEq

/-- `arg_status` -/
inductive ArgStatus where
  | discard
  | keep
  | error
  deriving DecidableEq, Repr

def fuseOptKeyOpt : Int32 := -1
def fuseOptKeyNonopt : Int32 := -2

namespace CmdParams

def allowOtherArg : Str := ['a', 'l', 'l', 'o', 'w', '_', 'o', 't', 'h', 'e', 'r']

/-- `process_arg`: the status and the parameters; nothing when `print_usage`
ends the program. -/
def processArg (params : CmdParams) (arg : Str) (key : Int32) : Option (ArgStatus × CmdParams) :=
  if key = fuseOptKeyOpt ∧ arg = allowOtherArg then
    some (.keep, { params with allowOther := true })
  -- an option that is not `allow_other` falls through
  else if key = fuseOptKeyOpt ∨ key = fuseOptKeyNonopt then
    let params := { params with cliArgs := params.cliArgs ++ [arg] }
    if arg = [] then none
    else if params.cliArgs.length = 1 then some (.discard, params)
    else some (.keep, params)
  else some (.keep, params)

/-- `Fuse::path`, where there is one. -/
def path (params : CmdParams) : Option Str := params.cliArgs.head?

end CmdParams

/-- An argument, as `fuse_opt_parse` takes it: with a value for one of
`opts_spec`, another option, or no option. -/
inductive Arg where
  | password (value : Str)
  | passfile (value : Str)
  | opt (arg : Str)
  | nonopt (arg : Str)
  deriving DecidableEq, Repr

namespace Arg

/-- What the program and libfuse are to have of an argument that is not matched. -/
def isUnmatched : Arg → Bool
  | .opt _ | .nonopt _ => true
  | _ => false

def isNonopt : Arg → Bool
  | .nonopt _ => true
  | _ => false

/-- `process_arg` puts the argument into `cli_args`. -/
def isPushed : Arg → Bool
  | .opt arg => arg ≠ CmdParams.allowOtherArg
  | .nonopt _ => true
  | _ => false

def text : Arg → Str
  | .password value | .passfile value => value
  | .opt arg | .nonopt arg => arg

end Arg

/-- One argument: a match sets its parameter and is dropped, `process_arg` is
asked about every other one. -/
def parseArg (params : CmdParams) : Arg → Option (ArgStatus × CmdParams)
  | .password value => some (.discard, { params with password := some value })
  | .passfile value => some (.discard, { params with passfile := some value })
  | .opt arg => params.processArg arg fuseOptKeyOpt
  | .nonopt arg => params.processArg arg fuseOptKeyNonopt

/-- `fuse_opt_parse`: the parameters behind the arguments, and the arguments
that are kept for libfuse. -/
def fuseOptParse : CmdParams → List Arg → Option (CmdParams × List Arg)
  | params, [] => some (params, [])
  | params, a :: args => do
    let (status, params) ← parseArg params a
    if status = .error then none
    else
      let (params, kept) ← fuseOptParse params args
      return (params, if status = .keep then a :: kept else kept)

/-- The archive is the first argument that is no option, and all others that
are not matched are kept, in their order. -/
def Selects (args : List Arg) : Prop :=
  ∀ params kept, fuseOptParse {} args = some (params, kept) →
    params.path = (args.find? Arg.isNonopt).map Arg.text ∧
      kept = (args.filter Arg.isUnmatched).eraseP Arg.isNonopt

/-- An option other than `allow_other` has the archive before it. -/
def ArchiveFirst (args : List Arg) : Prop :=
  ∀ pre a post, args = pre ++ a :: post → a.isPushed = true → a.isNonopt = false →
    ∃ b ∈ pre, b.isNonopt = true

/-! ### An argument -/

theorem isPushed_of_isNonopt {a : Arg} (h : a.isNonopt = true) : a.isPushed = true := by
  cases a <;> simp_all [Arg.isNonopt, Arg.isPushed]

theorem isUnmatched_of_isPushed {a : Arg} (h : a.isPushed = true) : a.isUnmatched = true := by
  cases a <;> simp_all [Arg.isUnmatched, Arg.isPushed]

/-- An argument that is not put into `cli_args` is kept if it is not matched. -/
theorem parseArg_of_not_pushed (params : CmdParams) {a : Arg} (h : a.isPushed = false) :
    ∃ params', parseArg params a = some (if a.isUnmatched then .keep else .discard, params') ∧
      params'.cliArgs = params.cliArgs := by
  cases a with
  | password value => exact ⟨_, rfl, rfl⟩
  | passfile value => exact ⟨_, rfl, rfl⟩
  | opt arg =>
    have harg : arg = CmdParams.allowOtherArg := by simpa [Arg.isPushed] using h
    exact ⟨_, if_pos ⟨rfl, harg⟩, rfl⟩
  | nonopt arg => cases h

/-- One that is put there is kept unless it is the first; an empty one ends the
program. -/
theorem parseArg_of_pushed (params : CmdParams) {a : Arg} (h : a.isPushed = true) :
    parseArg params a = if a.text = [] then none
      else some (if params.cliArgs = [] then .discard else .keep,
        { params with cliArgs := params.cliArgs ++ [a.text] }) := by
  have key : ∀ arg key, ¬ (key = fuseOptKeyOpt ∧ arg = CmdParams.allowOtherArg) →
      (key = fuseOptKeyOpt ∨ key = fuseOptKeyNonopt) → params.processArg arg key =
        if arg = [] then none
        else some (if params.cliArgs = [] then .discard else .keep,
          { params with cliArgs := params.cliArgs ++ [arg] }) := by
    intro arg key h1 h2
    unfold CmdParams.processArg
    rw [if_neg h1, if_pos h2]
    simp only [List.length_append, List.length_singleton, Nat.add_eq_right, List.length_eq_zero_iff]
    split_ifs <;> rfl
  cases a with
  | password value => cases h
  | passfile value => cases h
  | opt arg => exact key arg _ (fun h' => by simp [Arg.isPushed, h'.2] at h) (.inl rfl)
  | nonopt arg => exact key arg _ (fun h' => absurd h'.1 (by decide)) (.inr rfl)

/-! ### The command line -/

/-- What comes back: the arguments put into `cli_args`, and all that are not
matched but the first of those. -/
theorem fuseOptParse_some : ∀ {args : List Arg} {params params' : CmdParams} {kept : List Arg},
    fuseOptParse params args = some (params', kept) →
    params'.cliArgs = params.cliArgs ++ (args.filter Arg.isPushed).map Arg.text ∧
      kept = if params.cliArgs = [] then (args.filter Arg.isUnmatched).eraseP Arg.isPushed
        else args.filter Arg.isUnmatched
  | [], params, _, _, h => by
    cases h
    simp
  | a :: args, params, params', kept, h => by
    obtain ⟨⟨status, params1⟩, h1, hrest⟩ := Option.bind_eq_some_iff.mp h
    by_cases hs : status = .error
    · simp [hs] at hrest
    · simp only [if_neg hs] at hrest
      obtain ⟨⟨params2, kept'⟩, h2, hret⟩ := Option.bind_eq_some_iff.mp hrest
      obtain ⟨hargs, hkept⟩ := fuseOptParse_some h2
      cases hret
      by_cases hp : a.isPushed = true
      · rw [parseArg_of_pushed params hp] at h1
        split_ifs at h1 with h0 hc
        · cases h1
          simp [hargs, hkept, hp, hc, isUnmatched_of_isPushed hp]
        · cases h1
          simp [hargs, hkept, hp, hc, isUnmatched_of_isPushed hp]
      · obtain ⟨p, hp1, hp2⟩ := parseArg_of_not_pushed params (by simpa using hp)
        rw [hp1] at h1
        cases h1
        rw [hp2] at hargs hkept
        refine ⟨by simp [hargs, hp], ?_⟩
        cases hu : a.isUnmatched with
        | false => simp [hkept, hu]
        | true => by_cases hc : params.cliArgs = [] <;> simp [hkept, hp, hu, hc]

theorem fuseOptParse_cons_eq_none {params params' : CmdParams} {a : Arg} {status : ArgStatus}
    (h : parseArg params a = some (status, params')) (hs : status ≠ .error) (args : List Arg) :
    fuseOptParse params (a :: args) = none ↔ fuseOptParse params' args = none := by
  rw [fuseOptParse, h]
  simp only [Option.bind_eq_bind, Option.bind_some, if_neg hs]
  cases fuseOptParse params' args <;> simp

/-- The program ends for an empty argument, and only for one. -/
theorem fuseOptParse_eq_none_iff : ∀ (args : List Arg) (params : CmdParams),
    fuseOptParse params args = none ↔ ∃ a ∈ args, a.isPushed = true ∧ a.text = []
  | [], params => by simp [fuseOptParse]
  | a :: args, params => by
    simp only [List.mem_cons, exists_eq_or_imp]
    by_cases hp : a.isPushed = true
    · have ha := parseArg_of_pushed params hp
      by_cases h0 : a.text = []
      · rw [if_pos h0] at ha
        refine iff_of_true ?_ (.inl ⟨hp, h0⟩)
        unfold fuseOptParse
        rw [ha]
        rfl
      · rw [if_neg h0] at ha
        rw [fuseOptParse_cons_eq_none ha (by split_ifs <;> simp), fuseOptParse_eq_none_iff args]
        simp [h0]
    · obtain ⟨p, ha, -⟩ := parseArg_of_not_pushed params (by simpa using hp)
      rw [fuseOptParse_cons_eq_none ha (by split_ifs <;> simp), fuseOptParse_eq_none_iff args]
      simp [hp]

/-! ### Which argument is the archive -/

theorem ne_cons_eraseP {α : Type} {p : α → Bool} : ∀ (l : List α) (a : α), p a = false →
    l ≠ a :: l.eraseP p
  | [], a, _, h => by simp at h
  | b :: l, a, ha, h => by
    obtain ⟨rfl, hl⟩ := List.cons.inj h
    rw [List.eraseP_cons_of_neg (by simp [ha])] at hl
    exact ne_cons_eraseP l b ha hl

theorem archiveFirst_of_nonopt {a : Arg} (h : a.isNonopt = true) (args : List Arg) :
    ArchiveFirst (a :: args)
  | [], b, post, he, _, hb => by
    cases he
    rw [h] at hb
    cases hb
  | c :: pre, b, post, he, _, _ => by
    cases he
    exact ⟨_, List.mem_cons_self, h⟩

theorem archiveFirst_cons {a : Arg} (hp : a.isPushed = false) (args : List Arg) :
    ArchiveFirst (a :: args) ↔ ArchiveFirst args := by
  have hn : a.isNonopt = false := Bool.eq_false_iff.mpr fun h => by
    rw [isPushed_of_isNonopt h] at hp
    cases hp
  refine ⟨fun h pre b post he hb hb' => ?_, fun h pre b post he hb hb' => ?_⟩
  · obtain ⟨c, hc, hc'⟩ := h (a :: pre) b post (by rw [he]; rfl) hb hb'
    obtain rfl | hc := List.mem_cons.mp hc
    · rw [hn] at hc'
      cases hc'
    · exact ⟨c, hc, hc'⟩
  · cases pre with
    | nil =>
      cases he
      rw [hp] at hb
      cases hb
    | cons c pre =>
      obtain ⟨-, hargs⟩ := List.cons.inj he
      obtain ⟨d, hd, hd'⟩ := h pre b post hargs hb hb'
      exact ⟨d, List.mem_cons_of_mem _ hd, hd'⟩

/-- The first argument that is put into `cli_args` is the archive exactly when no
option is put there before it. -/
theorem first_pushed_iff : ∀ args : List Arg,
    ((args.filter Arg.isPushed).map Arg.text).head? = (args.find? Arg.isNonopt).map Arg.text ∧
      (args.filter Arg.isUnmatched).eraseP Arg.isPushed =
        (args.filter Arg.isUnmatched).eraseP Arg.isNonopt ↔ ArchiveFirst args
  | [] => iff_of_true ⟨rfl, rfl⟩ fun pre _ _ h => by simp at h
  | a :: args => by
    have ih := first_pushed_iff args
    by_cases hn : a.isNonopt = true
    · have hp := isPushed_of_isNonopt hn
      have hu := isUnmatched_of_isPushed hp
      exact iff_of_true (by simp [hn, hp, hu]) (archiveFirst_of_nonopt hn args)
    · by_cases hp : a.isPushed = true
      · have hu := isUnmatched_of_isPushed hp
        refine iff_of_false (fun h => ?_) fun h => ?_
        · have h2 := h.2
          rw [List.filter_cons_of_pos hu, List.eraseP_cons_of_pos hp, List.eraseP_cons_of_neg hn] at h2
          exact ne_cons_eraseP _ a (by simpa using hn) h2
        · obtain ⟨b, hb, -⟩ := h [] a args rfl hp (by simpa using hn)
          simp at hb
      · rw [archiveFirst_cons (by simpa using hp), ← ih]
        cases hu : a.isUnmatched <;> simp [hn, hp, hu]

/-- **Which argument is opened as the archive.** Unless an empty argument ends
the program, it is the first that is no option exactly when every option
but `allow_other` comes behind that. -/
theorem selects_iff (args : List Arg) : Selects args ↔
    (∃ a ∈ args, a.isUnmatched = true ∧ a.text = []) ∨ ArchiveFirst args := by
  have hempty : (∃ a ∈ args, a.isUnmatched = true ∧ a.text = []) ↔ fuseOptParse {} args = none := by
    rw [fuseOptParse_eq_none_iff]
    refine exists_congr fun a => and_congr_right fun _ => and_congr_left fun h0 => ?_
    cases a with
    | opt arg => simp_all [Arg.isUnmatched, Arg.isPushed, Arg.text, CmdParams.allowOtherArg]
    | _ => simp [Arg.isUnmatched, Arg.isPushed]
  rw [hempty]
  unfold Selects
  cases hf : fuseOptParse {} args with
  | none => simp
  | some r =>
    obtain ⟨hargs, hkept⟩ := fuseOptParse_some hf
    have hpath : r.1.path = ((args.filter Arg.isPushed).map Arg.text).head? := by
      unfold CmdParams.path
      rw [hargs]
      rfl
    rw [if_pos rfl] at hkept
    rw [← first_pushed_iff]
    refine ⟨fun h => .inr ?_, fun h params kept he => ?_⟩
    · have h' := h r.1 r.2 rfl
      rwa [hpath, hkept] at h'
    · cases he
      rw [hpath, show kept = _ from hkept]
      exact h.resolve_left (by simp)

/-- With `-f` before the archive, `-f` is opened. -/
theorem option_taken_for_archive : ¬ Selects [.opt ['-', 'f'], .nonopt ['a'], .nonopt ['m']] := by
  intro h
  have := (h _ _ rfl).1
  revert this
  decide

end Fuse3P7zip
