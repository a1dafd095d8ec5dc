/-
# Where the password comes from

`IPassword` and its classes, and the choice between them. A password read
from stdin, from a passfile or from the output of one that is executable is
the same text, less the newlines at its end (`same_password`), and ends in
none unless nothing else was read (`chomp_iff`). A passfile is asked when
there is no password yet, and that is also so when it was asked and gave
none: `asked_once_iff`.
-/
import Fuse3P7zip.CommandLine
import Fuse3P7zip.Password
import Fuse3P7zip.Strings
import Fuse3P7zip.Lib.Lines

namespace Fuse3P7zip

/-! ### The output of an executable -/

/-- The loop of `exec` over what the pipe gives, for at most `fuel` rounds. -/
def execLoop : ℕ → Str → Str → Option Str
  | 0, _, _ => none
  | fuel + 1, result, pipe =>
    match Lines.fgets '\n' 1024 pipe with
    | none => some result
    | some (buffer, pipe) => execLoop fuel (result ++ cStr buffer) pipe

/-- What the buffer holds in each round. -/
def buffers (out : Str) : List Str :=
  (Lines.readAll '\n' 1024 (out.length + 1) out).get
    (Lines.isSome_readAll '\n' (by decide) (Nat.lt_succ_self _))

theorem execLoop_eq : ∀ (fuel : ℕ) (result pipe : Str), execLoop fuel result pipe =
    (Lines.readAll '\n' 1024 fuel pipe).map fun ls => result ++ ls.flatMap cStr
  | 0, _, _ => rfl
  | fuel + 1, result, pipe => by
    unfold execLoop Lines.readAll
    cases Lines.fgets '\n' 1024 pipe with
    | none => simp
    | some p =>
      simp only [execLoop_eq fuel, Option.map_map]
      refine congrArg (Option.map · _) (funext fun ls => ?_)
      simp

theorem readAll_buffers (out : Str) :
    Lines.readAll '\n' 1024 (out.length + 1) out = some (buffers out) := (Option.some_get _).symm

theorem execLoop_length (out : Str) : execLoop (out.length + 1) [] out = some ((buffers out).flatMap cStr) := by
  rw [execLoop_eq, readAll_buffers]
  rfl

/-- What `exec` returns when `out` was printed. -/
def execResult (out : Str) : Str :=
  (execLoop (out.length + 1) [] out).get (by rw [execLoop_length]; rfl)

theorem execResult_eq (out : Str) : execResult out = (buffers out).flatMap cStr := by
  unfold execResult
  simp only [execLoop_length, Option.get_some]

/-- Without a NUL in it, the output is put together again. -/
theorem execResult_of_no_nul {out : Str} (h : '\x00' ∉ out) : execResult out = out := by
  obtain ⟨hflat, -⟩ := Lines.flatten_readAll '\n' (by decide) (readAll_buffers out)
  have hmap : (buffers out).map cStr = (buffers out).map id := by
    refine List.map_congr_left fun l hl => cStr_of_no_nul fun hm => h ?_
    rw [← hflat]
    exact List.mem_flatten_of_mem hl hm
  rw [execResult_eq, List.flatMap_def, hmap, List.map_id, hflat]

/-- Something is printed: a line, or as much of one as the buffer holds, that
does not begin with a NUL. -/
def Prints (out : Str) : Prop := ∃ l ∈ buffers out, l.head? ≠ some '\x00'

instance (out : Str) : Decidable (Prints out) := inferInstanceAs (Decidable (∃ l ∈ _, _))

theorem execResult_ne_nil_iff (out : Str) : execResult out ≠ [] ↔ Prints out := by
  obtain ⟨-, hne⟩ := Lines.flatten_readAll '\n' (by decide) (readAll_buffers out)
  rw [execResult_eq, Ne, List.flatMap_eq_nil_iff]
  unfold Prints
  push Not
  refine exists_congr fun l => and_congr_right fun hl => not_congr ?_
  obtain ⟨c, l, rfl⟩ := List.exists_cons_of_ne_nil (hne l hl)
  simp [cStr, List.takeWhile_cons]

/-! ### The classes -/

/-- What a passfile is when it is asked. -/
structure Passfile where
  /-- `access` with `X_OK` says so. -/
  executable : Bool
  /-- What a command line prints, if `popen` can run it. -/
  popen : Str → Option Str
  content : Str

namespace PasswordFromFile

def exec (this : PasswordFromFile) (popen : Str → Option Str) : Except Escape Str := do
  let pipe ← checkResult (popen this.cmd) "popen() failed!"
  return execResult pipe

/-- `get` with the password there is: the password, and how often the passfile
was executed. -/
def get (this : PasswordFromFile) (password : Str) (file : Passfile) : Except Escape (Str × ℕ) :=
  noexcept do
    if password = [] then
      if file.executable then
        let out ← this.exec file.popen
        return (chomp out, 1)
      else return (chomp file.content, 0)
    else return (password, 0)

end PasswordFromFile

/-- `IPassword`: its classes, with the password they hold. -/
inductive IPassword where
  | fromString (password : Str)
  | fromStdin (password : Str)
  | fromFile (this : PasswordFromFile) (password : Str)

namespace IPassword

/-- `PasswordFromStdin` -/
def ofStdin (pass : Str) : IPassword := .fromStdin (chomp pass)

/-- `PasswordFromFile` -/
def ofFile (path archive : Str) : IPassword := .fromFile ⟨archive, path⟩ []

/-- `get`: the password, the object, and how often a passfile was executed. -/
def get : IPassword → Passfile → Except Escape (Str × IPassword × ℕ)
  | .fromString password, _ => .ok (password, .fromString password, 0)
  | .fromStdin password, _ => .ok (password, .fromStdin password, 0)
  | .fromFile this password, file => do
    let (password, n) ← this.get password file
    return (password, .fromFile this password, n)

/-- `Fuse::password` called again and again, and how often a passfile was
executed in all. -/
def calls : IPassword → List Passfile → Except Escape (List Str × ℕ)
  | _, [] => .ok ([], 0)
  | this, file :: files => do
    let (password, this, n) ← this.get file
    let (passwords, m) ← calls this files
    return (password :: passwords, n + m)

end IPassword

/-- What the choice of the password's source depends on besides the command line. -/
structure PasswordEnv where
  stdin : Str
  isRegularFile : Str → Bool
  absolute : Str → Str
  /-- `FUSE3_P7ZIP_PASSWORD` -/
  password : Option Str
  /-- `FUSE3_P7ZIP_PASSFILE` -/
  passfile : Option Str

/-- The environment's part of the choice. -/
def envPassword (env : PasswordEnv) (archive : Str) : IPassword :=
  match env.password with
  | some password => .fromString password
  | none =>
    match env.passfile with
    | some passfile =>
      if env.isRegularFile passfile then .ofFile (env.absolute passfile) archive else .fromString []
    | none => .fromString []

/-- `cmd_password` behind the constructor of `Fuse::Params`, with the archive on
the command line. -/
def cmdPassword (params : CmdParams) (archive : Str) (env : PasswordEnv) : IPassword :=
  match params.password with
  | some password => .fromString password
  | none =>
    match params.passfile with
    | some passfile =>
      if passfile = ['-'] then .ofStdin env.stdin
      else if env.isRegularFile passfile then .ofFile (env.absolute passfile) archive
      else envPassword env archive
    | none => envPassword env archive

/-! ### What is asked and what is read -/

namespace PasswordFromFile

/-- A password that is there is not asked for again. -/
theorem get_of_ne_nil (this : PasswordFromFile) {password : Str} (h : password ≠ []) (file : Passfile) :
    this.get password file = .ok (password, 0) := by
  unfold get
  rw [if_neg h]
  rfl

theorem get_content (this : PasswordFromFile) {file : Passfile} (h : file.executable = false) :
    this.get [] file = .ok (chomp file.content, 0) := by
  unfold get
  rw [if_pos rfl, h]
  rfl

theorem get_output (this : PasswordFromFile) {file : Passfile} (h : file.executable = true) {out : Str}
    (hout : file.popen this.cmd = some out) : this.get [] file = .ok (chomp (execResult out), 1) := by
  unfold get exec
  rw [if_pos rfl, h, hout]
  rfl

end PasswordFromFile

theorem IPassword.get_fromFile {this : PasswordFromFile} {held password : Str} {file : Passfile} {n : ℕ}
    (h : this.get held file = .ok (password, n)) :
    (IPassword.fromFile this held).get file = .ok (password, .fromFile this password, n) :=
  bind_eq_ok.mpr ⟨_, h, rfl⟩

/-- The password of one call of `Fuse::password`. -/
def IPassword.obtained (this : IPassword) (file : Passfile) : Except Escape Str :=
  (this.get file).map Prod.fst

theorem obtained_ofStdin (pass : Str) (file : Passfile) :
    (IPassword.ofStdin pass).obtained file = .ok (chomp pass) := rfl

theorem obtained_content (path archive : Str) {file : Passfile} (h : file.executable = false) :
    (IPassword.ofFile path archive).obtained file = .ok (chomp file.content) := by
  unfold IPassword.obtained IPassword.ofFile
  rw [IPassword.get_fromFile (PasswordFromFile.get_content _ h)]
  rfl

theorem obtained_output (path archive : Str) {file : Passfile} (h : file.executable = true) {out : Str}
    (hout : file.popen (PasswordFromFile.cmd ⟨archive, path⟩) = some out) :
    (IPassword.ofFile path archive).obtained file = .ok (chomp (execResult out)) := by
  unfold IPassword.obtained IPassword.ofFile
  rw [IPassword.get_fromFile (PasswordFromFile.get_output _ h hout)]
  rfl

theorem cmdPassword_stdin {params : CmdParams} (hp : params.password = none)
    (hf : params.passfile = some ['-']) (archive : Str) (env : PasswordEnv) :
    cmdPassword params archive env = .ofStdin env.stdin := by
  unfold cmdPassword
  rw [hp, hf]
  rfl

/-- A passfile is taken: that of the command line, or else that of the
environment. -/
def TakesPassfile (params : CmdParams) (env : PasswordEnv) (passfile : Str) : Prop :=
  env.isRegularFile passfile = true ∧
    ((params.passfile = some passfile ∧ passfile ≠ ['-']) ∨
      ((∀ p ∈ params.passfile, p ≠ ['-'] ∧ env.isRegularFile p = false) ∧
        env.password = none ∧ env.passfile = some passfile))

theorem envPassword_file {env : PasswordEnv} {passfile : Str} (hp : env.password = none)
    (hf : env.passfile = some passfile) (hreg : env.isRegularFile passfile = true) (archive : Str) :
    envPassword env archive = .ofFile (env.absolute passfile) archive := by
  unfold envPassword
  rw [hp, hf]
  simp only [hreg, if_true]

theorem cmdPassword_file {params : CmdParams} {env : PasswordEnv} {passfile : Str} (hp : params.password = none)
    (h : TakesPassfile params env passfile) (archive : Str) :
    cmdPassword params archive env = .ofFile (env.absolute passfile) archive := by
  obtain ⟨hreg, ⟨hf, hname⟩ | ⟨hnone, hep, hef⟩⟩ := h
  · unfold cmdPassword
    rw [hp, hf]
    simp only [if_neg hname, hreg, if_true]
  · rw [← envPassword_file hep hef hreg archive]
    unfold cmdPassword
    rw [hp]
    cases hf : params.passfile with
    | none => rfl
    | some p =>
      obtain ⟨hname, hno⟩ := hnone p hf
      simp only [if_neg hname, hno, Bool.false_eq_true, if_false]

/-- **One password, three ways in.** A text without a NUL gives the same password
from stdin, as the content of a passfile, and as the output of one. -/
theorem same_password {text : Str} (hnul : '\x00' ∉ text) :
    execResult text = text ∧
    (∀ params env archive file, params.password = none → params.passfile = some ['-'] → env.stdin = text →
      (cmdPassword params archive env).obtained file = .ok (chomp text)) ∧
    ∀ params env archive passfile, params.password = none → TakesPassfile params env passfile →
      (∀ popen, (cmdPassword params archive env).obtained ⟨false, popen, text⟩ = .ok (chomp text)) ∧
      ∀ content popen, popen (PasswordFromFile.cmd ⟨archive, env.absolute passfile⟩) = some text →
        (cmdPassword params archive env).obtained ⟨true, popen, content⟩ = .ok (chomp text) := by
  have hexec := execResult_of_no_nul hnul
  refine ⟨hexec, fun params env archive file hp hf hin => ?_, fun params env archive passfile hp htakes =>
    ⟨fun popen => ?_, fun content popen hout => ?_⟩⟩
  · rw [cmdPassword_stdin hp hf, hin]
    exact obtained_ofStdin text file
  · rw [cmdPassword_file hp htakes]
    exact obtained_content _ _ rfl
  · rw [cmdPassword_file hp htakes, obtained_output _ _ rfl hout, hexec]

theorem same_password_secret :
    execResult ['s', '\n', 't', '\n'] = ['s', '\n', 't', '\n'] ∧
    (cmdPassword { passfile := some ['p'] } ['a'] ⟨[], fun _ => true, id, none, none⟩).obtained
      ⟨true, fun _ => some ['s', '\n', 't', '\n'], []⟩ = .ok ['s', '\n', 't'] := by
  have hnul : '\x00' ∉ ['s', '\n', 't', '\n'] := by decide
  have htakes : TakesPassfile { passfile := some ['p'] } ⟨[], fun _ => true, id, none, none⟩ ['p'] :=
    ⟨rfl, .inl ⟨rfl, by decide⟩⟩
  obtain ⟨hexec, -, hfile⟩ := same_password hnul
  exact ⟨hexec, (hfile _ _ ['a'] _ rfl htakes).2 [] _ rfl⟩

/-- **Newlines at the end.** They are all taken off, and no password ends in one,
exactly when nothing was read or something besides newlines; and chomping
again changes nothing. -/
theorem chomp_iff (str : Str) :
    (Chomped str (chomp str) ↔ HasText str) ∧ chomp (chomp str) = chomp str ∧
    (∀ file, ∃ password, (IPassword.ofStdin str).obtained file = .ok password ∧
      (password.getLast? ≠ some '\n' ↔ HasText str)) ∧
    (∀ path archive popen, ∃ password, (IPassword.ofFile path archive).obtained ⟨false, popen, str⟩ = .ok password ∧
      (password.getLast? ≠ some '\n' ↔ HasText str)) ∧
    ∀ path archive content, ∃ password,
      (IPassword.ofFile path archive).obtained ⟨true, fun _ => some str, content⟩ = .ok password ∧
      (password.getLast? ≠ some '\n' ↔ HasText (execResult str)) := by
  refine ⟨chomped_chomp_iff str, chomp_chomp str, fun file => ?_, fun path archive popen => ?_,
    fun path archive content => ?_⟩
  · exact ⟨_, obtained_ofStdin str file, getLast?_chomp_ne_iff str⟩
  · exact ⟨_, obtained_content path archive rfl, getLast?_chomp_ne_iff str⟩
  · exact ⟨_, obtained_output path archive rfl rfl, getLast?_chomp_ne_iff _⟩

/-- A newline alone stays, and is the password. -/
theorem newline_kept : ¬ Chomped ['\n'] (chomp ['\n']) ∧
    (IPassword.ofStdin ['\n']).obtained ⟨false, fun _ => none, []⟩ = .ok ['\n'] := by
  refine ⟨fun h => ?_, rfl⟩
  have := h.2
  revert this
  decide

/-! ### One call after the other -/

/-- An executable passfile that prints `out`. -/
def Passfile.printing (out : Str) : Passfile := ⟨true, fun _ => some out, []⟩

/-- However often the password is asked for, the passfile is executed once at
most, and the password is always the same. -/
def AskedOnce (this : PasswordFromFile) (outs : List Str) : Prop :=
  ∃ passwords n, IPassword.calls (.fromFile this []) (outs.map Passfile.printing) = .ok (passwords, n) ∧
    n ≤ 1 ∧ ∀ p ∈ passwords, ∀ q ∈ passwords, p = q

theorem calls_cons {this this' : IPassword} {file : Passfile} {files : List Passfile} {password : Str}
    {passwords : List Str} {n m : ℕ} (h : this.get file = .ok (password, this', n))
    (hs : this'.calls files = .ok (passwords, m)) :
    this.calls (file :: files) = .ok (password :: passwords, n + m) :=
  bind_eq_ok.mpr ⟨_, h, bind_eq_ok.mpr ⟨_, hs, rfl⟩⟩

/-- With a password, every call gives it. -/
theorem calls_of_ne_nil (this : PasswordFromFile) {password : Str} (h : password ≠ []) :
    ∀ files : List Passfile, (IPassword.fromFile this password).calls files =
      .ok (List.replicate files.length password, 0)
  | [] => rfl
  | file :: files =>
    calls_cons (IPassword.get_fromFile (PasswordFromFile.get_of_ne_nil this h file))
      (calls_of_ne_nil this h files)

/-- Without one, the first call executes the passfile. -/
theorem get_printing (this : PasswordFromFile) (out : Str) :
    (IPassword.fromFile this []).get (.printing out) =
      .ok (chomp (execResult out), .fromFile this (chomp (execResult out)), 1) :=
  IPassword.get_fromFile (PasswordFromFile.get_output this rfl rfl)

theorem calls_total (this : PasswordFromFile) : ∀ (outs : List Str) (password : Str),
    ∃ passwords n, (IPassword.fromFile this password).calls (outs.map Passfile.printing) = .ok (passwords, n)
  | [], _ => ⟨[], 0, rfl⟩
  | out :: outs, password => by
    by_cases h : password = []
    · obtain ⟨passwords, n, hs⟩ := calls_total this outs (chomp (execResult out))
      rw [h]
      exact ⟨_, _, calls_cons (get_printing this out) hs⟩
    · exact ⟨_, _, calls_of_ne_nil this h _⟩

theorem chomp_execResult_ne_nil_iff (out : Str) : chomp (execResult out) ≠ [] ↔ Prints out := by
  rw [Ne, chomp_eq_nil_iff]
  exact execResult_ne_nil_iff out

/-- A passfile that prints nothing leaves no password. -/
theorem get_of_not_prints (this : PasswordFromFile) {out : Str} (h : ¬ Prints out) :
    (IPassword.fromFile this []).get (.printing out) = .ok ([], .fromFile this [], 1) := by
  have hnil : chomp (execResult out) = [] :=
    Decidable.not_not.mp fun hne => h ((chomp_execResult_ne_nil_iff out).mp hne)
  rw [get_printing, hnil]

theorem askedOnce_of_prints (this : PasswordFromFile) {out : Str} (h : Prints out) (outs : List Str) :
    AskedOnce this (out :: outs) := by
  have hne := (chomp_execResult_ne_nil_iff out).mpr h
  refine ⟨_, _, calls_cons (get_printing this out) (calls_of_ne_nil this hne _), by decide, ?_⟩
  rw [← List.replicate_succ]
  intro p hp q hq
  rw [List.eq_of_mem_replicate hp, List.eq_of_mem_replicate hq]

/-- When nothing was printed the second call executes the passfile again. -/
theorem not_askedOnce (this : PasswordFromFile) {out : Str} (h : ¬ Prints out) (out' : Str) (outs : List Str) :
    ¬ AskedOnce this (out :: out' :: outs) := by
  rintro ⟨passwords, n, hcalls, hn, -⟩
  obtain ⟨rest, m, hrest⟩ := calls_total this outs (chomp (execResult out'))
  have htwice := calls_cons (get_of_not_prints this h) (calls_cons (get_printing this out') hrest)
  cases htwice.symm.trans hcalls
  omega

theorem askedOnce_iff (this : PasswordFromFile) :
    ∀ outs, AskedOnce this outs ↔ outs.length ≤ 1 ∨ ∀ out ∈ outs.head?, Prints out
  | [] => iff_of_true ⟨[], 0, rfl, by decide, by simp⟩ (.inl (by decide))
  | [out] => by
    refine iff_of_true ⟨_, _, calls_cons (get_printing this out) rfl, by decide, ?_⟩ (.inl (Nat.le_refl 1))
    simp
  | out :: out' :: outs => by
    by_cases hp : Prints out
    · exact iff_of_true (askedOnce_of_prints this hp _) (.inr (by simpa using hp))
    · exact iff_of_false (not_askedOnce this hp out' outs) (by simpa using hp)

/-- The passwords of two calls. -/
theorem two_passwords (this : PasswordFromFile) (out out' : Str) : ∃ openPassword extractPassword n,
    (IPassword.fromFile this []).calls [.printing out, .printing out'] = .ok ([openPassword, extractPassword], n) ∧
      (openPassword = extractPassword ↔ Prints out ∨ ¬ Prints out') := by
  by_cases hp : Prints out
  · have hne := (chomp_execResult_ne_nil_iff out).mpr hp
    exact ⟨_, _, _, calls_cons (get_printing this out) (calls_of_ne_nil this hne [.printing out']),
      iff_of_true rfl (.inl hp)⟩
  · refine ⟨_, _, _, calls_cons (get_of_not_prints this hp) (calls_cons (get_printing this out') rfl), ?_⟩
    rw [← chomp_execResult_ne_nil_iff out', or_iff_right hp, Ne, not_not, eq_comm]

/-- **How often a passfile is executed.** Once at most, and with one password for
all, exactly when there is one call only or the first execution printed
something. The password for opening the archive and the one for extracting
are the same also when neither execution did. -/
theorem asked_once_iff (this : PasswordFromFile) :
    (∀ outs, AskedOnce this outs ↔ outs.length ≤ 1 ∨ ∀ out ∈ outs.head?, Prints out) ∧
    ∀ out out', ∃ openPassword extractPassword n,
      (IPassword.fromFile this []).calls [.printing out, .printing out'] =
        .ok ([openPassword, extractPassword], n) ∧
      (openPassword = extractPassword ↔ Prints out ∨ ¬ Prints out') :=
  ⟨askedOnce_iff this, two_passwords this⟩

/-- A helper that prints nothing the first time is executed again. -/
theorem asked_twice : ¬ AskedOnce ⟨['a'], ['p']⟩ [[], ['x']] ∧
    (IPassword.ofFile ['p'] ['a']).calls [.printing [], .printing ['x']] = .ok ([[], ['x']], 2) := by
  refine ⟨fun ⟨passwords, n, hcalls, hn, _⟩ => ?_, rfl⟩
  cases hcalls
  omega

end Fuse3P7zip
