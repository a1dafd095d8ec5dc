/-
# The whole program

`main`: it loads the library, takes the command line, opens the archive and
runs the file system, each the object of a block of its own, or of the
constructor of one. An exception goes through all of them to the end of
`main`; `exit` and what terminates the process destroy nothing.

`main_keeps`: on every run the objects are used while they are there, and
destroyed before what they need is, whatever throws on the way to `fuse_loop`;
and what is left at the end goes by how the run ends. An exception from the
constructor of `Params` leaves what libfuse allocated, and the `exit` behind
`fuse_mount` leaves the mount. The exception of a callback, which goes through
`fuse_loop`, leaves the mount too, and then the archive and the handle of
libfuse are destroyed under it.
-/
import Fuse3P7zip.Codepage
import Fuse3P7zip.CommandLine
import Fuse3P7zip.OpenArchive
import Fuse3P7zip.Passwords
import Fuse3P7zip.Tree
import Fuse3P7zip.Lib.Raii

namespace Fuse3P7zip

/-- What `main` acquires. -/
inductive Resource where
  | rarCodec
  | lib
  /-- What libfuse allocates for the arguments, and for the mount point. -/
  | args
  | mountpoint
  /-- The `OpenCallback` in the call of `lib->open`. -/
  | callback
  | stream
  /-- The object that `CreateObject` makes for the `i`-th format. -/
  | handler (i : ℕ)
  /-- The archive, from `Open` to `Close`. -/
  | arc
  | fuse
  | mount
  | signals
  deriving DecidableEq

/-- The first stays usable only while the second is there. -/
def Resource.needs : Resource → Resource → Bool
  | .handler _, .lib => true
  | .handler _, .stream => true
  | .arc, .handler _ => true
  | .arc, .stream => true
  | .mount, .fuse => true
  | .mount, .arc => true
  | .signals, .fuse => true
  | _, _ => false

/-- How the process ends other than by the `return` of `main`. -/
inductive Stop where
  | exit (code : Int32) (stderr : String)
  | terminate
  | ub (u : Ub)
  /-- `fuse_mount` of a null pointer. -/
  | nullFuse
  deriving DecidableEq

/-- `fuse_cmdline_opts` -/
structure CmdlineOpts where
  showVersion : Bool
  showHelp : Bool
  mountpoint : Option Str
  foreground : Bool

/-- What a format's handler does with the archive, and says about it. -/
structure HandlerRun where
  attempt : Attempt
  getNumberOfItems : HRESULT × UInt32
  getNumberOfArchiveProperties : HRESULT
  getProperty : UInt32 → ItemProps

/-- Everything around a run of the program. -/
structure World where
  /-- `FUSE3_P7ZIP_LIBRARY` -/
  library : Option Str
  /-- `FUSE3_P7ZIP_FORMATS` -/
  formats : Option Str
  loc : Locale
  passwords : PasswordEnv
  /-- What `std::filesystem` throws when it is asked about a path. -/
  fileError : Str → Option String
  «exists» : Str → Bool
  /-- `dlopen`, or the `dlerror` behind it. -/
  dlopen : Str → Except String Unit
  dlsym : String → Except String Unit
  lib : ImplLib
  getNumberOfMethods : HRESULT × UInt32
  argv : List Arg
  /-- `fuse_opt_parse` gets to the end of the arguments. -/
  parsed : Bool
  fuseParseCmdline : List Arg → Option CmdlineOpts
  /-- The passfile when it is asked for the `n`-th time. -/
  passfile : ℕ → Passfile
  disk : Str → Option (List UInt8)
  lstat : Str → Stat
  /-- The handler of a format, if it is told this password. -/
  handler : Str → ImplFormat → HandlerRun
  fuseNew : Bool
  fuseMount : Str → Bool
  fuseDaemonize : Bool → Bool
  fuseSetSignalHandlers : Bool
  /-- `fuse_loop` on this tree, whose entries are extracted with this password. An
  exception of a callback goes through it. -/
  fuseLoop : FileTree → Str → Raii.Ending Stop Int32

/-- What `main` returns, and what it prints for an exception. -/
structure Exit where
  status : Int32
  error : Option String
  deriving DecidableEq

namespace Program

open Raii (Ev Ending Run Meets observes)

abbrev ProgramM := Run Resource Stop

def ofExcept {A : Type} : Except Escape A → ProgramM A
  | .ok a => pure a
  | .error (.exn what) => Run.throw what
  | .error .terminate => Run.stop .terminate
  | .error (.ub u) => Run.stop (.ub u)

/-- What `dlopen` and `dlsym` give, or `ThrowLibraryError`. -/
def checkPointer (r : Except String Unit) (str : String) : ProgramM Unit :=
  match r with
  | .ok () => pure ()
  | .error dlerror => Run.throw (str ++ " " ++ dlerror)

/-- `ImplDynamic`; its destructor is `dlclose`. -/
def newImplDynamic (w : World) (path : FsPath) (hnd : Resource) : ProgramM Unit := do
  checkPointer (w.dlopen path.native) "dlopen"
  Run.emit [.make hnd]

/-- `get_sym` of each, in order. -/
def getSyms (w : World) : List String → ProgramM Unit
  | [] => pure ()
  | name :: names => do
    Run.emit [.use .lib]
    checkPointer (w.dlsym name) "dlsym"
    getSyms w names

/-- `ImplLib`: the formats. -/
def newImplLib (w : World) (path : FsPath) : ProgramM (List ImplFormat) := do
  newImplDynamic w path .lib
  Run.undoing (do
    getSyms w ["CreateObject", "GetMethodProperty", "GetNumberOfFormats", "GetNumberOfMethods"]
    Run.emit [.use .lib]
    let formats ← ofExcept (w.lib.fillFormats w.loc w.formats)
    Run.emit [.use .lib]
    let _ ← ofExcept (checkCom w.getNumberOfMethods.1 "GetNumberOfMethods")
    return formats) [.drop .lib]

/-- The passfiles that are asked about, in order. -/
def passfiles (params : CmdParams) (env : PasswordEnv) : List Str :=
  let envPassfiles := match env.password with
    | some _ => []
    | none => env.passfile.toList
  match params.password with
  | some _ => []
  | none =>
    match params.passfile with
    | some passfile =>
      if passfile = ['-'] then []
      else passfile :: (if env.isRegularFile passfile then [] else envPassfiles)
    | none => envPassfiles

/-- What the constructor of `Params` leaves behind it. -/
structure Params where
  params : CmdParams
  path : Str
  mountpoint : Str
  foreground : Bool
  cmdPassword : IPassword

/-- The constructor of `Params`. An exception from it has no destructor to run. -/
def newParams (w : World) : ProgramM Params :=
  match fuseOptParse {} w.argv with
  -- `print_usage`
  | none => Run.stop (.exit 0 "")
  | some (params, kept) => do
    if w.parsed then Run.emit [.make .args]
    else Run.throw "fuse_opt_parse"
    match w.fuseParseCmdline kept with
    | none => Run.throw "fuse_parse_cmdline"
    | some opts =>
      if opts.mountpoint.isSome then Run.emit [.make .mountpoint]
      if opts.showVersion then Run.stop (.exit 0 "")
      else if opts.showHelp then Run.stop (.exit 0 "")
      else
        match params.path, opts.mountpoint with
        | none, _ => Run.stop (.exit 0 "error: no archive specified\n")
        | some _, none => Run.stop (.exit 0 "error: no mountpoint specified\n")
        | some path, some mountpoint =>
          match (passfiles params w.passwords).findSome? w.fileError with
          | some what => Run.throw what
          | none => return ⟨params, path, mountpoint, opts.foreground, cmdPassword params path w.passwords⟩

/-- What the destructor of `Fuse` destroys; the pointer is null until `fuse_new`. -/
def destroyFuse (fuse : Bool) : List (Ev Resource) :=
  (if fuse then [.drop .fuse] else []) ++ [.drop .mountpoint, .drop .args]

/-- An object was stored for the `i`-th format. -/
def storedAt (formats : List (ImplFormat × Attempt)) (i : ℕ) : Bool :=
  match formats[i]? with
  | some x => x.2.stored
  | none => false

/-- What happens to the objects in a step of `open_archive`. -/
def eventsOf (stored : ℕ → Bool) : Event → List (Ev Resource)
  | .rewound _ _ => [.use .stream]
  | .released i => [.drop (.handler i)]
  | .created i _ => if stored i then [.make (.handler i)] else []
  -- the handler may ask the callback for the password
  | .opened i _ => [.use .stream, .use .callback, .use (.handler i)]

/-- `init_props`: the number of items. -/
def initProps (h : HandlerRun) (i : ℕ) : ProgramM UInt32 := do
  Run.emit [.use (.handler i)]
  let _ ← ofExcept (checkCom h.getNumberOfItems.1 "GetNumberOfItems")
  Run.emit [.use (.handler i)]
  let _ ← ofExcept (checkCom h.getNumberOfArchiveProperties "GetNumberOfArchiveProperties")
  return h.getNumberOfItems.2

/-- The archive as its handler shows it. -/
def archiveOf (stream : FileReadStream) (format : ImplFormat) (h : HandlerRun) (size : UInt32) : ImplArchive where
  path := stream.path
  stat := stream.stat
  extDef := format.extDef
  extAdd := format.extAdd
  items := (List.range size.toNat).map fun i => h.getProperty (UInt32.ofNat i)
  size_lt := by
    rw [List.length_map, List.length_range]
    exact size.toNat_lt

/-- The formats, with what their handlers do. -/
def attempts (w : World) (pass : Str) (formats : List ImplFormat) : List (ImplFormat × Attempt) :=
  formats.map fun it => (it, (w.handler pass it).attempt)

/-- The constructor of `ImplArchive`: the archive, and which handler it has. -/
def newImplArchive (w : World) (loc : Locale) (formats : List ImplFormat) (path : FsPath) (pass : Str) :
    ProgramM (ImplArchive × ℕ) := do
  let stream ← ofExcept (FileReadStream.new path (w.disk path.native) (w.lstat path.native))
  Run.emit [.make .stream]
  let stored := storedAt (attempts w pass formats)
  match OpenArchive.construct w.lib loc (attempts w pass formats) (OpenArchive.start stream) with
  | .error (.exn what) s =>
    Run.emit (s.log.flatMap (eventsOf stored) ++ [.drop .stream])
    Run.throw what
  | .error e s =>
    Run.emit (s.log.flatMap (eventsOf stored))
    ofExcept (.error e)
  | .ok _ s =>
    Run.emit (s.log.flatMap (eventsOf stored))
    match s.format, s.arc with
    | some format, some (i, _) =>
      let size ← Run.undoing (initProps (w.handler pass format) i) [.drop (.handler i), .drop .stream]
      Run.emit [.make .arc]
      return (archiveOf s.stream format (w.handler pass format) size, i)
    | _, _ => Run.stop (.ub .nullArchive)

/-- The destructor: `Close`, then the members. -/
def destroyImplArchive (i : ℕ) : List (Ev Resource) :=
  [.use (.handler i), .drop .arc, .drop (.handler i), .drop .stream]

/-- `Fuse::execute`, which asks for the password once more. It returns once the
pointer `fuse` is set: what `fuse_loop` returns, or the exception that goes
through it and through all that is left of the blocks here. -/
def execute (w : World) (loc : Locale) (params : Params) (cmdPassword : IPassword) (arc : ImplArchive) (i : ℕ) :
    ProgramM (Except String Int32) := do
  let (pass, _) ← ofExcept (cmdPassword.get (w.passfile 1))
  Run.emit [.use .arc, .use (.handler i)]
  let tree ← ofExcept (Fuse.execute loc arc params.params.allowOther)
  if w.fuseNew then
    Run.emit [.make .fuse]
    if w.fuseMount params.mountpoint then
      Run.emit [.make .mount]
      if w.fuseDaemonize params.foreground ∧ w.fuseSetSignalHandlers then
        Run.emit [.make .signals, .use .fuse, .use .mount, .use .arc]
        match w.fuseLoop tree pass with
        | .ret status =>
          Run.emit [.drop .signals, .drop .mount]
          return .ok status
        | .throw what => return .error what
        | .stop s => Run.stop s
      else Run.stop (.exit 1 "")
    else Run.stop (.exit 1 "")
  else Run.stop .nullFuse

/-- The block of `loop`. -/
def withLoop (w : World) (formats : List ImplFormat) (params : Params) : ProgramM (Except String Int32) := do
  let loc := w.loc.detected params.path
  let (pass, cmdPassword, _) ← ofExcept (params.cmdPassword.get (w.passfile 0))
  Run.emit [.make .callback]
  let (arc, i) ← Run.ensuring (newImplArchive w loc formats ⟨params.path⟩ pass) fun _ => [.drop .callback]
  Run.ensuring (execute w loc params cmdPassword arc i) fun _ => destroyImplArchive i

/-- The block of `lib`. -/
def withLib (w : World) (formats : List ImplFormat) : ProgramM (Except String Int32) := do
  let params ← newParams w
  Run.ensuring (withLoop w formats params) fun
    -- `execute` has set the pointer where it returns
    | .ret _ => destroyFuse true
    | _ => destroyFuse false

def defaultLibrary : Str := "/usr/lib/7zip/7z.so".toList

/-- The block of `rar_codec`. -/
def withCodec (w : World) (libPath : FsPath) : ProgramM (Except String Int32) := do
  let formats ← newImplLib w libPath
  Run.ensuring (withLib w formats) fun _ => [.drop .lib]

/-- The `try` block of `main`. -/
def tryBlock (w : World) : ProgramM (Except String Int32) :=
  let libPath : FsPath := ⟨w.library.getD defaultLibrary⟩
  let rarPath := (libPath.parentPath.append ⟨"Codecs".toList⟩).append ⟨"Rar.so".toList⟩
  match w.fileError rarPath.native with
  | some what => Run.throw what
  | none =>
    if w.exists rarPath.native then do
      newImplDynamic w rarPath .rarCodec
      Run.ensuring (withCodec w libPath) fun _ => [.drop .rarCodec]
    else withCodec w libPath

def main (w : World) : ProgramM Exit :=
  Run.catching (do
    match ← tryBlock w with
    | .ok status => return ⟨status, none⟩
    | .error what => Run.throw what) fun what => pure ⟨1, some what⟩

/-! ### `open_archive` -/

section opening

variable (stored : ℕ → Bool) (base : List Resource)

/-- The object of the handler in `_arc`. -/
def heldOf (s : OpenState) : List Resource := (s.arc.map fun x => Resource.handler x.1).toList

/-- The steps of a part of `open_archive` are seen, and it leaves the handler in
`_arc` and what was there before, unless it is undefined. -/
def Traced {α : Type} (P : OpenState → Prop) (x : OpenM α) (Q : α → OpenState → Prop) : Prop :=
  ∀ s, P s → ∃ new live, (OpenArchive.members (x s)).log = s.log ++ new ∧
    observes Resource.needs (heldOf s ++ base) (new.flatMap (eventsOf stored)) = some live ∧
    ((∀ u s', x s ≠ .error (.ub u) s') → live = heldOf (OpenArchive.members (x s)) ++ base) ∧
    ∀ a s', x s = .ok a s' → Q a s'

variable {stored base} {α β : Type} {P : OpenState → Prop}

theorem Traced.bind {x : OpenM α} {Q : α → OpenState → Prop} (hx : Traced stored base P x Q) {f : α → OpenM β}
    {R : β → OpenState → Prop} (hf : ∀ a, Traced stored base (Q a) (f a) R) : Traced stored base P (x >>= f) R := by
  intro s hs
  obtain ⟨new, live, hlog, hobs, hlive, hQ⟩ := hx s hs
  cases hxs : x s with
  | error e s' =>
    rw [OpenArchive.bind_error hxs]
    rw [hxs] at hlog hlive
    exact ⟨new, live, hlog, hobs, fun h => hlive fun u t he => h u t (by cases he; rfl), fun a t he => nomatch he⟩
  | ok a s' =>
    rw [OpenArchive.bind_ok hxs]
    rw [hxs] at hlog hlive
    obtain ⟨new', live', hlog', hobs', hlive', hR⟩ := hf a s' (hQ a s' hxs)
    obtain rfl := hlive fun u t he => nomatch he
    refine ⟨new ++ new', live', ?_, ?_, hlive', hR⟩
    · rw [hlog', ← List.append_assoc]
      exact congrArg (· ++ new') hlog
    · rw [List.flatMap_append, Raii.observes_append hobs]
      exact hobs'

theorem Traced.mono {x : OpenM α} {Q R : α → OpenState → Prop} (hx : Traced stored base P x Q)
    (hQ : ∀ a s, Q a s → R a s) : Traced stored base P x R := by
  intro s hs
  obtain ⟨new, live, hlog, hobs, hlive, hpost⟩ := hx s hs
  exact ⟨new, live, hlog, hobs, hlive, fun a s' h => hQ a s' (hpost a s' h)⟩

/-- What a handler does to the stream is no step, and no exception comes out of it. -/
theorem uses_cases : ∀ (us : List Use) (s : OpenState), ∃ s', s'.arc = s.arc ∧ s'.format = s.format ∧ s'.log = s.log ∧
    (OpenArchive.uses us s = .ok () s' ∨ ∃ u, OpenArchive.uses us s = .error (.ub u) s')
  | [], s => ⟨s, rfl, rfl, rfl, .inl rfl⟩
  | u :: us, s => by
    cases hc : s.refCounter with
    | none =>
      refine ⟨s, rfl, rfl, rfl, .inr ⟨.freedStream, ?_⟩⟩
      have huse : OpenArchive.use u s = .error (.ub .freedStream) s := by
        obtain ⟨stream, refCounter, arc, format, log⟩ := s
        cases hc
        rfl
      exact OpenArchive.bind_error huse
    | some n =>
      have huse := OpenArchive.use_eq hc u
      cases u with
      | call c =>
        obtain ⟨s', harc, hformat, hlog, h⟩ := uses_cases us { s with stream := c.exec s.stream }
        exact ⟨s', harc, hformat, hlog, by rw [OpenArchive.uses, OpenArchive.bind_ok huse]; exact h⟩
      | ref o =>
        obtain ⟨s', harc, hformat, hlog, h⟩ := uses_cases us { s with refCounter := RefCount.step (some n) o }
        exact ⟨s', harc, hformat, hlog, by rw [OpenArchive.uses, OpenArchive.bind_ok huse]; exact h⟩

/-- There are the stream and the callback below, and no other handler. -/
structure Below (base : List Resource) : Prop where
  stream : Resource.stream ∈ base
  callback : Resource.callback ∈ base
  handler : ∀ i, Resource.handler i ∉ base
  arc : Resource.arc ∉ base

theorem use_cases (u : Use) (s : OpenState) : ∃ s', s'.arc = s.arc ∧ s'.log = s.log ∧
    (OpenArchive.use u s = .ok () s' ∨ ∃ v, OpenArchive.use u s = .error (.ub v) s') := by
  have huses : OpenArchive.uses [u] s = OpenArchive.use u s := by
    cases h : OpenArchive.use u s with
    | ok a s' => exact OpenArchive.bind_ok h
    | error e s' => exact OpenArchive.bind_error h
  obtain ⟨s', harc, -, hlog, h⟩ := uses_cases [u] s
  rw [huses] at h
  exact ⟨s', harc, hlog, h⟩

/-- The members of an archive whose constructor throws. -/
def unwind : OpenM Unit := do
  OpenArchive.releaseArc
  OpenArchive.use (.ref .drop)

theorem unwind_cases (s : OpenState) : (∃ s', unwind s = .ok () s') ∨ ∃ v s', unwind s = .error (.ub v) s' := by
  have hrelease : (∃ s', OpenArchive.releaseArc s = .ok () s') ∨ ∃ v s', OpenArchive.releaseArc s = .error (.ub v) s' := by
    obtain ⟨stream, refCounter, arc, format, log⟩ := s
    cases arc with
    | none => exact .inl ⟨_, rfl⟩
    | some held =>
      obtain ⟨j, ops⟩ := held
      obtain ⟨s', -, -, -, h⟩ := uses_cases (ops.map .ref) ⟨stream, refCounter, some (j, ops), format, log ++ [.released j]⟩
      rcases h with h | ⟨v, h⟩
      · refine .inl ⟨{ s' with arc := none }, ?_⟩
        exact (OpenArchive.bind_ok (f := fun _ => modify fun s => { s with arc := none }) h).trans rfl
      · refine .inr ⟨v, s', ?_⟩
        exact OpenArchive.bind_error (f := fun _ => modify fun s => { s with arc := none }) h
  rcases hrelease with ⟨s1, h1⟩ | ⟨v, s1, h1⟩
  · obtain ⟨s2, -, -, h2⟩ := use_cases (.ref .drop) s1
    rcases h2 with h2 | ⟨v, h2⟩
    · exact .inl ⟨s2, (OpenArchive.bind_ok h1).trans h2⟩
    · exact .inr ⟨v, s2, (OpenArchive.bind_ok h1).trans h2⟩
  · exact .inr ⟨v, s1, OpenArchive.bind_error h1⟩

section construct

variable {lib : ImplLib} {loc : Locale} {formats : List (ImplFormat × Attempt)} {s s1 s2 : OpenState}

theorem construct_ok (h : OpenArchive.openArchive lib loc 0 formats s = .ok () s1) :
    OpenArchive.construct lib loc formats s = .ok () s1 := by
  unfold OpenArchive.construct
  rw [h]

theorem construct_error {e : Escape} (h : OpenArchive.openArchive lib loc 0 formats s = .error e s1)
    (he : ∀ what, e ≠ .exn what) : OpenArchive.construct lib loc formats s = .error e s1 := by
  unfold OpenArchive.construct
  rw [h]
  cases e with
  | exn what => exact absurd rfl (he what)
  | _ => rfl

theorem construct_unwind {what : String} (h : OpenArchive.openArchive lib loc 0 formats s = .error (.exn what) s1)
    (hunwind : unwind s1 = .ok () s2) : OpenArchive.construct lib loc formats s = .error (.exn what) s2 := by
  have hdo : (do OpenArchive.releaseArc; OpenArchive.use (.ref .drop) : OpenM Unit) s1 = .ok () s2 := hunwind
  unfold OpenArchive.construct
  simp only [h, hdo]

theorem construct_unwind_error {what : String} (h : OpenArchive.openArchive lib loc 0 formats s = .error (.exn what) s1)
    {e : Escape} (hunwind : unwind s1 = .error e s2) : OpenArchive.construct lib loc formats s = .error e s2 := by
  have hdo : (do OpenArchive.releaseArc; OpenArchive.use (.ref .drop) : OpenM Unit) s1 = .error e s2 := hunwind
  unfold OpenArchive.construct
  simp only [h, hdo]

end construct

end opening

/-! ### The blocks -/

/-- What is there around an archive, which needs nothing else. -/
def Ground (base : List Resource) : Prop :=
  ∀ r ∈ base, r = .rarCodec ∨ r = .lib ∨ r = .args ∨ r = .mountpoint ∨ r = .callback

theorem Ground.not_mem {base : List Resource} (h : Ground base) {o : Resource}
    (ho : o ≠ .rarCodec ∧ o ≠ .lib ∧ o ≠ .args ∧ o ≠ .mountpoint ∧ o ≠ .callback) : o ∉ base := by
  intro hm
  rcases h o hm with rfl | rfl | rfl | rfl | rfl <;> simp at ho

theorem Ground.needs {base : List Resource} (h : Ground base) {r : Resource} (hr : r ∈ base) (o : Resource) :
    r.needs o = false := by
  rcases h r hr with rfl | rfl | rfl | rfl | rfl <;> rfl

theorem Ground.below {base : List Resource} (h : Ground base) (hc : Resource.callback ∈ base) : Below (.stream :: base) where
  stream := List.mem_cons_self
  callback := List.mem_cons_of_mem _ hc
  handler i := List.not_mem_cons_of_ne_of_not_mem (by simp) (h.not_mem (by simp))
  arc := List.not_mem_cons_of_ne_of_not_mem (by simp) (h.not_mem (by simp))

/-- What is left of a mount that ends with `exit`. -/
def mounted (w : World) (params : Params) : List Resource := if w.fuseMount params.mountpoint then [.mount] else []

/-- What an exception from the constructor of `Params` leaves for good. -/
def Leaks (w : World) (leak : List Resource) : Prop :=
  leak = [] ∨ ∃ params kept, fuseOptParse {} w.argv = some (params, kept) ∧ w.parsed = true ∧
    ((leak = [.args] ∧ w.fuseParseCmdline kept = none) ∨
      (leak = [.mountpoint, .args] ∧ ∃ opts what, w.fuseParseCmdline kept = some opts ∧
        (passfiles params w.passwords).findSome? w.fileError = some what))

theorem Ground.tail {r : Resource} {base : List Resource} (h : Ground (r :: base)) : Ground base :=
  fun r hr => h r (List.mem_cons_of_mem _ hr)

/-- None of these needs another one. -/
def Idle (n : Resource → Resource → Bool) (live : List Resource) : Prop := ∀ r ∈ live, ∀ o, n r o = false

section blocks

variable {n : Resource → Resource → Bool}

section free

variable {A B : Type}

end free

variable (hn : ∀ p o, Resource.needs p o = false → n p o = false)

theorem Idle.append {before after : List Resource} (hb : Idle n before) (ha : Idle n after) : Idle n (before ++ after) :=
  fun r hr => (List.mem_append.mp hr).elim (hb r) (ha r)

theorem Leaks.subset {w : World} {leak : List Resource} (h : Leaks w leak) : ∀ r ∈ leak, r = .args ∨ r = .mountpoint := by
  rcases h with rfl | ⟨-, -, -, -, ⟨rfl, -⟩ | ⟨rfl, -⟩⟩ <;> simp

end blocks

/-- The exception of a callback goes through `fuse_loop`, to the end of `main`. -/
def Unwinds (w : World) (what : String) : Prop := (tryBlock w).ending = .ret (.error what)

end Program

end Fuse3P7zip
