/-
# What `main` serves

`main` returns without an error exactly when `fuse_loop` returns, and all on
the way to it comes out: the libraries load, the command line names an archive and a mount
point, the archive's file can be opened, a handler takes it, all its items can
be read, and libfuse mounts it. `Serving` is that, and with it the archive
that is mounted: that of the first handler that takes it, in the order of the
formats, told the password that is asked for first.

`main_serves`: what `main` returns is then what `fuse_loop` does, or 1 for an
exception that goes through it, and the tree it is handed is a file system of
the archive's items, to read.
-/
import Fuse3P7zip.FileSystem
import Fuse3P7zip.Main

namespace Fuse3P7zip

namespace Fuse

/-- The items that can be read are those of the tree. -/
theorem executeFrom_of_forall₂ {loc : Locale} {arc : ImplArchive} {items : List ItemProps} {its : List Item}
    (h : List.Forall₂ (fun item it => decode loc arc item = .ok it) items its) : ∀ (i : ℕ) (tree : FileTree),
    executeFrom loc arc i items tree = .ok (addItems arc.stat arc.proposed i its tree) := by
  induction h with
  | nil => exact fun _ _ => rfl
  | cons hd _ ih =>
    intro i tree
    rw [executeFrom, hd]
    exact ih _ _

theorem execute_eq_ok_iff {loc : Locale} {arc : ImplArchive} {allowOther : Bool} {tree : FileTree} :
    execute loc arc allowOther = .ok tree ↔
      ∃ its, List.Forall₂ (fun item it => decode loc arc item = .ok it) arc.items its ∧
        tree = treeOf arc.stat allowOther arc.proposed its := by
  refine ⟨execute_ok, ?_⟩
  rintro ⟨its, hits, rfl⟩
  exact executeFrom_of_forall₂ hits _ _

end Fuse

namespace Program

open Raii (Run)
open OpenArchive (Ready Rejects Rules attempt attempt_cases bind_error bind_ok construct members openArchive ops
  openArchive_of_leaves ops_cons reached ready_start start)

/-! ### The library and the command line -/

theorem ofExcept_ending_eq_ret {A : Type} {x : Except Escape A} {a : A} :
    (ofExcept x).ending = .ret a ↔ x = .ok a := by
  cases x with
  | ok b => exact ⟨fun h => by cases h; rfl, fun h => by cases h; rfl⟩
  | error e => cases e <;> exact iff_of_false (fun h => by cases h) fun h => by cases h

theorem checkCom_eq_ok {hr a : HRESULT} {str : String} : checkCom hr str = .ok a ↔ ¬ failed hr ∧ a = hr := by
  by_cases h : failed hr
  · rw [checkCom_failed h]
    simp [h]
  · rw [checkCom_ok h]
    simp [h, eq_comm]

theorem checkPointer_ending_eq_ret {r : Except String Unit} {str : String} {u : Unit} :
    (checkPointer r str).ending = .ret u ↔ r = .ok () := by
  cases r with
  | ok u => exact iff_of_true rfl rfl
  | error e => exact iff_of_false (fun h => by cases h) fun h => by cases h

theorem newImplDynamic_ending_eq_ret {w : World} {path : FsPath} {hnd : Resource} {u : Unit} :
    (newImplDynamic w path hnd).ending = .ret u ↔ w.dlopen path.native = .ok () := by
  rw [newImplDynamic, Run.bind_ending_eq_ret]
  simp only [checkPointer_ending_eq_ret]
  exact ⟨fun h => h.elim fun _ h => h.1, fun h => ⟨(), h, rfl⟩⟩

theorem getSyms_ending_eq_ret {w : World} : ∀ {names : List String} {u : Unit},
    (getSyms w names).ending = .ret u ↔ ∀ name ∈ names, w.dlsym name = .ok ()
  | [], _ => iff_of_true rfl (List.forall_mem_nil _)
  | name :: names, u => by
    rw [getSyms, Run.emit_bind_ending, Run.bind_ending_eq_ret, List.forall_mem_cons]
    simp only [checkPointer_ending_eq_ret, getSyms_ending_eq_ret]
    exact ⟨fun ⟨_, h⟩ => h, fun h => ⟨(), h⟩⟩

/-- The library at a path loads, with its formats. -/
structure LoadsFrom (w : World) (path : FsPath) (formats : List ImplFormat) : Prop where
  dlopen : w.dlopen path.native = .ok ()
  dlsym : ∀ name ∈ ["CreateObject", "GetMethodProperty", "GetNumberOfFormats", "GetNumberOfMethods"],
    w.dlsym name = .ok ()
  formats : w.lib.fillFormats w.loc w.formats = .ok formats
  methods : ¬ failed w.getNumberOfMethods.1

theorem newImplLib_ending_eq_ret {w : World} {path : FsPath} {formats : List ImplFormat} :
    (newImplLib w path).ending = .ret formats ↔ LoadsFrom w path formats := by
  rw [newImplLib, Run.bind_ending_eq_ret]
  simp only [newImplDynamic_ending_eq_ret, Run.undoing_ending, Run.bind_ending_eq_ret, Run.emit_bind_ending,
    getSyms_ending_eq_ret, ofExcept_ending_eq_ret, checkCom_eq_ok]
  constructor
  · rintro ⟨_, hopen, _, hsyms, fs, hfs, _, ⟨hm, rfl⟩, h⟩
    cases h
    exact ⟨hopen, hsyms, hfs, hm⟩
  · rintro ⟨hopen, hsyms, hfs, hm⟩
    exact ⟨(), hopen, (), hsyms, formats, hfs, _, ⟨hm, rfl⟩, rfl⟩

/-- The command line names an archive and a mount point, and can be taken. -/
def Asks (w : World) (p : Params) : Prop :=
  ∃ kept, fuseOptParse {} w.argv = some (p.params, kept) ∧ w.parsed = true ∧
    w.fuseParseCmdline kept = some ⟨false, false, some p.mountpoint, p.foreground⟩ ∧
    p.params.path = some p.path ∧ (passfiles p.params w.passwords).findSome? w.fileError = none ∧
    p.cmdPassword = cmdPassword p.params p.path w.passwords

theorem asks_of_newParams {w : World} {p : Params} (h : (newParams w).ending = .ret p) : Asks w p := by
  unfold newParams at h
  cases hparse : fuseOptParse {} w.argv with
  | none =>
    rw [hparse] at h
    cases h
  | some r =>
    obtain ⟨params, kept⟩ := r
    simp only [hparse] at h
    split_ifs at h with hparsed
    · rw [Run.emit_bind_ending] at h
      cases hcmd : w.fuseParseCmdline kept with
      | none =>
        rw [hcmd] at h
        cases h
      | some opts =>
        obtain ⟨showVersion, showHelp, mountpoint, foreground⟩ := opts
        simp only [hcmd] at h
        cases mountpoint with
        | none => cases showVersion <;> cases showHelp <;> cases hpath : params.path <;> simp only [hpath] at h <;> cases h
        | some mountpoint =>
          rw [if_pos Option.isSome_some, Run.emit_bind_ending] at h
          split_ifs at h with hversion hhelp
          · cases h
          · cases h
          · cases hpath : params.path with
            | none =>
              simp only [hpath] at h
              cases h
            | some path =>
              cases herr : (passfiles params w.passwords).findSome? w.fileError with
              | some what =>
                simp only [hpath, herr] at h
                cases h
              | none =>
                simp only [hpath, herr] at h
                cases h
                refine ⟨kept, hparse, hparsed, ?_, hpath, herr, rfl⟩
                rw [hcmd, Bool.eq_false_iff.mpr hversion, Bool.eq_false_iff.mpr hhelp]
    · cases h

theorem newParams_ending_eq_ret {w : World} {p : Params} : (newParams w).ending = .ret p ↔ Asks w p := by
  refine ⟨asks_of_newParams, ?_⟩
  rintro ⟨kept, hparse, hparsed, hcmd, hpath, herr, hpass⟩
  obtain ⟨params, path, mountpoint, foreground, password⟩ := p
  simp only at hparse hcmd hpath herr hpass
  unfold newParams
  simp only [hparse, hparsed, if_true, hcmd, hpath, herr, hpass]
  rfl

/-! ### The stream stays that of the archive -/

/-- A part of `open_archive` leaves the path of the stream, and its stat. -/
def Still {α : Type} (x : OpenM α) : Prop :=
  ∀ s, (members (x s)).stream.path = s.stream.path ∧ (members (x s)).stream.stat = s.stream.stat

theorem Still.bind {α β : Type} {x : OpenM α} {f : α → OpenM β} (hx : Still x) (hf : ∀ a, Still (f a)) :
    Still (x >>= f) := by
  intro s
  have hs := hx s
  cases hxs : x s with
  | ok a s' =>
    rw [hxs] at hs
    rw [bind_ok hxs]
    exact ⟨(hf a s').1.trans hs.1, (hf a s').2.trans hs.2⟩
  | error e s' =>
    rw [hxs] at hs
    rw [bind_error hxs]
    exact hs

theorem still_pure {α : Type} (a : α) : Still (pure a) := fun _ => ⟨rfl, rfl⟩

theorem still_throw {α : Type} (e : Escape) : Still (throw e : OpenM α) := fun _ => ⟨rfl, rfl⟩

theorem still_check (hr : HRESULT) (str : String) : Still (OpenArchive.check hr str) := by
  unfold OpenArchive.check
  split
  · exact still_pure ()
  · exact still_throw _

theorem seek_still (this : FileReadStream) (offset : Int64) (seekOrigin : UInt32) (newPosition : Option UInt64)
    (o : Stdio.Outcome) : (this.seek offset seekOrigin newPosition o).2.2.path = this.path ∧
      (this.seek offset seekOrigin newPosition o).2.2.stat = this.stat := by
  unfold FileReadStream.seek
  dsimp only
  split <;> exact ⟨rfl, rfl⟩

theorem still_use (u : Use) : Still (OpenArchive.use u) := by
  intro s
  obtain ⟨stream, refCounter, arc, format, log⟩ := s
  cases refCounter with
  | none => exact ⟨rfl, rfl⟩
  | some n =>
    cases u with
    | ref o => exact ⟨rfl, rfl⟩
    | call c =>
      cases c with
      | read size processedSize o => exact ⟨rfl, rfl⟩
      | seek offset seekOrigin newPosition o => exact seek_still stream offset seekOrigin newPosition o

theorem still_uses : ∀ us : List Use, Still (OpenArchive.uses us)
  | [] => still_pure ()
  | u :: us => (still_use u).bind fun _ => still_uses us

theorem still_rewind (i : ℕ) (o : Stdio.Outcome) : Still (OpenArchive.rewind i o) := by
  intro s
  obtain ⟨stream, refCounter, arc, format, log⟩ := s
  cases refCounter with
  | none => exact ⟨rfl, rfl⟩
  | some n =>
    have hseek := seek_still stream 0 0 none o
    have hcheck := still_check (stream.seek 0 0 none o).1 "Seek"
      ⟨(stream.seek 0 0 none o).2.2, some n, arc, format, log ++ [.rewound i (stream.file.fseek 0 0 o).1]⟩
    exact ⟨hcheck.1.trans hseek.1, hcheck.2.trans hseek.2⟩

theorem still_releaseArc : Still OpenArchive.releaseArc := by
  intro s
  obtain ⟨stream, refCounter, arc, format, log⟩ := s
  cases arc with
  | none => exact ⟨rfl, rfl⟩
  | some held =>
    have hend : Still (OpenArchive.uses (held.2.map .ref) >>= fun _ => modify fun s => { s with arc := none } : OpenM Unit) :=
      (still_uses _).bind fun _ _ => ⟨rfl, rfl⟩
    exact hend ⟨stream, refCounter, some held, format, log ++ [.released held.1]⟩

theorem still_createObject (i : ℕ) (it : ImplFormat) (a : Attempt) : Still (OpenArchive.createObject i it a) :=
  still_releaseArc.bind fun _ => Still.bind (fun _ => ⟨rfl, rfl⟩) fun _ => still_check _ _

theorem still_callOpen (i : ℕ) (a : Attempt) : Still (OpenArchive.callOpen i a) := by
  intro s
  obtain ⟨stream, refCounter, arc, format, log⟩ := s
  cases arc with
  | none => exact ⟨rfl, rfl⟩
  | some held =>
    have huses : Still (OpenArchive.uses a.uses >>= fun _ => pure a.opened : OpenM HRESULT) :=
      (still_uses _).bind fun _ => still_pure _
    exact huses ⟨stream, refCounter, some held, format, log ++ [.opened i stream.file.ftell]⟩

theorem still_select (lib : ImplLib) (loc : Locale) (it : ImplFormat) : Still (OpenArchive.select lib loc it) := by
  intro s
  rw [OpenArchive.select_eq, OpenArchive.members_leaves]
  exact ⟨rfl, rfl⟩

theorem still_attempt (lib : ImplLib) (loc : Locale) (i : ℕ) (it : ImplFormat) (a : Attempt) :
    Still (attempt lib loc i it a) := by
  refine (still_rewind i a.rewind).bind fun _ => (still_createObject i it a).bind fun _ =>
    (still_callOpen i a).bind fun res => ?_
  split_ifs
  · exact still_select lib loc it
  · exact still_pure false

theorem still_openArchive (lib : ImplLib) (loc : Locale) : ∀ (formats : List (ImplFormat × Attempt)) (i : ℕ),
    Still (openArchive lib loc i formats)
  | [], _ => still_throw _
  | (it, a) :: formats, i => (still_attempt lib loc i it a).bind fun found => by
    cases found with
    | true => exact still_pure ()
    | false => exact still_openArchive lib loc formats (i + 1)

/-! ### The handler that takes the archive -/

/-- The object is there, and its handler takes the archive. -/
def Accepts (a : Attempt) : Prop := ¬ failed a.createObject ∧ a.stored = true ∧ a.opened = sOk

/-- The handler of the `k`-th format takes the archive, and the ones before reject it. -/
inductive Finds : List (ImplFormat × Attempt) → ℕ → ImplFormat → Prop
  | here {f : ImplFormat} {a : Attempt} {formats : List (ImplFormat × Attempt)} : Accepts a → Finds ((f, a) :: formats) 0 f
  | later {it f : ImplFormat} {a : Attempt} {formats : List (ImplFormat × Attempt)} {k : ℕ} : Rejects a →
      Finds formats k f → Finds ((it, a) :: formats) (k + 1) f

theorem leaves_eq_ok {α β : Type} {r : Except Escape α} {b : β} {s s' : OpenState} :
    OpenArchive.leaves r b s = .ok b s' ↔ (∃ a, r = .ok a) ∧ s = s' := by
  unfold OpenArchive.leaves
  cases r <;> simp

theorem held_eq_singleton {s : OpenState} {i : ℕ} : s.held = [i] ↔ ∃ ops, s.arc = some (i, ops) := by
  rw [OpenState.held]
  cases s.arc with
  | none => simp
  | some x => simp [Prod.ext_iff]

/-- The loop is through when a handler takes the archive. -/
theorem openArchive_eq_ok_iff (lib : ImplLib) (loc : Locale) (f : ImplFormat) (j : ℕ) :
    ∀ {formats : List (ImplFormat × Attempt)} {i : ℕ} {done : List RefCount.Op} {s : OpenState}, Ready done s →
    Rules (done ++ (s.pending ++ ops (reached formats))) →
    ((∃ s', openArchive lib loc i formats s = .ok () s' ∧ s'.format = some f ∧ s'.held = [j]) ↔
      ∃ k, Finds formats k f ∧ j = i + k ∧ ∃ name, f.name lib loc = .ok name)
  | [], i, done, s, _, _ => by
    refine iff_of_false ?_ ?_
    · rintro ⟨s', hs', -⟩
      cases hs'
    · rintro ⟨k, hk, -⟩
      cases hk
  | (it, a) :: formats, i, done, s, h, hr => by
    rw [reached, ops_cons, ← List.append_assoc s.pending, ← List.append_assoc done] at hr
    rcases attempt_cases h lib loc i it a (hr.mono (List.prefix_append _ _)) with ⟨hfail, s1, htry, -⟩ |
      ⟨hcreate, hstored, s1, htry, -⟩ | ⟨hcreate, hstored, s1, offset, htry, hready, harc, hformat, -, -⟩
    -- `CreateObject` fails
    · refine iff_of_false ?_ ?_
      · rintro ⟨s', hs', -⟩
        cases hs'.symm.trans (bind_error htry)
      · rintro ⟨k, hk, -⟩
        cases hk with
        | here hacc => exact hacc.1 hfail
        | later hrej => exact hrej.1 hfail
    -- there is no object
    · have hno : a.stored ≠ true := by simp [hstored]
      refine iff_of_false ?_ ?_
      · rintro ⟨s', hs', -⟩
        cases hs'.symm.trans (bind_error htry)
      · rintro ⟨k, hk, -⟩
        cases hk with
        | here hacc => exact hno hacc.2.1
        | later hrej => exact hno hrej.2.1
    · have hheld : s1.held = [i] := held_eq_singleton.mpr ⟨_, harc⟩
      by_cases hacc : a.opened = sOk
      · rw [if_pos hacc] at htry hformat
        simp only [openArchive_of_leaves htry, leaves_eq_ok]
        constructor
        · rintro ⟨s', ⟨hname, rfl⟩, hf, hj⟩
          cases hformat.symm.trans hf
          cases hheld.symm.trans hj
          exact ⟨0, .here ⟨hcreate, hstored, hacc⟩, rfl, hname⟩
        · rintro ⟨k, hk, rfl, hname⟩
          cases hk with
          | here => exact ⟨s1, ⟨hname, rfl⟩, hformat, hheld⟩
          | later hrej => exact absurd hacc hrej.2.2
      · have hrej : Rejects a := ⟨hcreate, hstored, hacc⟩
        have hpend : s1.pending = a.released := by simp [OpenState.pending, harc]
        rw [if_neg hacc] at htry
        rw [if_pos hrej, ← hpend] at hr
        have hnext : openArchive lib loc i ((it, a) :: formats) s = openArchive lib loc (i + 1) formats s1 := bind_ok htry
        rw [hnext, openArchive_eq_ok_iff lib loc f j hready hr]
        constructor
        · rintro ⟨k, hk, rfl, hname⟩
          exact ⟨k + 1, .later hrej hk, by omega, hname⟩
        · rintro ⟨k, hk, rfl, hname⟩
          cases hk with
          | here hacc' => exact absurd hacc'.2.2 hacc
          | later _ hk => exact ⟨_, hk, by omega, hname⟩

theorem construct_eq_ok {lib : ImplLib} {loc : Locale} {formats : List (ImplFormat × Attempt)} {s s' : OpenState} :
    construct lib loc formats s = .ok () s' ↔ openArchive lib loc 0 formats s = .ok () s' := by
  refine ⟨fun h => ?_, construct_ok⟩
  cases hopen : openArchive lib loc 0 formats s with
  | ok u s1 => exact (construct_ok hopen).symm.trans h
  | error e s1 =>
    cases e with
    | exn what =>
      rcases unwind_cases s1 with ⟨s2, h2⟩ | ⟨v, s2, h2⟩
      · cases (construct_unwind hopen h2).symm.trans h
      · cases (construct_unwind_error hopen h2).symm.trans h
    | terminate => cases (construct_error hopen fun _ he => by cases he).symm.trans h
    | ub u => cases (construct_error hopen fun _ he => by cases he).symm.trans h

/-! ### The archive -/

/-- The archive as the handler of a format shows it. -/
def shownBy (w : World) (pass path : Str) (bytes : List UInt8) (f : ImplFormat) : ImplArchive :=
  archiveOf ⟨⟨path⟩, w.lstat path, .opened bytes⟩ f (w.handler pass f) (w.handler pass f).getNumberOfItems.2

theorem archiveOf_congr {stream stream' : FileReadStream} (hpath : stream.path = stream'.path)
    (hstat : stream.stat = stream'.stat) (f : ImplFormat) (h : HandlerRun) (size : UInt32) :
    archiveOf stream f h size = archiveOf stream' f h size := by
  simp only [archiveOf, hpath, hstat]

theorem initProps_ending_eq_ret {h : HandlerRun} {i : ℕ} {size : UInt32} : (initProps h i).ending = .ret size ↔
    ¬ failed h.getNumberOfItems.1 ∧ ¬ failed h.getNumberOfArchiveProperties ∧ size = h.getNumberOfItems.2 := by
  simp only [initProps, Run.emit_bind_ending, Run.bind_ending_eq_ret, ofExcept_ending_eq_ret, checkCom_eq_ok]
  constructor
  · rintro ⟨_, ⟨hitems, -⟩, _, ⟨hprops, -⟩, h⟩
    cases h
    exact ⟨hitems, hprops, rfl⟩
  · rintro ⟨hitems, hprops, rfl⟩
    exact ⟨_, ⟨hitems, rfl⟩, _, ⟨hprops, rfl⟩, rfl⟩

theorem newStream_eq_ok {path : FsPath} {disk : Option (List UInt8)} {stat : Stat} {stream : FileReadStream} :
    FileReadStream.new path disk stat = .ok stream ↔ ∃ bytes, disk = some bytes ∧ stream = ⟨path, stat, .opened bytes⟩ := by
  cases disk with
  | none => exact iff_of_false (fun h => by cases h) fun ⟨_, h, _⟩ => by cases h
  | some bytes => exact ⟨fun h => by cases h; exact ⟨bytes, rfl, rfl⟩, fun ⟨_, h, hs⟩ => by cases h; cases hs; rfl⟩

/-- The archive is open: with the handler of the format that is found. -/
structure Opens (w : World) (loc : Locale) (formats : List ImplFormat) (path pass : Str) (bytes : List UInt8) (i : ℕ)
    (f : ImplFormat) : Prop where
  disk : w.disk path = some bytes
  finds : Finds (attempts w pass formats) i f
  name : ∃ name, f.name w.lib loc = .ok name
  items : ¬ failed (w.handler pass f).getNumberOfItems.1
  properties : ¬ failed (w.handler pass f).getNumberOfArchiveProperties

theorem newImplArchive_ending_eq_ret {w : World} {loc : Locale} {formats : List ImplFormat} {path pass : Str}
    (hrules : Rules (ops (reached (attempts w pass formats)))) {arc : ImplArchive} {i : ℕ} :
    (newImplArchive w loc formats ⟨path⟩ pass).ending = .ret (arc, i) ↔
      ∃ bytes f, Opens w loc formats path pass bytes i f ∧ arc = shownBy w pass path bytes f := by
  have hfind := fun stream f => openArchive_eq_ok_iff w.lib loc f i (i := 0) (ready_start stream) hrules
  simp only [Nat.zero_add] at hfind
  simp only [newImplArchive, Run.bind_ending_eq_ret, Run.emit_bind_ending, ofExcept_ending_eq_ret, newStream_eq_ok]
  constructor
  · rintro ⟨_, ⟨bytes, hdisk, rfl⟩, h⟩
    have hstill := still_openArchive w.lib loc (attempts w pass formats) 0 (start ⟨⟨path⟩, w.lstat path, .opened bytes⟩)
    cases hcon : construct w.lib loc (attempts w pass formats) (start ⟨⟨path⟩, w.lstat path, .opened bytes⟩) with
    | error e s =>
      rw [hcon] at h
      cases e <;> cases h
    | ok u s =>
      have hopen := construct_eq_ok.mp hcon
      rw [hopen] at hstill
      simp only [hcon, Run.emit_bind_ending] at h
      cases hformat : s.format with
      | none =>
        simp only [hformat] at h
        cases h
      | some f =>
        cases harc : s.arc with
        | none =>
          simp only [hformat, harc] at h
          cases h
        | some held =>
          obtain ⟨j, refs⟩ := held
          simp only [hformat, harc, Run.bind_ending_eq_ret, Run.undoing_ending, initProps_ending_eq_ret,
            Run.emit_bind_ending] at h
          obtain ⟨_, ⟨hitems, hprops, rfl⟩, h⟩ := h
          cases h
          obtain ⟨k, hk, rfl, hname⟩ := (hfind _ f).mp ⟨s, hopen, hformat, held_eq_singleton.mpr ⟨refs, harc⟩⟩
          exact ⟨bytes, f, ⟨hdisk, hk, hname, hitems, hprops⟩, archiveOf_congr hstill.1 hstill.2 _ _ _⟩
  · rintro ⟨bytes, f, h, rfl⟩
    have hstill := still_openArchive w.lib loc (attempts w pass formats) 0 (start ⟨⟨path⟩, w.lstat path, .opened bytes⟩)
    obtain ⟨s, hopen, hformat, hheld⟩ := (hfind ⟨⟨path⟩, w.lstat path, .opened bytes⟩ f).mpr ⟨i, h.finds, rfl, h.name⟩
    obtain ⟨refs, harc⟩ := held_eq_singleton.mp hheld
    rw [hopen] at hstill
    have hshown : archiveOf s.stream f (w.handler pass f) (w.handler pass f).getNumberOfItems.2 =
        shownBy w pass path bytes f := archiveOf_congr hstill.1 hstill.2 _ _ _
    refine ⟨_, ⟨bytes, h.disk, rfl⟩, ?_⟩
    simp only [construct_eq_ok.mpr hopen, Run.emit_bind_ending, hformat, harc, Run.bind_ending_eq_ret, Run.undoing_ending,
      initProps_ending_eq_ret]
    refine ⟨_, ⟨h.items, h.properties, rfl⟩, ?_⟩
    rw [hshown]
    rfl

/-! ### The mount -/

/-- How `fuse_loop` ends when `execute` has a result of it. -/
def loopEnding : Except String Int32 → Raii.Ending Stop Int32
  | .ok status => .ret status
  | .error what => .throw what

theorem execute_ending_eq_ret {w : World} {loc : Locale} {params : Params} {password : IPassword} {arc : ImplArchive}
    {i : ℕ} {r : Except String Int32} : (execute w loc params password arc i).ending = .ret r ↔
      ∃ pass next its, password.get (w.passfile 1) = .ok (pass, next) ∧
        List.Forall₂ (fun item it => Fuse.decode loc arc item = .ok it) arc.items its ∧
        (w.fuseNew = true ∧ w.fuseMount params.mountpoint = true ∧ w.fuseDaemonize params.foreground = true ∧
          w.fuseSetSignalHandlers = true) ∧
        w.fuseLoop (Fuse.treeOf arc.stat params.params.allowOther arc.proposed its) pass = loopEnding r := by
  simp only [execute, Run.bind_ending_eq_ret, Run.emit_bind_ending, ofExcept_ending_eq_ret, Fuse.execute_eq_ok_iff]
  constructor
  · rintro ⟨⟨pass, next⟩, hpass, _, ⟨its, hits, rfl⟩, h⟩
    split_ifs at h with hnew hmount hrest
    · refine ⟨pass, next, its, hpass, hits, ⟨hnew, hmount, hrest⟩, ?_⟩
      simp only [Run.emit_bind_ending] at h
      cases hloop : w.fuseLoop (Fuse.treeOf arc.stat params.params.allowOther arc.proposed its) pass with
      | ret status =>
        rw [hloop] at h
        cases h
        rfl
      | throw what =>
        rw [hloop] at h
        cases h
        rfl
      | stop s =>
        rw [hloop] at h
        cases h
    · cases h
    · cases h
    · cases h
  · rintro ⟨pass, next, its, hpass, hits, ⟨hnew, hmount, hrest⟩, hloop⟩
    refine ⟨(pass, next), hpass, _, ⟨its, hits, rfl⟩, ?_⟩
    rw [if_pos hnew, if_pos hmount, if_pos hrest]
    simp only [Run.emit_bind_ending, hloop]
    cases r <;> rfl

/-- The two calls of `Fuse::password`. -/
theorem calls_two {this : IPassword} {file file' : Passfile} {pass pass' : Str} :
    (∃ n, this.calls [file, file'] = .ok ([pass, pass'], n)) ↔
      ∃ next n r, this.get file = .ok (pass, next, n) ∧ next.get file' = .ok (pass', r) := by
  constructor
  · rintro ⟨n, h⟩
    obtain ⟨⟨p, next, k⟩, hget, h⟩ := bind_eq_ok.mp h
    obtain ⟨⟨ps, m⟩, hrest, h⟩ := bind_eq_ok.mp h
    obtain ⟨⟨p', r⟩, hget', hrest⟩ := bind_eq_ok.mp hrest
    cases hrest
    cases h
    exact ⟨next, k, r, hget, hget'⟩
  · rintro ⟨next, n, ⟨last, m⟩, hget, hget'⟩
    exact ⟨n + (m + 0), calls_cons hget (calls_cons hget' rfl)⟩

def libPath (w : World) : FsPath := ⟨w.library.getD defaultLibrary⟩

def rarPath (w : World) : FsPath := ((libPath w).parentPath.append ⟨"Codecs".toList⟩).append ⟨"Rar.so".toList⟩

/-- The libraries load: that of the formats, and that of the Rar codec where there is one. -/
structure Loads (w : World) (formats : List ImplFormat) : Prop extends LoadsFrom w (libPath w) formats where
  asked : w.fileError (rarPath w).native = none
  codec : w.exists (rarPath w).native = true → w.dlopen (rarPath w).native = .ok ()

/-- The handlers of the library's formats keep to the rules of references, whatever
password they are told. -/
def KeepsRules (w : World) : Prop := ∀ pass formats, w.lib.fillFormats w.loc w.formats = .ok formats →
  Rules (ops (reached (attempts w pass formats)))

/-- What `main` mounts, and that it does. -/
structure Serving (w : World) where
  formats : List ImplFormat
  params : Params
  /-- The passwords that the handlers and the extraction are told. -/
  openPassword : Str
  extractPassword : Str
  bytes : List UInt8
  index : ℕ
  format : ImplFormat
  its : List Item
  loads : Loads w formats
  asks : Asks w params
  passwords : ∃ n, params.cmdPassword.calls [w.passfile 0, w.passfile 1] = .ok ([openPassword, extractPassword], n)
  opens : Opens w (w.loc.detected params.path) formats params.path openPassword bytes index format
  reads : List.Forall₂ (fun item it => Fuse.decode (w.loc.detected params.path)
    (shownBy w openPassword params.path bytes format) item = .ok it)
    (shownBy w openPassword params.path bytes format).items its
  mounts : w.fuseNew = true ∧ w.fuseMount params.mountpoint = true ∧ w.fuseDaemonize params.foreground = true ∧
    w.fuseSetSignalHandlers = true

namespace Serving

variable {w : World} (s : Serving w)

def arc : ImplArchive := shownBy w s.openPassword s.params.path s.bytes s.format

def tree : FileTree := Fuse.treeOf s.arc.stat s.params.params.allowOther s.arc.proposed s.its

end Serving

theorem withLoop_ending_eq_ret {w : World} (hrules : KeepsRules w) {formats : List ImplFormat} {params : Params}
    {r : Except String Int32} (hloads : Loads w formats) (hasks : Asks w params) :
    (withLoop w formats params).ending = .ret r ↔
      ∃ s : Serving w, s.formats = formats ∧ s.params = params ∧ w.fuseLoop s.tree s.extractPassword = loopEnding r := by
  have hkept := fun pass => hrules pass formats hloads.formats
  simp only [withLoop, Run.bind_ending_eq_ret, Run.emit_bind_ending, Run.ensuring_ending, ofExcept_ending_eq_ret]
  constructor
  · rintro ⟨⟨pass, next, n⟩, hget, ⟨arc, i⟩, harc, h⟩
    obtain ⟨bytes, f, hopens, rfl⟩ := (newImplArchive_ending_eq_ret (hkept pass)).mp harc
    obtain ⟨pass', last, its, hget', hits, hmounts, hloop⟩ := execute_ending_eq_ret.mp h
    exact ⟨⟨formats, params, pass, pass', bytes, i, f, its, hloads, hasks, calls_two.mpr ⟨next, n, last, hget, hget'⟩,
      hopens, hits, hmounts⟩, rfl, rfl, hloop⟩
  · rintro ⟨s, rfl, rfl, hloop⟩
    obtain ⟨next, n, last, hget, hget'⟩ := calls_two.mp s.passwords
    exact ⟨⟨s.openPassword, next, n⟩, hget, ⟨s.arc, s.index⟩,
      (newImplArchive_ending_eq_ret (hkept s.openPassword)).mpr ⟨s.bytes, s.format, s.opens, rfl⟩,
      execute_ending_eq_ret.mpr ⟨s.extractPassword, last, s.its, hget', s.reads, s.mounts, hloop⟩⟩

theorem withCodec_ending_eq_ret {w : World} (hrules : KeepsRules w) {r : Except String Int32}
    (hasked : w.fileError (rarPath w).native = none)
    (hcodec : w.exists (rarPath w).native = true → w.dlopen (rarPath w).native = .ok ()) :
    (withCodec w (libPath w)).ending = .ret r ↔
      ∃ s : Serving w, w.fuseLoop s.tree s.extractPassword = loopEnding r := by
  simp only [withCodec, withLib, Run.bind_ending_eq_ret, Run.ensuring_ending, newImplLib_ending_eq_ret,
    newParams_ending_eq_ret]
  constructor
  · rintro ⟨formats, hloads, params, hasks, h⟩
    obtain ⟨s, -, -, hloop⟩ := (withLoop_ending_eq_ret hrules ⟨hloads, hasked, hcodec⟩ hasks).mp h
    exact ⟨s, hloop⟩
  · rintro ⟨s, hloop⟩
    exact ⟨s.formats, s.loads.toLoadsFrom, s.params, s.asks,
      (withLoop_ending_eq_ret hrules s.loads s.asks).mpr ⟨s, rfl, rfl, hloop⟩⟩

theorem tryBlock_ending_eq_ret {w : World} (hrules : KeepsRules w) {r : Except String Int32} :
    (tryBlock w).ending = .ret r ↔ ∃ s : Serving w, w.fuseLoop s.tree s.extractPassword = loopEnding r := by
  unfold tryBlock
  dsimp only
  split
  · rename_i what hwhat
    refine iff_of_false (fun h => by cases h) ?_
    rintro ⟨s, -⟩
    exact absurd (hwhat.symm.trans s.loads.asked) (Option.some_ne_none what)
  · rename_i hasked
    split_ifs with hexists
    · simp only [Run.bind_ending_eq_ret, Run.ensuring_ending, newImplDynamic_ending_eq_ret]
      constructor
      · rintro ⟨_, hcodec, h⟩
        exact (withCodec_ending_eq_ret hrules hasked fun _ => hcodec).mp h
      · rintro ⟨s, hloop⟩
        exact ⟨(), s.loads.codec hexists, (withCodec_ending_eq_ret hrules hasked s.loads.codec).mpr ⟨s, hloop⟩⟩
    · exact withCodec_ending_eq_ret hrules hasked fun h => absurd h hexists

theorem main_ending_of_ret {w : World} {status : Int32} (h : (tryBlock w).ending = .ret (.ok status)) :
    (main w).ending = .ret ⟨status, none⟩ :=
  Run.catching_ending_eq_ret.mpr (.inl (Run.bind_ending_eq_ret.mpr ⟨.ok status, h, rfl⟩))

theorem main_ending_of_unwinds {w : World} {what : String} (h : Unwinds w what) :
    (main w).ending = .ret ⟨1, some what⟩ := by
  refine Run.catching_ending_eq_ret.mpr (.inr ⟨what, ?_, rfl⟩)
  exact (Run.bind_ending_of_ret h).trans rfl

/-- **What `main` serves.** It returns without an error exactly with what
`fuse_loop` returns on a `Serving`, and with the error of an exception that goes
through `fuse_loop` there. Whatever requests the kernel makes of its tree, the
responses are those of a file system of the archive's items. -/
theorem main_serves (w : World) (hrules : KeepsRules w) :
    (∀ status, (main w).ending = .ret ⟨status, none⟩ ↔
      ∃ s : Serving w, w.fuseLoop s.tree s.extractPassword = .ret status) ∧
    (∀ (s : Serving w) what, w.fuseLoop s.tree s.extractPassword = .throw what →
      (main w).ending = .ret ⟨1, some what⟩) ∧
    ∀ (s : Serving w) (env : Env), Fuse.LibcReads env → (∀ clock index, Extractor.Uncut env clock index) → ∀ hist m,
      ReadOnlyFs.Runs (Fuse.answer env) Fuse.Allowed (.fresh s.tree) hist m →
      ∃ v, (Fuse.fileSystem env s.arc.stat s.params.params.allowOther s.arc.proposed s.its).Trace hist v := by
  refine ⟨fun status => ⟨fun h => ?_, fun h => ?_⟩, fun s what hloop => ?_, fun s env libc hcut hist m hruns => ?_⟩
  · rw [main, Run.catching_ending_eq_ret, Run.bind_ending_eq_ret] at h
    rcases h with ⟨r, hblock, hret⟩ | ⟨what, -, hret⟩
    · cases r with
      | ok status' =>
        cases hret
        exact (tryBlock_ending_eq_ret hrules).mp hblock
      | error what => cases hret
    · cases hret
  · exact main_ending_of_ret ((tryBlock_ending_eq_ret hrules).mpr h)
  · exact main_ending_of_unwinds ((tryBlock_ending_eq_ret hrules).mpr ⟨s, hloop⟩)
  · have spec := Fuse.treeSpec_treeOf s.arc.stat s.arc.proposed s.params.params.allowOther s.its
    obtain ⟨v, htrace, -⟩ := (Fuse.simulates_answer spec libc hcut).traces hruns
    exact ⟨v, htrace⟩

/-- Two formats, and an archive with the file `a` that the second one's handler takes. -/
def twoFormats : World where
  library := none
  formats := none
  loc := .ascii
  passwords := ⟨[], fun _ => false, id, none, none⟩
  fileError _ := none
  «exists» _ := false
  dlopen _ := .ok ()
  dlsym _ := .ok ()
  lib := OpenArchive.nameless
  getNumberOfMethods := (sOk, 0)
  argv := [.nonopt ['/', 'x'], .nonopt ['/', 'm']]
  parsed := true
  fuseParseCmdline _ := some ⟨false, false, some ['/', 'm'], false⟩
  passfile _ := ⟨false, fun _ => none, []⟩
  disk _ := some [1, 2]
  lstat _ := zeroStat
  handler _ f := {
    attempt := ⟨{}, sOk, true, [], if f.idx = 1 then sOk else sFalse, []⟩
    getNumberOfItems := (sOk, 1)
    getNumberOfArchiveProperties := sOk
    getProperty := fun _ => .file [97] (sOk, .ui8 3) }
  fuseNew := true
  fuseMount _ := true
  fuseDaemonize _ := true
  fuseSetSignalHandlers := true
  fuseLoop tree _ := .ret (if tree.contains ⟨['/', 'a']⟩ then 0 else 1)

theorem ops_twoFormats (pass : Str) : ∀ formats : List ImplFormat, ops (reached (attempts twoFormats pass formats)) = []
  | [] => rfl
  | f :: formats => by
    show ops (reached ((f, _) :: attempts twoFormats pass formats)) = []
    rw [reached, ops_cons]
    split_ifs
    · exact ops_twoFormats pass formats
    · rfl

theorem keepsRules_twoFormats : KeepsRules twoFormats := by
  intro pass formats _ p hp
  rw [ops_twoFormats, List.prefix_nil] at hp
  subst hp
  exact ⟨by decide, by decide⟩

/-- It is served, with the file at its place. -/
theorem main_serves_twoFormats : (main twoFormats).ending = .ret ⟨0, none⟩ := by
  have hloads : Loads twoFormats [⟨0, [[]], [[]]⟩, ⟨1, [[]], [[]]⟩] :=
    ⟨⟨rfl, fun _ _ => rfl, rfl, by decide⟩, rfl, fun _ => rfl⟩
  have hopens : Opens twoFormats .ascii [⟨0, [[]], [[]]⟩, ⟨1, [[]], [[]]⟩] ['/', 'x'] [] [1, 2] 1 ⟨1, [[]], [[]]⟩ :=
    ⟨rfl, .later (by decide) (.here (by unfold Accepts; decide)), ⟨[], rfl⟩, by decide, by decide⟩
  refine ((main_serves twoFormats keepsRules_twoFormats).1 0).mpr ⟨⟨_, ⟨⟨none, none, [['/', 'x'], ['/', 'm']], false⟩, ['/', 'x'],
    ['/', 'm'], false, .fromString []⟩, [], [], [1, 2], 1, ⟨1, [[]], [[]]⟩, [.file ['a'] 3], hloads, ?_, ⟨0, rfl⟩, hopens, ?_,
    ⟨rfl, rfl, rfl, rfl⟩⟩, ?_⟩
  · exact ⟨_, rfl, rfl, rfl, rfl, rfl, rfl⟩
  · exact .cons rfl .nil
  · rfl

end Program

end Fuse3P7zip
