/-
# Opening an archive

`open_archive` asks one format's handler after the other. Before each it
rewinds the stream they share, and lets go of the object of the one before:
`operator&` of the smart pointer releases what it holds. `opens_in_order` is
what that comes to when the seeks and `CreateObject` succeed.

`CheckCom` takes codes below 0 for failures. The program's own code for one
is 1: `failures_seen_iff` is where it is seen nevertheless.
-/
import Fuse3P7zip.Format
import Fuse3P7zip.Iteration
import Fuse3P7zip.ReadStream
import Fuse3P7zip.Lib.RefCount

namespace Fuse3P7zip

open Stdio (Outcome)

/-- What a handler does to the stream: it calls it, or takes or drops a
reference to it. -/
inductive Use where
  | call (c : FileReadStream.Call)
  | ref (o : RefCount.Op)

/-- What happens when a format is tried: in the rewinding `fseek`, in
`CreateObject`, which may store an object, in the handler's `Open`, and to
the references to the stream when the object is released. -/
structure Attempt where
  rewind : Outcome
  createObject : HRESULT
  stored : Bool
  uses : List Use
  opened : HRESULT
  released : List RefCount.Op

/-- What `open_archive` does when it tries the `i`-th format. -/
inductive Event where
  /-- The `fseek`, and whether it succeeds. -/
  | rewound (i : ℕ) (ok : Bool)
  | released (i : ℕ)
  | created (i : ℕ) (format : ImplFormat)
  /-- `Open`, with the stream at an offset. -/
  | opened (i : ℕ) (offset : ℕ)
  deriving DecidableEq

/-- The members of `ImplArchive` that `open_archive` uses: the stream and its
counter, which is nothing when it is deleted, the object in `_arc`, and
`_format`. -/
structure OpenState where
  stream : FileReadStream
  refCounter : Option UInt32
  arc : Option (ℕ × List RefCount.Op)
  format : Option ImplFormat
  log : List Event

namespace OpenState

/-- The object `_arc` has. -/
def held (s : OpenState) : List ℕ := (s.arc.map Prod.fst).toList

/-- What its release does to the references to the stream. -/
def pending (s : OpenState) : List RefCount.Op := (s.arc.map Prod.snd).getD []

end OpenState

/-- The members stay as they are when a call escapes. -/
abbrev OpenM := EStateM Escape OpenState

namespace OpenArchive

def check (hr : HRESULT) (str : String) : OpenM Unit :=
  match checkCom hr str with
  | .ok _ => pure ()
  | .error e => throw e

def use (u : Use) : OpenM Unit := do
  let s ← get
  match s.refCounter, u with
  | none, _ => throw (.ub .freedStream)
  | some _, .call c => set { s with stream := c.exec s.stream }
  | some n, .ref o => set { s with refCounter := RefCount.step (some n) o }

def uses : List Use → OpenM Unit
  | [] => pure ()
  | u :: us => do
    use u
    uses us

/-- `_stream->Seek(0, STREAM_SEEK_SET, nullptr)` -/
def rewind (i : ℕ) (o : Outcome) : OpenM Unit := do
  let s ← get
  match s.refCounter with
  | none => throw (.ub .freedStream)
  | some _ =>
    let (hr, _, stream) := s.stream.seek 0 0 none o
    set { s with stream := stream, log := s.log ++ [Event.rewound i (s.stream.file.fseek 0 0 o).1] }
    check hr "Seek"

/-- `Object::release` of `_arc`. -/
def releaseArc : OpenM Unit := do
  let s ← get
  match s.arc with
  | none => pure ()
  | some (j, refs) =>
    set { s with log := s.log ++ [Event.released j] }
    uses (refs.map .ref)
    modify fun s => { s with arc := none }

/-- `CreateObject` with `&_arc`, which releases what is there. -/
def createObject (i : ℕ) (it : ImplFormat) (a : Attempt) : OpenM Unit := do
  releaseArc
  modify fun s => { s with
    arc := if a.stored then some (i, a.released) else none
    log := s.log ++ [Event.created i it] }
  check a.createObject "CreateObject"

/-- `_arc->Open` -/
def callOpen (i : ℕ) (a : Attempt) : OpenM HRESULT := do
  let s ← get
  match s.arc with
  | none => throw (.ub .nullArchive)
  | some _ =>
    set { s with log := s.log ++ [Event.opened i s.stream.file.ftell] }
    uses a.uses
    return a.opened

/-- The format that accepts, whose name is asked for the message. -/
def select (lib : ImplLib) (loc : Locale) (it : ImplFormat) : OpenM Bool := do
  modify fun s => { s with format := some it }
  match it.name lib loc with
  | .ok _ => return true
  | .error e => throw e

/-- The body of the loop: whether it returns. -/
def attempt (lib : ImplLib) (loc : Locale) (i : ℕ) (it : ImplFormat) (a : Attempt) : OpenM Bool := do
  rewind i a.rewind
  createObject i it a
  let res ← callOpen i a
  if res = sOk then select lib loc it
  else return false

/-- `open_archive`, from the `i`-th format on. -/
def openArchive (lib : ImplLib) (loc : Locale) : ℕ → List (ImplFormat × Attempt) → OpenM Unit
  | _, [] => throw (.exn "ERROR_INVALID_DATA")
  | i, (it, a) :: formats => do
    if ← attempt lib loc i it a then return ()
    else openArchive lib loc (i + 1) formats

/-- The members before `open_archive`: the stream has the reference of `_stream`. -/
def start (stream : FileReadStream) : OpenState := ⟨stream, some 1, none, none, []⟩

/-- `ImplArchive::ImplArchive`, up to `open_archive`: an exception from it destroys
`_arc` and `_stream`. -/
def construct (lib : ImplLib) (loc : Locale) (formats : List (ImplFormat × Attempt)) : OpenM Unit := fun s =>
  match openArchive lib loc 0 formats s with
  | .error (.exn what) s =>
    match (do releaseArc; use (.ref .drop) : OpenM Unit) s with
    | .ok _ s => .error (.exn what) s
    | .error e s => .error e s
  | r => r

/-! ### The steps -/

/-- References to the stream among what a handler does. -/
def refs (us : List Use) : List RefCount.Op :=
  us.filterMap fun
    | .call _ => none
    | .ref o => some o

/-- The stream is there, and its counter is right, after `done`. -/
def Ready (done : List RefCount.Op) (s : OpenState) : Prop :=
  RefCount.Counted 1 done s.refCounter ∧ RefCount.Live s.refCounter

/-- Handlers keep to the rules: the references to the stream stay positive, with
the one of `_stream`, and fit the counter. -/
def Rules (ops : List RefCount.Op) : Prop := ∀ p, p <+: ops → RefCount.Balanced 1 p

theorem Rules.mono {p ops : List RefCount.Op} (h : Rules ops) (hp : p <+: ops) : Rules p :=
  fun q hq => h q (hq.trans hp)

theorem bind_ok {α β : Type} {x : OpenM α} {f : α → OpenM β} {s s' : OpenState} {a : α}
    (h : x s = .ok a s') : (x >>= f) s = f a s' := by
  change EStateM.bind x f s = f a s'
  rw [EStateM.bind, h]

theorem bind_error {α β : Type} {x : OpenM α} {f : α → OpenM β} {s s' : OpenState} {e : Escape}
    (h : x s = .error e s') : (x >>= f) s = .error e s' := by
  change EStateM.bind x f s = .error e s'
  rw [EStateM.bind, h]

theorem ready_start (stream : FileReadStream) : Ready [] (start stream) :=
  ⟨⟨1, rfl, rfl⟩, 1, rfl, by decide⟩

theorem use_eq {s : OpenState} {n : UInt32} (hn : s.refCounter = some n) (u : Use) :
    use u s = .ok () (match u with
      | .call c => { s with stream := c.exec s.stream }
      | .ref o => { s with refCounter := RefCount.step (some n) o }) := by
  obtain ⟨stream, refCounter, arc, format, log⟩ := s
  cases hn
  cases u <;> rfl

/-- What a handler may do to the stream leaves everything else, and the stream
when it only takes and drops references. -/
theorem uses_ok : ∀ {us : List Use} {done : List RefCount.Op} {s : OpenState}, Ready done s →
    Rules (done ++ refs us) → ∃ s', uses us s = .ok () s' ∧ Ready (done ++ refs us) s' ∧
      s'.arc = s.arc ∧ s'.format = s.format ∧ s'.log = s.log ∧
      ((∀ u ∈ us, ∃ o, u = .ref o) → s'.stream = s.stream)
  | [], done, s, h, _ => ⟨s, rfl, by rwa [refs, List.filterMap_nil, List.append_nil], rfl, rfl, rfl, fun _ => rfl⟩
  | u :: us, done, s, h, hr => by
    obtain ⟨n, hn, -⟩ := h.2
    have huse := use_eq hn u
    cases u with
    | call c =>
      have h1 : Ready done { s with stream := c.exec s.stream } := h
      have hr1 : Rules (done ++ refs us) := hr
      obtain ⟨s', hs', hready, ha, hf, hl, -⟩ := uses_ok h1 hr1
      refine ⟨s', (bind_ok huse).trans hs', hready, ha, hf, hl, fun hrefs => ?_⟩
      obtain ⟨o, ho⟩ := hrefs _ List.mem_cons_self
      cases ho
    | ref o =>
      have happ : done ++ refs (.ref o :: us) = (done ++ [o]) ++ refs us := by
        rw [List.append_assoc]
        rfl
      rw [happ] at hr ⊢
      obtain ⟨hiff, hcounted⟩ := h.1.step h.2 o
      have hlive := hiff.mpr (hr _ (List.prefix_append _ _))
      rw [hn] at hcounted hlive
      have h1 : Ready (done ++ [o]) { s with refCounter := RefCount.step (some n) o } := ⟨hcounted hlive, hlive⟩
      obtain ⟨s', hs', hready, ha, hf, hl, hstream⟩ := uses_ok h1 hr
      refine ⟨s', (bind_ok huse).trans hs', hready, ha, hf, hl, fun hrefs => ?_⟩
      exact hstream fun u hu => hrefs u (List.mem_cons_of_mem _ hu)

theorem fseek_zero (f : Stdio.File) (o : Outcome) :
    ((f.fseek 0 0 o).1 = true ↔ o.fseek = .done) ∧ (o.fseek = .done → (f.fseek 0 0 o).2.ftell = 0) := by
  by_cases ho : o.fseek = .done
  · have hseek := f.fseek_set 0 ho (Nat.zero_le _)
    rw [Nat.cast_zero] at hseek
    rw [hseek]
    exact ⟨iff_of_true rfl ho, fun _ => f.pos_goto 0 o⟩
  · refine ⟨iff_of_false (fun h => ?_) ho, fun h => absurd h ho⟩
    unfold Stdio.File.fseek at h
    cases hf : o.fseek with
    | done => exact ho hf
    | refused => rw [hf] at h; cases h
    | ioError => rw [hf] at h; cases h

/-- What `Seek` returns is not below 0, so `CheckCom` does not throw. -/
theorem not_failed_seek (this : FileReadStream) (offset : Int64) (seekOrigin : UInt32) (newPosition : Option UInt64)
    (o : Outcome) : ¬ failed (this.seek offset seekOrigin newPosition o).1 := by
  have herr : ∀ file, ¬ failed (FileReadStream.checkError file) := fun file => by
    unfold FileReadStream.checkError
    split <;> decide
  have hok : ¬ failed sOk := by decide
  unfold FileReadStream.seek
  dsimp only
  split
  · exact hok
  · exact herr _

theorem seek_file (this : FileReadStream) (offset : Int64) (seekOrigin : UInt32) (newPosition : Option UInt64)
    (o : Outcome) : (this.seek offset seekOrigin newPosition o).2.2.file =
      (this.file.fseek offset.toInt seekOrigin.toNat o).2 := by
  unfold FileReadStream.seek
  dsimp only
  split <;> rfl

theorem check_ok {hr : HRESULT} (h : ¬ failed hr) (str : String) (s : OpenState) : check hr str s = .ok () s := by
  rw [check, checkCom_ok h]
  rfl

theorem check_failed {hr : HRESULT} (h : failed hr) (str : String) (s : OpenState) :
    check hr str s = .error (.exn str) s := by
  rw [check, checkCom_failed h]
  rfl

/-- The stream rewound, or not. -/
theorem rewind_ok {done : List RefCount.Op} {s : OpenState} (h : Ready done s) (i : ℕ) (o : Outcome) :
    ∃ s', rewind i o s = .ok () s' ∧ Ready done s' ∧ s'.arc = s.arc ∧ s'.format = s.format ∧
      s'.log = s.log ++ [.rewound i (decide (o.fseek = .done))] ∧ (o.fseek = .done → s'.stream.file.ftell = 0) := by
  obtain ⟨n, hn, -⟩ := h.2
  obtain ⟨hdone, hzero⟩ := fseek_zero s.stream.file o
  have hok : (s.stream.file.fseek 0 0 o).1 = decide (o.fseek = .done) := by
    rw [Bool.eq_iff_iff, hdone, decide_eq_true_iff]
  have hfile : (s.stream.seek 0 0 none o).2.2.file = (s.stream.file.fseek 0 0 o).2 := seek_file _ _ _ _ _
  refine ⟨{ s with stream := (s.stream.seek 0 0 none o).2.2, log := s.log ++ [.rewound i (s.stream.file.fseek 0 0 o).1] },
    ?_, h, rfl, rfl, by rw [hok], fun ho => by rw [hfile, hzero ho]⟩
  have hcheck := check_ok (not_failed_seek s.stream 0 0 none o) "Seek"
  obtain ⟨stream, refCounter, arc, format, log⟩ := s
  cases hn
  exact hcheck _

theorem refs_map_ref (ops : List RefCount.Op) : refs (ops.map .ref) = ops := by
  rw [refs, List.filterMap_map]
  exact List.filterMap_some

/-- The object there is gets released. -/
theorem releaseArc_ok {done : List RefCount.Op} {s : OpenState} (h : Ready done s) (hr : Rules (done ++ s.pending)) :
    ∃ s', releaseArc s = .ok () s' ∧ Ready (done ++ s.pending) s' ∧ s'.arc = none ∧ s'.format = s.format ∧
      s'.stream = s.stream ∧ s'.log = s.log ++ s.held.map .released := by
  obtain ⟨stream, refCounter, arc, format, log⟩ := s
  cases arc with
  | none => exact ⟨_, rfl, by simpa [OpenState.pending] using h, rfl, rfl, rfl, by simp [OpenState.held]⟩
  | some o =>
    obtain ⟨j, ops⟩ := o
    have hops : refs (ops.map .ref) = ops := refs_map_ref ops
    have h1 : Ready done ⟨stream, refCounter, some (j, ops), format, log ++ [.released j]⟩ := h
    have hr1 : Rules (done ++ refs (ops.map .ref)) := by rw [hops]; exact hr
    obtain ⟨s', hs', hready, -, hf, hl, hstream⟩ := uses_ok h1 hr1
    refine ⟨{ s' with arc := none }, ?_, by rw [hops] at hready; exact hready, rfl, hf, hstream ?_, hl⟩
    · change (uses (ops.map .ref) >>= fun _ => modify fun s => { s with arc := none }) _ = _
      rw [bind_ok hs']
      rfl
    · intro u hu
      obtain ⟨o, -, rfl⟩ := List.mem_map.mp hu
      exact ⟨o, rfl⟩

theorem createObject_eq {done : List RefCount.Op} {s : OpenState} (h : Ready done s) (hr : Rules (done ++ s.pending))
    (i : ℕ) (it : ImplFormat) (a : Attempt) :
    ∃ s', createObject i it a s =
        (if failed a.createObject then .error (.exn "CreateObject") s' else .ok () s') ∧
      Ready (done ++ s.pending) s' ∧ s'.arc = (if a.stored then some (i, a.released) else none) ∧
      s'.format = s.format ∧ s'.stream = s.stream ∧ s'.log = s.log ++ (s.held.map .released ++ [.created i it]) := by
  obtain ⟨s1, hs1, hready, -, hf, hst, hl⟩ := releaseArc_ok h hr
  refine ⟨{ s1 with
    arc := if a.stored then some (i, a.released) else none
    log := s1.log ++ [.created i it] }, ?_, hready, rfl, hf, hst, by rw [hl, List.append_assoc]⟩
  rw [createObject, bind_ok hs1]
  by_cases hfail : failed a.createObject
  · rw [if_pos hfail]
    exact check_failed hfail "CreateObject" _
  · rw [if_neg hfail]
    exact check_ok hfail "CreateObject" _

/-- What comes before `Open`. -/
def before (s : OpenState) (i : ℕ) (it : ImplFormat) (a : Attempt) : List Event :=
  .rewound i (decide (a.rewind.fseek = .done)) :: (s.held.map .released ++ [.created i it])

/-- A result and the members it leaves. -/
def leaves {α β : Type} (r : Except Escape α) (b : β) (s : OpenState) : EStateM.Result Escape OpenState β :=
  match r with
  | .ok _ => .ok b s
  | .error e => .error e s

theorem select_eq (lib : ImplLib) (loc : Locale) (it : ImplFormat) (s : OpenState) :
    select lib loc it s = leaves (it.name lib loc) true { s with format := some it } := by
  unfold select leaves
  cases it.name lib loc <;> rfl

/-- The handler's `Open` is called on the object that was stored. -/
theorem callOpen_stored {done : List RefCount.Op} {s : OpenState} (h : Ready done s) {i : ℕ} {a : Attempt}
    (harc : s.arc = some (i, a.released)) (hr : Rules (done ++ refs a.uses)) :
    ∃ s', callOpen i a s = .ok a.opened s' ∧ Ready (done ++ refs a.uses) s' ∧ s'.arc = s.arc ∧
      s'.format = s.format ∧ s'.log = s.log ++ [.opened i s.stream.file.ftell] := by
  have hlogged : Ready done { s with log := s.log ++ [.opened i s.stream.file.ftell] } := h
  obtain ⟨s', hs', hready, ha, hf, hl, -⟩ := uses_ok hlogged hr
  refine ⟨s', ?_, hready, ha, hf, hl⟩
  obtain ⟨stream, refCounter, arc, format, log⟩ := s
  cases harc
  exact bind_ok hs'

theorem callOpen_none {s : OpenState} (harc : s.arc = none) (i : ℕ) (a : Attempt) :
    callOpen i a s = .error (.ub .nullArchive) s := by
  obtain ⟨stream, refCounter, arc, format, log⟩ := s
  cases harc
  rfl

/-- What trying a format comes to: `CreateObject` fails, or gives no object, or
the handler is asked. -/
theorem attempt_cases {done : List RefCount.Op} {s : OpenState} (h : Ready done s) (lib : ImplLib) (loc : Locale)
    (i : ℕ) (it : ImplFormat) (a : Attempt) (hr : Rules (done ++ (s.pending ++ refs a.uses))) :
    (failed a.createObject ∧ ∃ s', attempt lib loc i it a s = .error (.exn "CreateObject") s' ∧
      s'.log = s.log ++ before s i it a) ∨
    (¬ failed a.createObject ∧ a.stored = false ∧ ∃ s', attempt lib loc i it a s = .error (.ub .nullArchive) s' ∧
      s'.log = s.log ++ before s i it a) ∨
    (¬ failed a.createObject ∧ a.stored = true ∧ ∃ s' offset,
      attempt lib loc i it a s = (if a.opened = sOk then leaves (it.name lib loc) true s' else .ok false s') ∧
      Ready (done ++ (s.pending ++ refs a.uses)) s' ∧ s'.arc = some (i, a.released) ∧
      s'.format = (if a.opened = sOk then some it else s.format) ∧
      s'.log = s.log ++ (before s i it a ++ [.opened i offset]) ∧ (a.rewind.fseek = .done → offset = 0)) := by
  obtain ⟨s1, hs1, hready1, harc1, hf1, hl1, hzero⟩ := rewind_ok h i a.rewind
  have hpend : s1.pending = s.pending := by rw [OpenState.pending, harc1, OpenState.pending]
  have hheld : s1.held = s.held := by rw [OpenState.held, harc1, OpenState.held]
  rw [← hpend, ← List.append_assoc] at hr ⊢
  obtain ⟨s2, hs2, hready2, harc2, hf2, hst2, hl2⟩ := createObject_eq hready1 (hr.mono (List.prefix_append _ _)) i it a
  have hlog : s2.log = s.log ++ before s i it a := by
    rw [hl2, hl1, hheld, List.append_assoc]
    rfl
  by_cases hfail : failed a.createObject
  · rw [if_pos hfail] at hs2
    exact .inl ⟨hfail, s2, (bind_ok hs1).trans (bind_error hs2), hlog⟩
  rw [if_neg hfail] at hs2
  refine .inr ?_
  cases hstored : a.stored with
  | false =>
    rw [hstored, if_neg Bool.false_ne_true] at harc2
    have hopen := callOpen_none harc2 i a
    exact .inl ⟨hfail, rfl, s2, (bind_ok hs1).trans ((bind_ok hs2).trans (bind_error hopen)), hlog⟩
  | true =>
    rw [hstored, if_pos rfl] at harc2
    obtain ⟨s3, hopen, hready3, harc3, hf3, hl3⟩ := callOpen_stored hready2 harc2 hr
    have htry : attempt lib loc i it a s =
        (if a.opened = sOk then select lib loc it else pure false : OpenM Bool) s3 :=
      (bind_ok hs1).trans ((bind_ok hs2).trans (bind_ok hopen))
    have hlast : s3.log = s.log ++ (before s i it a ++ [.opened i s2.stream.file.ftell]) := by
      rw [hl3, ← List.append_assoc, ← hlog]
    have hoff : a.rewind.fseek = .done → s2.stream.file.ftell = 0 := fun hd => by rw [hst2, hzero hd]
    refine .inr ⟨hfail, rfl, ?_⟩
    rw [htry]
    by_cases hacc : a.opened = sOk
    · simp only [if_pos hacc]
      exact ⟨{ s3 with format := some it }, _, select_eq lib loc it s3, hready3, harc3.trans harc2, rfl, hlast, hoff⟩
    · simp only [if_neg hacc]
      exact ⟨s3, _, rfl, hready3, harc3.trans harc2, hf3.trans (hf2.trans hf1), hlast, hoff⟩

/-! ### The loop -/

/-- The handler is asked, and rejects: the next format is tried. -/
def Rejects (a : Attempt) : Prop := ¬ failed a.createObject ∧ a.stored = true ∧ a.opened ≠ sOk

instance (a : Attempt) : Decidable (Rejects a) := inferInstanceAs (Decidable (_ ∧ _))

/-- The formats that are tried. -/
def reached : List (ImplFormat × Attempt) → List (ImplFormat × Attempt)
  | [] => []
  | x :: formats => x :: if Rejects x.2 then reached formats else []

/-- What they do to the references to the stream. -/
def ops (formats : List (ImplFormat × Attempt)) : List RefCount.Op :=
  formats.flatMap fun x => refs x.2.uses ++ x.2.released

/-- The `fseek` and `CreateObject` succeed. -/
def Works (a : Attempt) : Prop := a.rewind.fseek = .done ∧ ¬ failed a.createObject ∧ a.stored = true

def opens (log : List Event) : List (ℕ × ℕ) :=
  log.filterMap fun
    | .opened i offset => some (i, offset)
    | _ => none

def creates (log : List Event) : List (ImplFormat × ℕ) :=
  log.filterMap fun
    | .created i it => some (it, i)
    | _ => none

def releases (log : List Event) : List ℕ :=
  log.filterMap fun
    | .released i => some i
    | _ => none

theorem opens_attempt (s : OpenState) (i : ℕ) (it : ImplFormat) (a : Attempt) (offset : ℕ) :
    opens (before s i it a ++ [.opened i offset]) = [(i, offset)] := by
  simp [opens, before, List.filterMap_append, List.filterMap_map]

theorem creates_attempt (s : OpenState) (i : ℕ) (it : ImplFormat) (a : Attempt) (offset : ℕ) :
    creates (before s i it a ++ [.opened i offset]) = [(it, i)] := by
  simp [creates, before, List.filterMap_append, List.filterMap_map]

theorem releases_attempt (s : OpenState) (i : ℕ) (it : ImplFormat) (a : Attempt) (offset : ℕ) :
    releases (before s i it a ++ [.opened i offset]) = s.held := by
  simp [releases, before, List.filterMap_append, List.filterMap_map]

/-- The members behind the loop from the `i`-th format on: the formats `tried`
got a `CreateObject` and an `Open` at offset 0 each, and what was held before
their objects is released. -/
structure Tried (i : ℕ) (tried : List (ImplFormat × Attempt)) (s s' : OpenState) : Prop where
  opens : opens s'.log = opens s.log ++ (List.range' i tried.length).map (·, 0)
  creates : creates s'.log = creates s.log ++ (tried.map Prod.fst).zipIdx i
  releases : releases s'.log ++ s'.held = releases s.log ++ s.held ++ List.range' i tried.length

theorem Tried.refl (i : ℕ) (s : OpenState) : Tried i [] s s :=
  ⟨by simp, by simp, by simp⟩

/-- One more format in front. -/
theorem Tried.cons {i : ℕ} {x : ImplFormat × Attempt} {tried : List (ImplFormat × Attempt)} {s s1 s' : OpenState}
    (hlog : s1.log = s.log ++ (before s i x.1 x.2 ++ [.opened i 0])) (hheld : s1.held = [i])
    (h : Tried (i + 1) tried s1 s') : Tried i (x :: tried) s s' where
  opens := by
    have hone : OpenArchive.opens s1.log = OpenArchive.opens s.log ++ [(i, 0)] := by
      rw [hlog, OpenArchive.opens, List.filterMap_append]
      exact congrArg _ (opens_attempt s i x.1 x.2 0)
    rw [h.opens, hone, List.append_assoc, List.length_cons, List.range'_succ]
    rfl
  creates := by
    have hone : OpenArchive.creates s1.log = OpenArchive.creates s.log ++ [(x.1, i)] := by
      rw [hlog, OpenArchive.creates, List.filterMap_append]
      exact congrArg _ (creates_attempt s i x.1 x.2 0)
    rw [h.creates, hone, List.append_assoc]
    rfl
  releases := by
    have hone : OpenArchive.releases s1.log = OpenArchive.releases s.log ++ s.held := by
      rw [hlog, OpenArchive.releases, List.filterMap_append]
      exact congrArg _ (releases_attempt s i x.1 x.2 0)
    rw [h.releases, hone, hheld, List.append_assoc, List.length_cons, List.range'_succ]
    rfl

theorem ops_cons (x : ImplFormat × Attempt) (formats : List (ImplFormat × Attempt)) :
    ops (x :: formats) = refs x.2.uses ++ (x.2.released ++ ops formats) := by
  rw [ops, List.flatMap_cons, List.append_assoc]
  rfl

theorem openArchive_of_leaves {lib : ImplLib} {loc : Locale} {formats : List (ImplFormat × Attempt)} {i : ℕ}
    {it : ImplFormat} {a : Attempt} {s s' : OpenState}
    (h : attempt lib loc i it a s = leaves (it.name lib loc) true s') :
    openArchive lib loc i ((it, a) :: formats) s = leaves (it.name lib loc) () s' := by
  unfold leaves at h ⊢
  cases hname : it.name lib loc with
  | ok n =>
    rw [hname] at h
    exact bind_ok h
  | error e =>
    rw [hname] at h
    exact bind_error h

/-- One round of the loop: it ends in `CreateObject`, at the null pointer, or
because the handler accepts, or else goes on with the next format and
keeps to the rules. -/
theorem openArchive_cons {done : List RefCount.Op} {s : OpenState} (h : Ready done s) (lib : ImplLib) (loc : Locale)
    (i : ℕ) (it : ImplFormat) (a : Attempt) (formats : List (ImplFormat × Attempt))
    (hr : Rules (done ++ (s.pending ++ ops (reached ((it, a) :: formats))))) :
    (failed a.createObject ∧ ∃ s', openArchive lib loc i ((it, a) :: formats) s = .error (.exn "CreateObject") s' ∧
      s'.log = s.log ++ before s i it a) ∨
    (¬ failed a.createObject ∧ a.stored = false ∧ ∃ s',
      openArchive lib loc i ((it, a) :: formats) s = .error (.ub .nullArchive) s' ∧ s'.log = s.log ++ before s i it a) ∨
    ∃ s' offset, s'.held = [i] ∧ s'.log = s.log ++ (before s i it a ++ [.opened i offset]) ∧
      (a.rewind.fseek = .done → offset = 0) ∧
      ((¬ failed a.createObject ∧ a.opened = sOk ∧ s'.format = some it ∧
          openArchive lib loc i ((it, a) :: formats) s = leaves (it.name lib loc) () s') ∨
        (Rejects a ∧ openArchive lib loc i ((it, a) :: formats) s = openArchive lib loc (i + 1) formats s' ∧
          ∃ done', Ready done' s' ∧ Rules (done' ++ (s'.pending ++ ops (reached formats))))) := by
  rw [reached, ops_cons, ← List.append_assoc s.pending, ← List.append_assoc done] at hr
  rcases attempt_cases h lib loc i it a (hr.mono (List.prefix_append _ _)) with ⟨hfail, s', htry, hlog⟩ |
    ⟨hcreate, hstored, s', htry, hlog⟩ | ⟨hcreate, hstored, s', offset, htry, hready, harc, hformat, hlog, hzero⟩
  · exact .inl ⟨hfail, s', bind_error htry, hlog⟩
  · exact .inr (.inl ⟨hcreate, hstored, s', bind_error htry, hlog⟩)
  have hheld : s'.held = [i] := by rw [OpenState.held, harc]; rfl
  have hpend : s'.pending = a.released := by rw [OpenState.pending, harc]; rfl
  refine .inr (.inr ⟨s', offset, hheld, hlog, hzero, ?_⟩)
  by_cases hacc : a.opened = sOk
  · rw [if_pos hacc] at htry hformat
    exact .inl ⟨hcreate, hacc, hformat, openArchive_of_leaves htry⟩
  · have hrej : Rejects a := ⟨hcreate, hstored, hacc⟩
    rw [if_neg hacc] at htry
    rw [if_pos hrej, ← hpend] at hr
    exact .inr ⟨hrej, bind_ok htry, _, hready, hr⟩

/-- What the loop comes to where all works: a first format accepts, or none does. -/
theorem openArchive_cases (lib : ImplLib) (loc : Locale) : ∀ {formats : List (ImplFormat × Attempt)} {i : ℕ}
    {done : List RefCount.Op} {s : OpenState}, Ready done s → (∀ x ∈ reached formats, Works x.2) →
    Rules (done ++ (s.pending ++ ops (reached formats))) →
    (∃ rejected it a others s', formats = rejected ++ (it, a) :: others ∧ (∀ x ∈ rejected, x.2.opened ≠ sOk) ∧
      a.opened = sOk ∧ openArchive lib loc i formats s = leaves (it.name lib loc) () s' ∧
      Tried i (rejected ++ [(it, a)]) s s' ∧ s'.format = some it ∧ s'.held = [i + rejected.length]) ∨
    ((∀ x ∈ formats, x.2.opened ≠ sOk) ∧ ∃ s' done',
      openArchive lib loc i formats s = .error (.exn "ERROR_INVALID_DATA") s' ∧
      Tried i formats s s' ∧ Ready done' s' ∧ Rules (done' ++ s'.pending))
  | [], i, done, s, h, _, hr => by
    refine .inr ⟨List.forall_mem_nil _, s, done, rfl, .refl i s, h, ?_⟩
    rwa [reached, ops, List.flatMap_nil, List.append_nil] at hr
  | (it, a) :: formats, i, done, s, h, hwork, hr => by
    obtain ⟨hrewind, hcreate, hstored⟩ : Works a := hwork (it, a) List.mem_cons_self
    rcases openArchive_cons h lib loc i it a formats hr with ⟨hno, -⟩ | ⟨-, hno, -⟩ |
      ⟨s1, offset, hheld, hlog, hzero, ⟨-, hacc, hformat, hrun⟩ | ⟨hrej, hrest, done1, hready, hr1⟩⟩
    · exact absurd hno hcreate
    · exact absurd hstored (by rw [hno]; exact Bool.false_ne_true)
    · obtain rfl := hzero hrewind
      exact .inl ⟨[], it, a, formats, s1, rfl, List.forall_mem_nil _, hacc, hrun,
        .cons hlog hheld (.refl _ _), hformat, hheld⟩
    · obtain rfl := hzero hrewind
      have hwork1 : ∀ x ∈ reached formats, Works x.2 := fun x hx =>
        hwork x (by rw [reached, if_pos hrej]; exact List.mem_cons_of_mem _ hx)
      rcases openArchive_cases lib loc hready hwork1 hr1 with
        ⟨rejected, it', a', others, s', rfl, hrejs, hacc', hrun, htried, hf', hheld'⟩ |
        ⟨hrejs, s', done', hrun, htried, hready', hr'⟩
      · refine .inl ⟨(it, a) :: rejected, it', a', others, s', rfl, List.forall_mem_cons.mpr ⟨hrej.2.2, hrejs⟩, hacc',
          hrest.trans hrun, .cons hlog hheld htried, hf', ?_⟩
        rw [hheld', List.length_cons, Nat.add_assoc, Nat.add_comm 1]
      · exact .inr ⟨List.forall_mem_cons.mpr ⟨hrej.2.2, hrejs⟩, s', done', hrest.trans hrun,
          .cons hlog hheld htried, hready', hr'⟩

/-- Every format up to the first that accepts is tried once, in order, with the
stream at its start. The object of every one that rejects is released once;
`_arc` keeps that of the one that accepts, and `_format` is that one. If
none accepts, the constructor throws, and has released them all. -/
def InOrder (lib : ImplLib) (loc : Locale) (formats : List (ImplFormat × Attempt)) (stream : FileReadStream) : Prop :=
  (∃ rejected it a others s, formats = rejected ++ (it, a) :: others ∧ (∀ x ∈ rejected, x.2.opened ≠ sOk) ∧
    a.opened = sOk ∧ construct lib loc formats (start stream) = leaves (it.name lib loc) () s ∧
    opens s.log = (List.range (rejected.length + 1)).map (·, 0) ∧
    creates s.log = ((rejected ++ [(it, a)]).map Prod.fst).zipIdx ∧
    s.format = some it ∧ s.held = [rejected.length] ∧ releases s.log = List.range rejected.length) ∨
  ((∀ x ∈ formats, x.2.opened ≠ sOk) ∧ ∃ s,
    construct lib loc formats (start stream) = .error (.exn "ERROR_INVALID_DATA") s ∧
    opens s.log = (List.range formats.length).map (·, 0) ∧ creates s.log = (formats.map Prod.fst).zipIdx ∧
    s.held = [] ∧ releases s.log = List.range formats.length)

/-- The constructor throws an exception. -/
def Throws (lib : ImplLib) (loc : Locale) (formats : List (ImplFormat × Attempt)) (stream : FileReadStream) : Prop :=
  ∃ what s, construct lib loc formats (start stream) = .error (.exn what) s

theorem noexcept_ne_exn {α : Type} (x : Except Escape α) (what : String) : noexcept x ≠ .error (.exn what) := by
  intro h
  unfold noexcept at h
  split at h
  · cases h
  · rename_i hne
    exact hne what h

/-- An exception lets go of the object that is held, and of the stream. -/
theorem construct_of_exn {lib : ImplLib} {loc : Locale} {formats : List (ImplFormat × Attempt)} {s s' : OpenState}
    {done : List RefCount.Op} {what : String} (h : openArchive lib loc 0 formats s = .error (.exn what) s')
    (hready : Ready done s') (hr : Rules (done ++ s'.pending)) :
    ∃ s1, construct lib loc formats s = .error (.exn what) s1 ∧ s1.held = [] ∧
      s1.log = s'.log ++ s'.held.map .released := by
  obtain ⟨s1, hs1, hready1, harc, -, -, hlog⟩ := releaseArc_ok hready hr
  obtain ⟨n, hn, -⟩ := hready1.2
  refine ⟨{ s1 with refCounter := RefCount.step (some n) .drop }, ?_, by rw [OpenState.held, harc]; rfl, hlog⟩
  have hunwind : (do releaseArc; use (.ref .drop) : OpenM Unit) s' =
      .ok () { s1 with refCounter := RefCount.step (some n) .drop } := (bind_ok hs1).trans (use_eq hn _)
  rw [construct, h]
  simp only [hunwind]

/-- The name of a format is asked for in a function that does not throw. -/
theorem leaves_name_ne_exn (lib : ImplLib) (loc : Locale) (it : ImplFormat) {β : Type} (b : β) (s s' : OpenState)
    (what : String) : leaves (it.name lib loc) b s ≠ .error (.exn what) s' := by
  unfold leaves
  cases hname : it.name lib loc with
  | ok n => exact nofun
  | error e =>
    intro he
    cases he
    exact noexcept_ne_exn _ what hname

theorem construct_of_leaves {lib : ImplLib} {loc : Locale} {formats : List (ImplFormat × Attempt)} {it : ImplFormat}
    {s s' : OpenState} (h : openArchive lib loc 0 formats s = leaves (it.name lib loc) () s') :
    construct lib loc formats s = leaves (it.name lib loc) () s' := by
  unfold construct
  split
  · rename_i what s1 he
    exact absurd (h.symm.trans he) (leaves_name_ne_exn _ _ _ _ _ _ _)
  · exact h

theorem opens_released (log : List Event) (l : List ℕ) : opens (log ++ l.map .released) = opens log := by
  simp [opens, List.filterMap_map]

theorem creates_released (log : List Event) (l : List ℕ) : creates (log ++ l.map .released) = creates log := by
  simp [creates, List.filterMap_map]

theorem releases_released (log : List Event) (l : List ℕ) :
    releases (log ++ l.map .released) = releases log ++ l := by
  simp [releases, List.filterMap_map]

/-- **What `open_archive` does**, where the seeks and `CreateObject` succeed and
the handlers keep to the rules of references. -/
theorem opens_in_order {lib : ImplLib} {loc : Locale} {formats : List (ImplFormat × Attempt)}
    (hwork : ∀ x ∈ reached formats, Works x.2) (hrules : Rules (ops (reached formats))) (stream : FileReadStream) :
    InOrder lib loc formats stream ∧ (Throws lib loc formats stream ↔ ∀ x ∈ formats, x.2.opened ≠ sOk) := by
  rcases openArchive_cases lib loc (i := 0) (ready_start stream) hwork hrules with
    ⟨rejected, it, a, others, s, hformats, hrej, hacc, hrun, htried, hformat, hheld⟩ |
    ⟨hrej, s, done, hrun, htried, hready, hr⟩
  · have hcon := construct_of_leaves hrun
    refine ⟨.inl ⟨rejected, it, a, others, s, hformats, hrej, hacc, hcon, ?_, ?_, hformat, ?_, ?_⟩, ?_⟩
    · rw [htried.opens, List.length_append, List.range_eq_range']
      rfl
    · rw [htried.creates]
      rfl
    · rw [hheld, Nat.zero_add]
    · have hall : releases s.log ++ [rejected.length] = List.range rejected.length ++ [rejected.length] := by
        rw [← List.range_succ, List.range_eq_range', ← Nat.zero_add rejected.length, ← hheld, htried.releases,
          List.length_append, Nat.zero_add]
        rfl
      exact List.append_cancel_right hall
    · refine iff_of_false ?_ fun hno => hno (it, a) (by simp [hformats]) hacc
      rintro ⟨what, s', hexn⟩
      exact leaves_name_ne_exn lib loc it () s s' what (hcon.symm.trans hexn)
  · obtain ⟨s1, hcon, hheld, hlog⟩ := construct_of_exn hrun hready hr
    refine ⟨.inr ⟨hrej, s1, hcon, ?_, ?_, hheld, ?_⟩, iff_of_true ⟨_, s1, hcon⟩ hrej⟩
    · rw [hlog, opens_released, htried.opens, List.range_eq_range']
      rfl
    · rw [hlog, creates_released, htried.creates]
      rfl
    · rw [hlog, releases_released, htried.releases, List.range_eq_range']
      rfl

/-- A library whose formats have no name and no extensions. -/
def nameless : ImplLib := ⟨(sOk, 2), none, fun _ => (sOk, .empty)⟩

/-- A handler that reads a byte, keeps a reference and answers. -/
def asking (rewind : Outcome) (opened : HRESULT) : Attempt :=
  ⟨rewind, sOk, true, [.call (.read 1 none {}), .ref .add], opened, [.drop]⟩

/-- An archive of two bytes. -/
def twoBytes : FileReadStream := ⟨⟨['/', 'x']⟩, zeroStat, .opened [1, 2]⟩

/-- The first of two formats rejects, and the second accepts. -/
def secondAccepts : List (ImplFormat × Attempt) :=
  [(⟨0, [], []⟩, asking {} sFalse), (⟨1, [], []⟩, asking {} sOk)]

theorem rules_of_inits {ops : List RefCount.Op} (h : ∀ p ∈ ops.inits, RefCount.Balanced 1 p) : Rules ops :=
  fun p hp => h p ((List.mem_inits p ops).mpr hp)

theorem rules_secondAccepts : Rules (ops (reached secondAccepts)) := by
  apply rules_of_inits
  unfold RefCount.Balanced
  decide

theorem opens_in_order_second : InOrder nameless .ascii secondAccepts twoBytes ∧
    (Throws nameless .ascii secondAccepts twoBytes ↔ ∀ x ∈ secondAccepts, x.2.opened ≠ sOk) := by
  apply opens_in_order
  · unfold Works
    decide
  · exact rules_secondAccepts

/-! ### Codes for failures -/

end OpenArchive

namespace ImplArchive

/-- `at` does what it is for: it throws for an index that is not below the size,
and else gives `begin` advanced so many times. -/
def AtOk (arc : ImplArchive) (index : UInt64) : Prop :=
  (arc.size ≤ index.toNat → ∃ what, arc.itemAt index = .error (.exn what)) ∧
  (index.toNat < arc.size → ∃ it s, arc.itemAt index = .ok it ∧
    Iterators.advances arc index.toNat (.start arc) = .ok s ∧ it.eq s.current = true)

/-- 1 is not below 0: `at` never throws. -/
theorem itemAt_ok (arc : ImplArchive) (index : UInt64) : arc.itemAt index = .ok (arc.implAt index.toUInt32) := by
  unfold itemAt
  rw [checkCom_ok (by decide)]
  split <;> rfl

theorem atOk_iff (arc : ImplArchive) (index : UInt64) : arc.AtOk index ↔ index.toNat < arc.size := by
  unfold AtOk
  rw [itemAt_ok]
  constructor
  · rintro ⟨hthrows, -⟩
    by_cases hlt : index.toNat < arc.size
    · exact hlt
    · obtain ⟨what, h⟩ := hthrows (Nat.not_lt.mp hlt)
      cases h
  · intro hlt
    refine ⟨fun hle => absurd hlt (Nat.not_lt.mpr hle), fun _ => ?_⟩
    have hindex : index.toUInt32 = UInt32.ofNat index.toNat := rfl
    have hat : arc.implAt index.toUInt32 = arc.position index.toNat := by
      have hpos : (arc.size == 0) = false := beq_false_of_ne (Nat.ne_of_gt (Nat.zero_lt_of_lt hlt))
      rw [implAt, position, hindex, toNat_ofNat_of_le (Nat.le_of_lt hlt), hpos, Bool.false_or]
    obtain ⟨s, hs, hcur⟩ := Iterators.advances_start (m := index.toNat) (Iterators.round_start arc).current
      (by rw [Nat.zero_add]; exact Nat.le_of_lt hlt)
    refine ⟨_, s, rfl, hs, ?_⟩
    rw [hat, hcur, Nat.zero_add, eq_position_iff (Nat.le_of_lt hlt) (Nat.le_of_lt hlt)]

end ImplArchive

namespace OpenArchive

/-- The members a call leaves. -/
def members {α : Type} : EStateM.Result Escape OpenState α → OpenState
  | .ok _ s => s
  | .error _ s => s

/-- Where an `fseek` fails, there is an exception and no `Open`. -/
def SeeksSeen (r : EStateM.Result Escape OpenState Unit) : Prop :=
  ∀ i, .rewound i false ∈ (members r).log →
    (∃ what s, r = .error (.exn what) s) ∧ ∀ offset, .opened i offset ∉ (members r).log

/-- Behind formats that reject, where an `fseek` fails `CreateObject` fails too. -/
def CreateFails (formats : List (ImplFormat × Attempt)) : Prop :=
  ∀ rejected it a others, formats = rejected ++ (it, a) :: others → (∀ x ∈ rejected, Rejects x.2) →
    a.rewind.fseek ≠ .done → failed a.createObject

/-- Before the `i`-th format, where no `fseek` failed. -/
def Before (i : ℕ) (log : List Event) : Prop :=
  (∀ j, .rewound j false ∉ log) ∧ ∀ j offset, .opened j offset ∈ log → j < i

theorem createFails_cons {it : ImplFormat} {a : Attempt} {formats : List (ImplFormat × Attempt)} :
    CreateFails ((it, a) :: formats) ↔
      (a.rewind.fseek ≠ .done → failed a.createObject) ∧ (Rejects a → CreateFails formats) := by
  constructor
  · intro h
    refine ⟨h [] it a formats rfl (List.forall_mem_nil _), fun hrej rejected it' a' others he hall => ?_⟩
    exact h ((it, a) :: rejected) it' a' others (by rw [he]; rfl) (List.forall_mem_cons.mpr ⟨hrej, hall⟩)
  · rintro ⟨h1, h2⟩ rejected it' a' others he hall
    cases rejected with
    | nil =>
      cases he
      exact h1
    | cons x rejected =>
      cases he
      obtain ⟨hrej, hall⟩ := List.forall_mem_cons.mp hall
      exact h2 hrej rejected it' a' others rfl hall

theorem rewound_mem_before {s : OpenState} {i j : ℕ} {it : ImplFormat} {a : Attempt} :
    .rewound j false ∈ before s i it a ↔ j = i ∧ a.rewind.fseek ≠ .done := by
  simp [before]

theorem opened_not_mem_before {s : OpenState} {i j : ℕ} {it : ImplFormat} {a : Attempt} {offset : ℕ} :
    .opened j offset ∉ before s i it a := by
  simp [before]

/-- The first `fseek` that fails is that of the `i`-th format, or one behind it. -/
theorem rewound_mem_iff {s : OpenState} {i j : ℕ} {it : ImplFormat} {a : Attempt} {more : List Event}
    (hb : Before i s.log) : .rewound j false ∈ s.log ++ (before s i it a ++ more) ↔
      (j = i ∧ a.rewind.fseek ≠ .done) ∨ .rewound j false ∈ more := by
  rw [List.mem_append, List.mem_append, rewound_mem_before, or_iff_right (hb.1 j)]

theorem opened_mem_iff {s : OpenState} {i j : ℕ} {it : ImplFormat} {a : Attempt} {more : List Event} {offset : ℕ} :
    .opened j offset ∈ s.log ++ (before s i it a ++ more) ↔ .opened j offset ∈ s.log ∨ .opened j offset ∈ more := by
  rw [List.mem_append, List.mem_append, or_iff_right opened_not_mem_before]

/-- Without an exception the `fseek` must not fail. -/
theorem seeksSeen_iff_of_no_exn {i : ℕ} {s : OpenState} {it : ImplFormat} {a : Attempt} (more : List Event)
    {r : EStateM.Result Escape OpenState Unit} (hb : Before i s.log) (hno : ∀ what s, r ≠ .error (.exn what) s)
    (hlog : (members r).log = s.log ++ (before s i it a ++ more)) (hmore : ∀ j, .rewound j false ∉ more) :
    SeeksSeen r ↔ a.rewind.fseek = .done := by
  unfold SeeksSeen
  rw [hlog]
  constructor
  · intro h
    by_cases hdone : a.rewind.fseek = .done
    · exact hdone
    · obtain ⟨⟨what, s', he⟩, -⟩ := h i ((rewound_mem_iff hb).mpr (.inl ⟨rfl, hdone⟩))
      exact absurd he (hno what s')
  · intro hdone j hj
    rcases (rewound_mem_iff hb).mp hj with ⟨-, hfail⟩ | hj
    · exact absurd hdone hfail
    · exact absurd hj (hmore j)

/-- The exception from `CreateObject` comes before `Open`. -/
theorem seeksSeen_of_createObject {i : ℕ} {s s' : OpenState} {it : ImplFormat} {a : Attempt} {what : String}
    (hb : Before i s.log) (hlog : s'.log = s.log ++ before s i it a) : SeeksSeen (.error (.exn what) s') := by
  intro j hj
  refine ⟨⟨what, s', rfl⟩, fun offset ho => ?_⟩
  change Event.rewound j false ∈ s'.log at hj
  change Event.opened j offset ∈ s'.log at ho
  rw [hlog, ← List.append_nil (before s i it a)] at hj ho
  rcases (rewound_mem_iff hb).mp hj with ⟨rfl, -⟩ | hj
  · rcases opened_mem_iff.mp ho with hold | hnew
    · exact Nat.lt_irrefl j (hb.2 j offset hold)
    · exact absurd hnew List.not_mem_nil
  · exact absurd hj List.not_mem_nil

theorem members_leaves {α β : Type} (r : Except Escape α) (b : β) (s : OpenState) : members (leaves r b s) = s := by
  cases r <;> rfl

/-- Nothing that was done is forgotten. -/
theorem log_openArchive (lib : ImplLib) (loc : Locale) : ∀ {formats : List (ImplFormat × Attempt)} {i : ℕ}
    {done : List RefCount.Op} {s : OpenState}, Ready done s → Rules (done ++ (s.pending ++ ops (reached formats))) →
    s.log <+: (members (openArchive lib loc i formats s)).log
  | [], _, _, s, _, _ => List.prefix_refl s.log
  | (it, a) :: formats, i, done, s, h, hr => by
    rcases openArchive_cons h lib loc i it a formats hr with ⟨-, s1, hrun, hlog⟩ | ⟨-, -, s1, hrun, hlog⟩ |
      ⟨s1, offset, -, hlog, -, ⟨-, -, -, hrun⟩ | ⟨-, hrest, done1, hready, hr1⟩⟩
    · rw [hrun]
      exact ⟨_, hlog.symm⟩
    · rw [hrun]
      exact ⟨_, hlog.symm⟩
    · rw [hrun, members_leaves]
      exact ⟨_, hlog.symm⟩
    · rw [hrest]
      exact (List.prefix_append _ _).trans (hlog ▸ log_openArchive lib loc hready hr1)

theorem Before.succ {i : ℕ} {s s' : OpenState} {it : ImplFormat} {a : Attempt} {offset : ℕ} (h : Before i s.log)
    (hdone : a.rewind.fseek = .done) (hlog : s'.log = s.log ++ (before s i it a ++ [.opened i offset])) :
    Before (i + 1) s'.log := by
  unfold Before
  rw [hlog]
  refine ⟨fun j hj => ?_, fun j offset' hj => ?_⟩
  · rcases (rewound_mem_iff h).mp hj with ⟨-, hfail⟩ | hj
    · exact hfail hdone
    · cases List.mem_singleton.mp hj
  · rcases opened_mem_iff.mp hj with hj | hj
    · exact Nat.lt_succ_of_lt (h.2 j offset' hj)
    · cases List.mem_singleton.mp hj
      exact Nat.lt_succ_self i

/-- The run shows every failed `fseek` exactly when `CreateObject` fails there. -/
theorem seeksSeen_iff (lib : ImplLib) (loc : Locale) : ∀ {formats : List (ImplFormat × Attempt)} {i : ℕ}
    {done : List RefCount.Op} {s : OpenState}, Ready done s → Before i s.log →
    Rules (done ++ (s.pending ++ ops (reached formats))) →
    (SeeksSeen (openArchive lib loc i formats s) ↔ CreateFails formats)
  | [], i, done, s, _, hb, _ => by
    refine iff_of_true (fun j hj => absurd hj (hb.1 j)) ?_
    intro rejected it a others he
    simp at he
  | (it, a) :: formats, i, done, s, h, hb, hr => by
    rw [createFails_cons]
    rcases openArchive_cons h lib loc i it a formats hr with ⟨hfail, s1, hrun, hlog⟩ |
      ⟨hcreate, hstored, s1, hrun, hlog⟩ |
      ⟨s1, offset, -, hlog, -, ⟨hcreate, hacc, -, hrun⟩ | ⟨hrej, hrest, done1, hready, hr1⟩⟩
    · rw [hrun]
      exact iff_of_true (seeksSeen_of_createObject hb hlog) ⟨fun _ => hfail, fun hrej => absurd hfail hrej.1⟩
    · -- no object: the null pointer is no exception
      have hnone : ¬ Rejects a := fun hrej => absurd hrej.2.1 (by rw [hstored]; exact Bool.false_ne_true)
      rw [hrun, seeksSeen_iff_of_no_exn [] hb (fun what s' he => by cases he) (by rwa [List.append_nil])
        (fun _ => List.not_mem_nil)]
      simp [hnone, hcreate]
    · have hnone : ¬ Rejects a := fun hrej => hrej.2.2 hacc
      have hmore : ∀ j, .rewound j false ∉ [Event.opened i offset] := by simp
      rw [hrun, seeksSeen_iff_of_no_exn [.opened i offset] hb (fun _ _ => leaves_name_ne_exn lib loc it () s1 _ _)
        (by rw [members_leaves]; exact hlog) hmore]
      simp [hnone, hcreate]
    · rw [hrest]
      by_cases hdone : a.rewind.fseek = .done
      · rw [seeksSeen_iff lib loc hready (hb.succ hdone hlog) hr1]
        simp [hrej, hdone]
      · -- `Open` was called on a stream that was not rewound
        have hlater := (log_openArchive lib loc hready hr1 (i := i + 1)).subset
        have hrewound : .rewound i false ∈ s1.log := by
          rw [hlog]
          exact (rewound_mem_iff hb).mpr (.inl ⟨rfl, hdone⟩)
        have hopened : .opened i offset ∈ s1.log := by
          rw [hlog]
          exact opened_mem_iff.mpr (.inr (List.mem_singleton_self _))
        exact iff_of_false (fun hs => (hs i (hlater hrewound)).2 offset (hlater hopened))
          fun hc => hrej.1 (hc.1 hdone)

/-- **Where the program sees the failures it signals itself**, with the code 1:
`at` is right for the indices below the size only, and `open_archive` throws
before `Open` on a stream that was not rewound only if `CreateObject`, which
comes in between, has a code that is FAILED. -/
theorem failures_seen_iff (arc : ImplArchive) (index : UInt64) (lib : ImplLib) (loc : Locale)
    {formats : List (ImplFormat × Attempt)} (stream : FileReadStream) (hr : Rules (ops (reached formats))) :
    (arc.AtOk index ↔ index.toNat < arc.size) ∧
      (SeeksSeen (openArchive lib loc 0 formats (start stream)) ↔ CreateFails formats) := by
  refine ⟨arc.atOk_iff index, ?_⟩
  exact seeksSeen_iff lib loc (ready_start stream) ⟨fun _ => List.not_mem_nil, fun _ _ h => nomatch h⟩ hr

/-- The first of two formats rejects, and for the second the `fseek` is refused and there
is no memory for its object. -/
def secondFails : List (ImplFormat × Attempt) :=
  [(⟨0, [], []⟩, asking {} sFalse), (⟨1, [], []⟩, { asking { fseek := .refused } sOk with createObject := -2147024882 })]

theorem rules_secondFails : Rules (ops (reached secondFails)) := by
  apply rules_of_inits
  unfold RefCount.Balanced
  decide

/-- The first item of an archive of one, and a refused `fseek` that is seen. -/
theorem failures_seen_second : (ImplArchive.single (.file [97] (sOk, .empty))).AtOk 0 ∧
    .rewound 1 false ∈ (members (openArchive nameless .ascii 0 secondFails (start twoBytes))).log ∧
    SeeksSeen (openArchive nameless .ascii 0 secondFails (start twoBytes)) := by
  have h := failures_seen_iff (.single (.file [97] (sOk, .empty))) 0 nameless .ascii twoBytes rules_secondFails
  refine ⟨h.1.mpr (by decide), by decide, h.2.mpr ?_⟩
  rw [secondFails, createFails_cons, createFails_cons]
  refine ⟨fun hrefused => absurd rfl hrefused, fun _ => ⟨fun _ => by decide, fun _ rejected it a others he => ?_⟩⟩
  simp at he

/-- The second item of an archive of one, and a handler that is asked though the
`fseek` was refused. -/
theorem failures_unseen : ¬ (ImplArchive.single (.file [97] (sOk, .empty))).AtOk 1 ∧
    ¬ SeeksSeen (openArchive nameless .ascii 0 [(⟨0, [], []⟩, asking { fseek := .refused } sOk)] (start twoBytes)) := by
  constructor
  · rintro ⟨h, -⟩
    obtain ⟨what, h⟩ := h (by decide)
    cases h
  · intro h
    exact (h 0 (by decide)).2 0 (by decide)

end OpenArchive

end Fuse3P7zip
