/-
# The objects of an extraction

An open makes an extractor and the stream it writes to. `extract` has the
extractor in an `Object`, and lets go of it at the end, whether `execute`
returns or throws: the last `Release` deletes it, and the stream with it,
unless that was handed over. In between the decoder calls both, and takes
references to both and gives them back.

`session_keeps`: with decoders that keep to COM's rules, nothing is used in a
session of the mount that is not there, and nothing is deleted twice. What is
there after it are the streams of the open handles; an open that throws leaves
nothing, and every extractor is gone.
-/
import Fuse3P7zip.Ownership
import Fuse3P7zip.Sessions
import Fuse3P7zip.Lib.Raii

namespace Fuse3P7zip

open Raii (Ev Ending Run Meets observes)
open RefCount (Op adds drops Live Balanced)

/-- The objects of a mount: the extractor of the extraction that began at a
time, and the stream at an address. -/
inductive ComObject where
  | extractor (clock : ℕ)
  | stream (fh : ℕ)
  deriving DecidableEq

/-- None of them is needed by another. -/
def ComObject.needs (_ _ : ComObject) : Bool := false

namespace Extraction

open Extractor (Point Extracts callback onExtractor deletes ops)

abbrev ExtractM := Run ComObject Escape

def endingOf {A : Type} : Except Escape A → Ending Escape A
  | .ok a => .ret a
  | .error (.exn what) => .throw what
  | .error e => .stop e

def ofExcept {A : Type} (x : Except Escape A) : ExtractM A := ⟨[], endingOf x⟩

/-- The object a call goes to. -/
def objectOf (clock fh : ℕ) (c : Call) : ComObject := if onExtractor c then .extractor clock else .stream fh

/-- What an answered call does. -/
def eventsOf (clock fh : ℕ) (x : Call × Reply) : List (Ev ComObject) :=
  .use (objectOf clock fh x.1) :: if deletes x then [.drop (.stream fh)] else []

/-- What a call does that is not answered. A `Release` of the extractor is not
when it is the last: it deletes the extractor, which has the stream. -/
def unanswered (clock fh : ℕ) : Call → List (Ev ComObject)
  | .release => [.use (.extractor clock), .drop (.extractor clock), .drop (.stream fh)]
  | c => [.use (objectOf clock fh c)]

/-- `Extract`, from some point on. -/
def decoding (env : Env) (clock fh : ℕ) : Decoder → Extractor → ExtractM (HRESULT × Extractor)
  | .ret hr, s => pure (hr, s)
  | .call c k, s =>
    match callback env s c with
    | .ok (r, s') => do
      Run.emit (eventsOf clock fh (c, r))
      decoding env clock fh (k r) s'
    | .error e => do
      Run.emit (unanswered clock fh c)
      ofExcept (.error e)

/-- The `Release` at the end of `extract`. The last one deletes the extractor,
and the stream where it still has it. -/
def letGo (clock : ℕ) (refCounter : UInt32) (file : List ComObject) : List (Ev ComObject) :=
  .use (.extractor clock) ::
    if release refCounter = 0 then .drop (.extractor clock) :: file.map .drop else []

/-- `extract`, with `execute`: the stream for the caller, and the clock. -/
def extract (env : Env) (fh clock : ℕ) (index : UInt32) : ExtractM (FileWriteStream × ℕ) := do
  Run.emit [.make (.extractor clock)]
  let file ← Run.undoing (ofExcept (FileWriteStream.new (env.libc clock))) (letGo clock 1 [])
  Run.emit [.make (.stream fh), .use (.stream fh)]
  let (hr, s) ← decoding env clock fh (env.extract clock index) (Extractor.initial file (clock + 1))
  let _ ← Run.undoing (ofExcept (checkCom hr "Extract")) (letGo clock s.refCounter [.stream fh])
  Run.emit [.use (.stream fh)]
  match s.file with
  | some file => do
    Run.emit (letGo clock s.refCounter [])
    return ((file.fileSeek 0 0 (env.libc s.clock)).2, s.clock + 1)
  | none => ofExcept (.error (.ub .freedStream))

/-- `ci_iterator::extract` -/
def extractAt (env : Env) (fh clock : ℕ) (it : CiIterator) : ExtractM (FileWriteStream × ℕ) :=
  if it.seq then extract env fh clock it.index else ofExcept (.error (.ub .nullArchive))

/-! ### How it ends -/

variable {A B : Type}

theorem ending_bind {x : ExtractM A} {y : Except Escape A} (h : x.ending = endingOf y) {f : A → ExtractM B}
    {g : A → Except Escape B} (hf : ∀ a, (f a).ending = endingOf (g a)) : (x >>= f).ending = endingOf (y >>= g) := by
  show (Run.bind x f).ending = _
  unfold Run.bind
  rw [h]
  cases y with
  | ok a => exact hf a
  | error e => cases e <;> rfl

theorem decoding_ending (env : Env) (clock fh : ℕ) (d : Decoder) (s : Extractor) :
    (decoding env clock fh d s).ending = endingOf (d.run (callback env) s) := by
  induction d generalizing s with
  | ret hr => rfl
  | call c k ih =>
    rw [decoding, Client.run]
    cases callback env s c with
    | ok reply => exact ih reply.1 reply.2
    | error e => rfl

/-- The extraction is that of the model without the objects. -/
theorem extract_ending (env : Env) (fh clock : ℕ) (index : UInt32) :
    (extract env fh clock index).ending = endingOf (Extractor.execute env clock index) := by
  unfold extract Extractor.execute
  rw [Run.emit_bind_ending]
  refine ending_bind (Run.undoing_ending _ _) fun file => ?_
  rw [Run.emit_bind_ending]
  refine ending_bind (decoding_ending env clock fh _ _) fun ⟨hr, s⟩ => ?_
  refine ending_bind (Run.undoing_ending _ _) fun _ => ?_
  rw [Run.emit_bind_ending]
  cases s.file with
  | none => rfl
  | some file => rfl

theorem extractAt_ending (env : Env) (fh clock : ℕ) (it : CiIterator) :
    (extractAt env fh clock it).ending = endingOf (it.extract env clock) := by
  unfold extractAt CiIterator.extract
  split_ifs
  · exact extract_ending env fh clock it.index
  · rfl

/-! ### The counter of the extractor -/

/-- What an answered call does to the extractor's counter. -/
def opOf : Call × Reply → Option Op
  | (.addRef, _) => some .add
  | (.queryInterface _, r) => if r.object then some .add else none
  | (.release, _) => some .drop
  | _ => none

def extractorOps (tr : List (Call × Reply)) : List Op := tr.filterMap opOf

theorem release_of_drop {c : Call} {r : Reply} (h : opOf (c, r) = some .drop) : c = .release := by
  cases c with
  | release => rfl
  | queryInterface riid =>
    simp only [opOf] at h
    split_ifs at h
    cases h
  | _ => cases h

theorem extractorOps_concat (tr : List (Call × Reply)) (x : Call × Reply) :
    extractorOps (tr ++ [x]) = extractorOps tr ++ (opOf x).toList := by
  rw [extractorOps, List.filterMap_append]
  cases h : opOf x <;> simp [extractorOps, h]

/-- A call on the stream leaves the extractor's counter as it is. -/
theorem refCounter_onStream {env : Env} {s s' : Extractor} {c : Call} {r : Reply} (hon : onExtractor c = false)
    (h : callback env s c = .ok (r, s')) : s'.refCounter = s.refCounter := by
  cases Extractor.callback_answered h with
  | extractor hon' => exact absurd hon' (by rw [hon]; decide)
  | _ => rfl

/-- An answered call is an operation of the counter, which does not come to 0. -/
theorem refCounter_answered {env : Env} {s s' : Extractor} {c : Call} {r : Reply} (h : callback env s c = .ok (r, s')) :
    some s'.refCounter = RefCount.run (some s.refCounter) (opOf (c, r)).toList := by
  by_cases hon : onExtractor c = true
  · cases c with
    | setTotal size => cases h; rfl
    | setCompleted v => cases v <;> cases h <;> rfl
    | getStream index mode => cases h; rfl
    | prepareOperation mode => cases h; rfl
    | setOperationResult res => cases h; rfl
    | addRef => cases h; rfl
    | queryInterface riid => cases riid <;> cases h <;> rfl
    | cryptoGetTextPassword =>
      obtain ⟨pass, -, h⟩ := bind_eq_ok.mp (Extractor.noexcept_eq_ok.mp h)
      cases h
      rfl
    | release =>
      simp only [callback] at h
      split_ifs at h with h0
      cases h
      exact (if_neg h0).symm
    | _ => cases hon
  · rw [Bool.not_eq_true] at hon
    rw [refCounter_onStream hon h]
    cases c <;> first | rfl | cases hon

/-- A conversion throws, and does nothing that is undefined. -/
theorem wideStr_throws {loc : Locale} {str : Str} {e : Escape} (h : wideStr loc str = .error e) :
    ∃ what, e = .exn what := by
  unfold wideStr withDescriptor at h
  cases hw : loc.wchar with
  | none =>
    rw [hw] at h
    cases h
    exact ⟨_, rfl⟩
  | some cd =>
    simp only [hw, iconv] at h
    split at h
    · split_ifs at h
      · cases h
      · cases h
        exact ⟨_, rfl⟩
    · cases h
      exact ⟨_, rfl⟩

/-- What the conversion of the password throws goes no further than the call. -/
theorem terminate_of_password {env : Env} {s : Extractor} {e : Escape}
    (h : callback env s .cryptoGetTextPassword = .error e) : e = .terminate := by
  simp only [callback] at h
  cases hw : wideStr env.toLocale env.password with
  | ok pass =>
    rw [hw] at h
    cases h
  | error e' =>
    obtain ⟨what, rfl⟩ := wideStr_throws hw
    rw [hw] at h
    cases h
    rfl

theorem terminate_of_setSize {this : FileWriteStream} {newSize : UInt64} {o o' : Stdio.Outcome} {e : Escape}
    (h : this.setSize newSize o o' = .error e) : e = .terminate := by
  cases ht : this.file.ftruncate newSize.toNat o with
  | none =>
    rw [FileWriteStream.setSize_terminate ht] at h
    cases h
    rfl
  | some file =>
    rw [FileWriteStream.setSize_ok ht] at h
    cases h

/-- In the extraction, the decoder keeps to COM's rules. Of the stream it never
gives back more than one reference that it did not add; of the extractor, only
references that it has, and all of them by the time it returns. Its references fit
in 32 bits. -/
structure KeepsRules (env : Env) (clock : ℕ) (index : UInt32) : Prop where
  stream : ∀ tr d s, Point env clock index tr d s → Balanced 2 (ops tr)
  has : ∀ tr k s, Point env clock index tr (.call .release k) s → drops (extractorOps tr) < adds (extractorOps tr)
  fits : ∀ tr d s, Point env clock index tr d s → 1 + adds (extractorOps tr) < drops (extractorOps tr) + 2 ^ 32
  back : ∀ tr hr s, Point env clock index tr (.ret hr) s → adds (extractorOps tr) = drops (extractorOps tr)

section rules

variable {env : Env} {clock : ℕ} {index : UInt32} (rules : KeepsRules env clock index)

include rules

/-- With a decoder that keeps the rules the counter is one more than the
references it has. -/
theorem KeepsRules.counted {tr : List (Call × Reply)} {d : Decoder} {s : Extractor} (hp : Point env clock index tr d s) :
    RefCount.Counted 1 (extractorOps tr) (some s.refCounter) ∧ drops (extractorOps tr) ≤ adds (extractorOps tr) := by
  suffices Point env clock index tr d s ∧ RefCount.Counted 1 (extractorOps tr) (some s.refCounter) ∧
      drops (extractorOps tr) ≤ adds (extractorOps tr) from this.2
  refine hp.invariant_at (I := fun tr d s => Point env clock index tr d s ∧
    RefCount.Counted 1 (extractorOps tr) (some s.refCounter) ∧ drops (extractorOps tr) ≤ adds (extractorOps tr))
    ⟨.here _ _, ⟨1, rfl, rfl⟩, Nat.le_refl 0⟩ ?_
  intro tr c k s r s' ⟨hp, hcounted, hle⟩ hc
  have hp' : Point env clock index (tr ++ [(c, r)]) (k r) s' := hp.trans (.call hc (.here _ _))
  have hlive : Live (some s.refCounter) := hcounted.live_iff.mpr ⟨by omega, rules.fits tr _ s hp⟩
  have hfits := rules.fits _ _ _ hp'
  have hcount := refCounter_answered hc
  refine ⟨hp', ?_⟩
  rw [extractorOps_concat] at hfits ⊢
  cases ho : opOf (c, r) with
  | none =>
    rw [ho] at hcount
    rw [Option.toList_none, List.append_nil, hcount]
    exact ⟨hcounted, hle⟩
  | some o =>
    rw [ho, Option.toList_some] at hcount hfits
    rw [Option.toList_some, hcount]
    have hle' : drops (extractorOps tr ++ [o]) ≤ adds (extractorOps tr ++ [o]) := by
      refine RefCount.drops_le_adds_concat hle ?_
      rintro rfl
      obtain rfl := release_of_drop ho
      exact rules.has tr k s hp
    obtain ⟨hiff, hnext⟩ := hcounted.step hlive o
    have hbal : Balanced 1 (extractorOps tr ++ [o]) := ⟨by omega, hfits⟩
    exact ⟨hnext (hiff.mpr hbal), hle'⟩

/-- There is the stream at every point. -/
theorem KeepsRules.file_ne_none {tr : List (Call × Reply)} {d : Decoder} {s : Extractor}
    (hp : Point env clock index tr d s) : s.file ≠ none :=
  Extractor.file_ne_none_of_live ((Extractor.live_points_iff env clock index).mpr rules.stream tr d s hp)

/-- A `Release` of the extractor is not the last. -/
theorem KeepsRules.release_ne_zero {tr : List (Call × Reply)} {k : Reply → Decoder} {s : Extractor}
    (hp : Point env clock index tr (.call .release k) s) : release s.refCounter ≠ 0 := by
  obtain ⟨⟨n, hn, hcount⟩, -⟩ := rules.counted hp
  have hhas := rules.has tr k s hp
  cases hn
  have hle : (1 : UInt32) ≤ s.refCounter := UInt32.le_iff_toNat_le.mpr (by rw [UInt32.toNat_one]; omega)
  rw [RefCount.toNat_ne_zero, release, UInt32.toNat_sub_of_le _ _ hle, UInt32.toNat_one]
  omega

/-- When `Extract` returns, the extractor's only reference is the program's. -/
theorem KeepsRules.refCounter_eq_one {tr : List (Call × Reply)} {hr : HRESULT} {s : Extractor}
    (hp : Point env clock index tr (.ret hr) s) : s.refCounter = 1 := by
  obtain ⟨⟨n, hn, hcount⟩, -⟩ := rules.counted hp
  have hback := rules.back tr hr s hp
  cases hn
  rw [← UInt32.toNat_inj, UInt32.toNat_one]
  omega

/-- The only call that is not answered is one that terminates the process. -/
theorem KeepsRules.terminates {tr : List (Call × Reply)} {c : Call} {k : Reply → Decoder} {s : Extractor}
    (hp : Point env clock index tr (.call c k) s) {e : Escape} (h : callback env s c = .error e) : e = .terminate := by
  have hfile := rules.file_ne_none hp
  have hunsafe : ¬ Extractor.CallSafe env s c := by
    intro hsafe
    obtain ⟨p, hp⟩ := (Extractor.callback_returns_iff env s c).mpr hsafe
    cases h.symm.trans hp
  cases c with
  | release =>
    refine absurd (fun h1 : s.refCounter = 1 => rules.release_ne_zero hp ?_) hunsafe
    rw [h1]
    rfl
  | cryptoGetTextPassword => exact terminate_of_password h
  | setSize newSize =>
    obtain ⟨file, hs⟩ := Option.ne_none_iff_exists'.mp hfile
    simp only [callback, Extractor.onStream, hs] at h
    cases hset : file.setSize newSize (env.libc s.clock) (env.libc (s.clock + 1)) with
    | ok r =>
      rw [hset] at h
      cases h
    | error e' =>
      obtain rfl := terminate_of_setSize hset
      rw [hset] at h
      cases h
      rfl
  | streamAddRef => exact absurd hfile hunsafe
  | streamRelease => exact absurd hfile hunsafe
  | streamQueryInterface riid => exact absurd hfile hunsafe
  | write data => exact absurd hfile hunsafe
  | seek offset origin => exact absurd hfile hunsafe
  | _ => exact absurd trivial hunsafe

/-! ### What is there -/

/-- `Extract` uses the extractor and the stream, and both are there behind it. -/
theorem KeepsRules.decoding_meets (fh : ℕ) {tr : List (Call × Reply)} {d : Decoder} {s : Extractor} (hp : Point env clock index tr d s)
    {live : List ComObject} (hext : .extractor clock ∈ live) (hstream : .stream fh ∈ live) :
    Meets ComObject.needs (decoding env clock fh d s) live fun e l =>
      match e with
      | .ret (hr, s') => l = live ∧ ∃ tr', Point env clock index tr' (.ret hr) s'
      | .throw _ => False
      | .stop e => e = .terminate := by
  have hobject : ∀ c, objectOf clock fh c ∈ live := by
    intro c
    unfold objectOf
    split_ifs
    · exact hext
    · exact hstream
  induction d generalizing tr s with
  | ret hr => exact Raii.meets_pure ⟨rfl, tr, hp⟩
  | call c k ih =>
    rw [decoding]
    cases hc : callback env s c with
    | ok reply =>
      obtain ⟨r, s'⟩ := reply
      have hp' : Point env clock index (tr ++ [(c, r)]) (k r) s' := hp.trans (.call hc (.here _ _))
      have hkeeps : ¬ deletes (c, r) = true := fun hdel =>
        rules.file_ne_none hp' (Extractor.file_eq_none_of_deletes hp' (List.mem_append_right _ (List.mem_singleton_self _)) hdel)
      refine Raii.meets_emit ?_ (ih r hp')
      rw [eventsOf, if_neg hkeeps]
      exact Raii.observes_use (hobject c)
    | error e =>
      obtain rfl := rules.terminates hp hc
      have hnot : c ≠ .release := by
        rintro rfl
        simp only [callback, if_neg (rules.release_ne_zero hp)] at hc
        cases hc
      have hevents : unanswered clock fh c = [.use (objectOf clock fh c)] := by
        cases c <;> first | rfl | exact absurd rfl hnot
      have hobs : observes ComObject.needs live (unanswered clock fh c) = some live := by
        rw [hevents]
        exact Raii.observes_use (hobject c)
      exact Raii.meets_emit hobs (Raii.meets_stop rfl)

omit rules in
/-- The last `Release` deletes the extractor. -/
theorem observes_letGo {before base : List ComObject} (hb : .extractor clock ∉ before) :
    observes ComObject.needs (before ++ .extractor clock :: base) (letGo clock 1 []) = some (before ++ base) := by
  have hmem : ComObject.extractor clock ∈ before ++ .extractor clock :: base :=
    List.mem_append_right before List.mem_cons_self
  exact (Raii.observes_first (Raii.observes_use hmem)).trans (Raii.observes_drop hb fun _ _ => rfl)

omit rules in
/-- It deletes the stream, too, that the extractor still has. -/
theorem observes_letGo_file {fh : ℕ} {base : List ComObject} :
    observes ComObject.needs (.stream fh :: .extractor clock :: base) (letGo clock 1 [.stream fh]) = some base := by
  have hb : ComObject.extractor clock ∉ [ComObject.stream fh] := fun h => by cases List.mem_singleton.mp h
  exact (Raii.observes_append (observes_letGo hb)).trans (Raii.observes_drop_newest fun _ _ => rfl)

omit rules in
theorem new_throws {o : Stdio.Outcome} {e : Escape} (h : FileWriteStream.new o = .error e) : ∃ what, e = .exn what := by
  unfold FileWriteStream.new checkResult at h
  split at h
  · cases h
  · cases h
    exact ⟨_, rfl⟩

/-- **An extraction leaves its stream where it returns, and nothing where it
throws.** -/
theorem KeepsRules.extract_meets {fh : ℕ} {base : List ComObject} (hext : .extractor clock ∉ base) (hstream : .stream fh ∉ base) :
    Meets ComObject.needs (extract env fh clock index) base fun e l =>
      match e with
      | .ret _ => l = .stream fh :: base
      | .throw _ => l = base
      | .stop e => e = .terminate := by
  have hstream' : .stream fh ∉ .extractor clock :: base := by
    rw [List.mem_cons, not_or]
    exact ⟨(fun h => by cases h), hstream⟩
  unfold extract
  refine Raii.meets_emit (Raii.observes_make hext) (Raii.meets_bind (Raii.meets_undoing ?_))
  cases hnew : FileWriteStream.new (env.libc clock) with
  | error e =>
    obtain ⟨what, rfl⟩ := new_throws hnew
    have hb : ComObject.extractor clock ∉ ([] : List ComObject) := List.not_mem_nil
    exact ⟨_, rfl, base, observes_letGo hb, rfl⟩
  | ok file =>
    obtain ⟨-, rfl⟩ := FileWriteStream.new_eq_ok.mp hnew
    have hmade : observes ComObject.needs (.extractor clock :: base) [.make (.stream fh), .use (.stream fh)] =
        some (.stream fh :: .extractor clock :: base) :=
      (Raii.observes_first (Raii.observes_make hstream')).trans (Raii.observes_use List.mem_cons_self)
    refine ⟨_, rfl, Raii.meets_emit hmade (Raii.meets_bind ?_)⟩
    refine (rules.decoding_meets fh (.here _ _) (List.mem_cons_of_mem _ List.mem_cons_self) List.mem_cons_self).mono ?_
    rintro (⟨hr, s⟩ | what | e) l hl
    · obtain ⟨rfl, tr, hp⟩ := hl
      obtain ⟨file, hfile⟩ := Option.ne_none_iff_exists'.mp (rules.file_ne_none hp)
      refine Raii.meets_bind (Raii.meets_undoing ?_)
      rw [rules.refCounter_eq_one hp]
      by_cases hhr : failed hr
      · rw [checkCom_failed hhr]
        exact ⟨_, rfl, base, observes_letGo_file, rfl⟩
      · have hb : ComObject.extractor clock ∉ [ComObject.stream fh] := fun h => by cases List.mem_singleton.mp h
        rw [checkCom_ok hhr]
        refine ⟨_, rfl, Raii.meets_emit (Raii.observes_use List.mem_cons_self) ?_⟩
        simp only [hfile]
        exact Raii.meets_emit (observes_letGo hb) (Raii.meets_pure rfl)
    · exact hl.elim
    · exact hl

end rules

end Extraction

namespace Fuse

open Extraction
open Extractor (ops)

/-! ### Requests -/

/-- `cb_open`. The new stream's address is the handle. -/
def opening (env : Env) (m : Mount) (path : Str) (fi : FuseFileInfo) : ExtractM (Int32 × FuseFileInfo × Mount) :=
  match m.tree.find? ⟨path⟩ with
  | none => pure (-enoent, fi, m)
  | some el =>
    if overLimit env el.2 then pure (-e2big, fi, m)
    else do
      let fh := env.malloc (m.handles.entries.map Prod.fst)
      let (tmpfile, clock) ← extractAt env fh m.clock el.1
      return (0, { fi with fh := fh },
        { m with handles := m.handles.insertOrAssign fh tmpfile, clock := clock })

/-- The callback for a request. -/
def serving (env : Env) (m : Mount) : Request → ExtractM (Response × Mount)
  | .open path => do
    let (ret, fi, m) ← opening env m path {}
    return (.opened ret fi, m)
  | .read fh size offset => do
    Run.emit [.use (.stream fh)]
    ofExcept (serve env m (.read fh size offset))
  | .release fh => do
    Run.emit [.drop (.stream fh)]
    ofExcept (serve env m (.release fh))

/-- One more request. -/
def andThen (env : Env) (x : ExtractM (List Response × Mount)) (req : Request) : ExtractM (List Response × Mount) := do
  let (resps, m) ← x
  let (resp, m) ← serving env m req
  return (resps ++ [resp], m)

/-- Requests one after the other, from the mounted tree. -/
def servings (env : Env) (tree : FileTree) (reqs : List Request) : ExtractM (List Response × Mount) :=
  reqs.foldl (andThen env) (pure ([], .fresh tree))

/-- The requests of a session, and one more. -/
def oneMore (env : Env) (tree : FileTree) (hist : List Exchange) (req : Request) : ExtractM (List Response × Mount) :=
  servings env tree (hist.map Prod.fst ++ [req])

theorem servings_concat (env : Env) (tree : FileTree) (reqs : List Request) (req : Request) :
    servings env tree (reqs ++ [req]) = andThen env (servings env tree reqs) req := by
  rw [servings, List.foldl_append]
  rfl

theorem opening_ending (env : Env) (m : Mount) (path : Str) (fi : FuseFileInfo) :
    (opening env m path fi).ending = endingOf (cbOpen env m path fi) := by
  unfold opening cbOpen
  cases m.tree.find? ⟨path⟩ with
  | none => rfl
  | some el =>
    dsimp only
    split_ifs with hlim
    · rfl
    · exact ending_bind (extractAt_ending env _ _ _) fun _ => rfl

/-- The responses are those of the mount without the objects. -/
theorem serving_ending (env : Env) (m : Mount) (req : Request) :
    (serving env m req).ending = endingOf (serve env m req) := by
  cases req with
  | «open» path => exact ending_bind (opening_ending env m path {}) fun _ => rfl
  | read fh size offset => rfl
  | release fh => rfl

/-! ### Sessions -/

/-- A stream is there when its handle is open. -/
theorem stream_mem_iff {env : Env} {tree : FileTree} {hist : List Exchange} {m : Mount} {view : View}
    (hsession : Session env tree hist m view) {l : List ComObject} (hl : l.Perm ((live hist).map .stream)) (fh : ℕ) :
    .stream fh ∈ l ↔ m.handles.find? fh ≠ none := by
  rw [hl.mem_iff, hsession.run.tracks.2.find_ne_none, ← hsession.counted.mem]
  constructor
  · intro hmem
    obtain ⟨k, hk, h⟩ := List.mem_map.mp hmem
    cases h
    exact hk
  · exact fun hmem => List.mem_map_of_mem hmem

section session

variable {loc : Locale} {arc : ImplArchive} {allowOther : Bool} {tree : FileTree} {env : Env}
  (htree : execute loc arc allowOther = .ok tree) (rules : ∀ clock index, KeepsRules env clock index)

include htree rules

theorem opening_meets {hist : List Exchange} {m : Mount} {view : View} (hsession : Session env tree hist m view)
    {path : Str} (hlegal : Legal m.tree view (.open path)) {l : List ComObject} (hl : l.Perm ((live hist).map .stream)) :
    Meets ComObject.needs (opening env m path {}) l fun e l' =>
      match e with
      | .ret (ret, fi, _) => l'.Perm ((live (hist ++ [(.open path, .opened ret fi)])).map .stream)
      | .throw _ => l'.Perm ((live hist).map .stream)
      | .stop e => e = .terminate := by
  obtain ⟨hfound, hreg⟩ := hlegal
  unfold opening
  cases hel : m.tree.find? ⟨path⟩ with
  | none =>
    rw [cbGetattr, hel] at hfound
    exact absurd hfound (by decide)
  | some el =>
    dsimp only
    split_ifs with hlim
    · have hlive : live (hist ++ [(.open path, .opened (-e2big) {})]) = live hist := live_concat hist _
      refine Raii.meets_pure ?_
      show l.Perm ((live (hist ++ [(.open path, .opened (-e2big) {})])).map .stream)
      rw [hlive]
      exact hl
    · have hseq : el.1.seq = true := by
        rw [cbGetattr_of_find path hel] at hreg
        rcases entry_cases htree (hsession.run.tracks.1 ▸ hel) with ⟨i, it, item, -, -, rfl, -⟩ | ⟨-, hdir⟩
        · rfl
        · exact absurd hreg (not_isReg_of_isDir hdir)
      have hext : ComObject.extractor m.clock ∉ l := by
        intro hmem
        obtain ⟨_, -, h⟩ := List.mem_map.mp (hl.mem_iff.mp hmem)
        cases h
      have hstream : ComObject.stream (env.malloc (m.handles.entries.map Prod.fst)) ∉ l := by
        rw [stream_mem_iff hsession hl, ← mem_keys_iff]
        exact env.malloc_fresh _
      refine Raii.meets_bind ?_
      rw [extractAt, if_pos hseq]
      refine ((rules m.clock el.1.index).extract_meets hext hstream).mono ?_
      rintro (⟨tmpfile, clock⟩ | what | e) l' h
      · obtain rfl := h
        refine Raii.meets_pure ?_
        show List.Perm (_ :: l) ((live (hist ++ [(.open path, .opened 0 _)])).map .stream)
        rw [live_concat]
        exact hl.cons _
      · obtain rfl := h
        exact hl
      · exact h

/-- The streams there are the open handles'. -/
theorem serving_meets {hist : List Exchange} {m : Mount} {view : View} (hsession : Session env tree hist m view)
    {req : Request} (hlegal : Legal m.tree view req) {l : List ComObject} (hl : l.Perm ((live hist).map .stream)) :
    Meets ComObject.needs (serving env m req) l fun e l' =>
      match e with
      | .ret (resp, _) => l'.Perm ((live (hist ++ [(req, resp)])).map .stream)
      | .throw _ => l'.Perm ((live hist).map .stream)
      | .stop e => e = .terminate := by
  cases req with
  | «open» path =>
    refine Raii.meets_bind ((opening_meets htree rules hsession hlegal hl).mono ?_)
    rintro (⟨ret, fi, m'⟩ | what | e) l' h
    · exact Raii.meets_pure h
    · exact h
    · exact h
  | read fh size offset =>
    obtain ⟨hfh, -, -⟩ := hlegal
    have hne := (hsession.run.tracks.2.find_ne_none fh).mpr hfh
    obtain ⟨ret, bytes, m', hread⟩ := ((comes_back_iff env m fh).2.2 size offset).1 hne
    have hserve : serve env m (.read fh size offset) = .ok (.data ret bytes, m') := bind_eq_ok.mpr ⟨_, hread, rfl⟩
    refine Raii.meets_emit (Raii.observes_use ((stream_mem_iff hsession hl fh).mpr hne)) ?_
    have hsame : live (hist ++ [(.read fh size offset, .data ret bytes)]) = live hist := live_concat hist _
    rw [hserve]
    refine Raii.meets_pure ?_
    show l.Perm ((live (hist ++ [(.read fh size offset, .data ret bytes)])).map .stream)
    rw [hsame]
    exact hl
  | release fh =>
    have hne := (hsession.run.tracks.2.find_ne_none fh).mpr hlegal
    obtain ⟨m', hrel⟩ := (comes_back_iff env m fh).1 hne
    have hserve : serve env m (.release fh) = .ok (.released 0, m') := bind_eq_ok.mpr ⟨_, hrel, rfl⟩
    have hdrop : observes ComObject.needs l [.drop (.stream fh)] = some (l.erase (.stream fh)) := by
      rw [Raii.observes_singleton]
      exact if_pos ⟨(stream_mem_iff hsession hl fh).mpr hne, fun _ _ => rfl⟩
    refine Raii.meets_emit hdrop ?_
    have hlive : live (hist ++ [(.release fh, .released 0)]) = (live hist).erase fh := live_concat hist _
    rw [hserve]
    refine Raii.meets_pure ?_
    show (l.erase (.stream fh)).Perm ((live (hist ++ [(.release fh, .released 0)])).map .stream)
    rw [hlive, List.map_erase fun _ _ h => ComObject.stream.inj h]
    exact hl.erase _

/-- The requests of a session get the session's responses. -/
theorem servings_meets {hist : List Exchange} {m : Mount} {view : View} (hsession : Session env tree hist m view) :
    Meets ComObject.needs (servings env tree (hist.map Prod.fst)) [] fun e l =>
      e = .ret (hist.map Prod.snd, m) ∧ l.Perm ((live hist).map .stream) := by
  induction hsession with
  | start => exact Raii.meets_pure ⟨rfl, List.Perm.refl _⟩
  | @step hist m m' view req resp hsession hlegal hserve ih =>
    rw [List.map_append, List.map_append, List.map_singleton, List.map_singleton, servings_concat]
    refine Raii.meets_bind (ih.mono ?_)
    rintro e l ⟨rfl, hl⟩
    refine Raii.meets_bind ((serving_meets htree rules hsession hlegal hl).with_ending.mono ?_)
    rintro e l' ⟨he, hpost⟩
    rw [serving_ending, hserve] at he
    subst he
    exact Raii.meets_pure ⟨rfl, hpost⟩

theorem oneMore_meets {hist : List Exchange} {m : Mount} {view : View} (hsession : Session env tree hist m view)
    {req : Request} (hlegal : Legal m.tree view req) :
    Meets ComObject.needs (oneMore env tree hist req) [] fun e l =>
      (∀ resp m', serve env m req = .ok (resp, m') →
        e = .ret (hist.map Prod.snd ++ [resp], m') ∧ l.Perm ((live (hist ++ [(req, resp)])).map .stream)) ∧
      (∀ what, serve env m req = .error (.exn what) → e = .throw what ∧ l.Perm ((live hist).map .stream)) ∧
      ∀ u, serve env m req ≠ .error (.ub u) := by
  rw [oneMore, servings_concat]
  refine Raii.meets_bind ((servings_meets htree rules hsession).mono ?_)
  rintro e l ⟨rfl, hl⟩
  refine Raii.meets_bind ((serving_meets htree rules hsession hlegal hl).with_ending.mono ?_)
  rintro e l' ⟨he, hpost⟩
  rw [serving_ending] at he
  cases hs : serve env m req with
  | ok r =>
    rw [hs] at he
    subst he
    refine Raii.meets_pure ⟨fun resp m' h => ?_, (fun what h => by cases h), (fun u h => by cases h)⟩
    cases h
    exact ⟨rfl, hpost⟩
  | error e' =>
    rw [hs] at he
    subst he
    cases e' with
    | exn what =>
      refine ⟨(fun resp m' h => by cases h), fun what' h => ?_, (fun u h => by cases h)⟩
      cases h
      exact ⟨rfl, hpost⟩
    | terminate => exact ⟨(fun resp m' h => by cases h), (fun what h => by cases h), (fun u h => by cases h)⟩
    | ub u =>
      have hterm : Escape.ub u = .terminate := hpost
      cases hterm

/-- **The objects of a mount are there while they are used, and no longer.**
In any session with decoders that keep COM's rules, and one more request: no
extractor and no stream is used or deleted when it is not there. Where the
request comes back there are the streams of the open handles and nothing else;
where it throws there is what was there before it; and it does nothing that is
undefined. Each object is deleted as often as it was made, unless it is there. -/
theorem session_keeps {hist : List Exchange} {m : Mount} {view : View} (hsession : Session env tree hist m view)
    {req : Request} (hlegal : Legal m.tree view req) :
    ∃ l, observes ComObject.needs [] (oneMore env tree hist req).log = some l ∧
      (∀ o, l.count o + (oneMore env tree hist req).log.count (.drop o) = (oneMore env tree hist req).log.count (.make o)) ∧
      (∀ resp m', serve env m req = .ok (resp, m') →
        (oneMore env tree hist req).ending = .ret (hist.map Prod.snd ++ [resp], m') ∧
        l.Perm ((live (hist ++ [(req, resp)])).map .stream)) ∧
      (∀ what, serve env m req = .error (.exn what) →
        (oneMore env tree hist req).ending = .throw what ∧ l.Perm ((live hist).map .stream)) ∧
      ∀ u, serve env m req ≠ .error (.ub u) := by
  obtain ⟨l, hobs, hpost⟩ := oneMore_meets htree rules hsession hlegal
  refine ⟨l, hobs, fun o => ?_, hpost⟩
  rw [Raii.made_eq_dropped hobs o, List.count_nil, Nat.zero_add]

end session

/-- A decoder that takes a reference to the extractor, writes to the stream, and
gives both back. -/
def referring (data : List UInt8) : Decoder :=
  .call .addRef fun _ => .call (.getStream 0 kExtract) fun _ => .call (.write data) fun _ =>
    .call .streamRelease fun _ => .call .release fun _ => .ret sOk

theorem referring_follows (data : List UInt8) {tr : List (Call × Reply)} {d : Decoder}
    (h : Client.Follows (referring data) tr d) : (ops tr = [] ∨ ops tr = [.drop]) ∧
      (extractorOps tr = [] ∧ d = referring data ∨ extractorOps tr = [.add] ∧ (∀ hr, d ≠ .ret hr) ∨
        extractorOps tr = [.add, .drop] ∧ d = .ret sOk) := by
  cases h with
  | here => exact ⟨.inl rfl, .inl ⟨rfl, rfl⟩⟩
  | call h =>
    cases h with
    | here => exact ⟨.inl rfl, .inr (.inl ⟨rfl, fun _ h => by cases h⟩)⟩
    | call h =>
      cases h with
      | here => exact ⟨.inl rfl, .inr (.inl ⟨rfl, fun _ h => by cases h⟩)⟩
      | call h =>
        cases h with
        | here => exact ⟨.inl rfl, .inr (.inl ⟨rfl, fun _ h => by cases h⟩)⟩
        | call h =>
          cases h with
          | here => exact ⟨.inr rfl, .inr (.inl ⟨rfl, fun _ h => by cases h⟩)⟩
          | call h =>
            cases h
            exact ⟨.inr rfl, .inr (.inr ⟨rfl, rfl⟩)⟩

theorem keepsRules_referring (data : List UInt8) (clock : ℕ) (index : UInt32) :
    KeepsRules (Env.plain (referring data)) clock index := by
  refine ⟨fun tr d s hp => ?_, fun tr k s hp => ?_, fun tr d s hp => ?_, fun tr hr s hp => ?_⟩
  all_goals obtain ⟨hstream, hext⟩ := referring_follows data hp.follows
  · rcases hstream with h | h <;> rw [h] <;> exact ⟨by decide, by decide⟩
  · rcases hext with ⟨-, h⟩ | ⟨h, -⟩ | ⟨-, h⟩
    · cases h
    · rw [h]
      decide
    · cases h
  · rcases hext with ⟨h, -⟩ | ⟨h, -⟩ | ⟨h, -⟩ <;> rw [h] <;> decide
  · rcases hext with ⟨-, h⟩ | ⟨-, h⟩ | ⟨h, -⟩
    · cases h
    · exact absurd rfl (h hr)
    · rw [h]
      rfl

/-- After an open with such a decoder there is the stream, and no extractor. -/
theorem session_keeps_referring : observes ComObject.needs []
    (oneMore (Env.plain (referring [1, 2, 3])) (Mount.single (.file ['a'] 3)).tree [] (.open ['/', 'a'])).log =
      some [.stream 1] := by
  have hlim : ¬ overLimit (Env.plain (referring [1, 2, 3])) (fileStat zeroStat (.file ['a'] 3)) := by
    decide +kernel
  have hlegal : Legal (Mount.single (.file ['a'] 3)).tree (fun _ => none) (.open ['/', 'a']) := by
    rw [Legal, cbGetattr_of_find _ (find_single 3)]
    decide
  obtain ⟨l, hobs, -, hret, -⟩ := session_keeps (shownAt_single (sOk, .ui8 3)).mounted
    (keepsRules_referring [1, 2, 3]) .start hlegal
  obtain ⟨-, hl⟩ := hret _ _ (serve_open (cbOpen_of_extract {} (find_single 3) hlim rfl))
  obtain rfl := List.perm_singleton.mp hl
  exact hobs

end Fuse

end Fuse3P7zip
