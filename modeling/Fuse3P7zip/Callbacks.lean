/-
# The calls of a decoder, one by one

What the program does in one call that it answers is one of a few things
(`Answered`): a call on the extractor leaves the stream alone, and a call on
the stream changes its reference count or its file (`OnFile`). A call is answered
exactly when it is safe (`callback_returns_iff`), a decoder's run returns
when all its calls are (`run_returns_iff`), and `execute` gives the stream
out when it does (`execute_eq_ok`).
-/
import Fuse3P7zip.Extractor

namespace Fuse3P7zip

open Stdio (Outcome)

namespace Extractor

/-- With a new stream, `Extract` for the entry `index` gets by the exchange
`tr` to the point `d`, with the extractor in state `s`. -/
abbrev Point (env : Env) (clock : ℕ) (index : UInt32) (tr : List (Call × Reply)) (d : Decoder)
    (s : Extractor) : Prop :=
  Client.Reaches (callback env) (env.extract clock index) (initial ⟨1, .tmpfile⟩ (clock + 1)) tr d s

/-- There is a stream, and `Extract` gets to its return of `hr`. -/
def Extracts (env : Env) (clock : ℕ) (index : UInt32) (tr : List (Call × Reply)) (hr : HRESULT)
    (s : Extractor) : Prop :=
  (env.libc clock).tmpfile = true ∧ Point env clock index tr (.ret hr) s

/-- There is at most one such return. -/
theorem Extracts.unique {env : Env} {clock : ℕ} {index : UInt32} {tr tr' : List (Call × Reply)}
    {hr hr' : HRESULT} {s s' : Extractor} (h : Extracts env clock index tr hr s)
    (h' : Extracts env clock index tr' hr' s') : tr' = tr ∧ hr' = hr ∧ s' = s := by
  obtain ⟨h1, h2⟩ := h.2.run_eq
  obtain ⟨h1', h2'⟩ := h'.2.run_eq
  rw [h1] at h1'
  cases h1'
  exact ⟨h2'.symm.trans h2, rfl, rfl⟩

/-- `execute` gives the stream out when `Extract` returns a code that is not
FAILED and the stream is still there. -/
theorem execute_eq_ok {env : Env} {clock c : ℕ} {index : UInt32} {f : FileWriteStream} :
    execute env clock index = .ok (f, c) ↔ ∃ tr hr s file, Extracts env clock index tr hr s ∧
      ¬ failed hr ∧ s.file = some file ∧ f = (file.fileSeek 0 0 (env.libc s.clock)).2 ∧
      c = s.clock + 1 := by
  unfold execute Extracts
  constructor
  · intro h
    obtain ⟨file, hnew, h⟩ := bind_eq_ok.mp h
    obtain ⟨htmp, rfl⟩ := FileWriteStream.new_eq_ok.mp hnew
    obtain ⟨⟨hr, s⟩, hrun, h⟩ := bind_eq_ok.mp h
    obtain ⟨_, hcom, h⟩ := bind_eq_ok.mp h
    have hnf : ¬ failed hr := by
      intro hf
      rw [checkCom_failed hf] at hcom
      cases hcom
    cases hs : s.file with
    | none => rw [hs] at h; cases h
    | some file' =>
      rw [hs] at h
      cases h
      exact ⟨_, hr, s, file', ⟨htmp, Client.run_eq_ok_iff.mp hrun⟩, hnf, hs, rfl, rfl⟩
  · rintro ⟨tr, hr, s, file', ⟨htmp, hreach⟩, hnf, hs, rfl, rfl⟩
    refine bind_eq_ok.mpr ⟨_, FileWriteStream.new_eq_ok.mpr ⟨htmp, rfl⟩,
      bind_eq_ok.mpr ⟨(hr, s), hreach.run_eq.1, ?_⟩⟩
    refine bind_eq_ok.mpr ⟨hr, checkCom_ok hnf _, ?_⟩
    rw [hs]
    rfl

/-! ### Safe callbacks -/

/-- The callback returns: the stream or the extractor it goes to is there and
stays there, `ftruncate` succeeds, the password can be converted. -/
def CallSafe (env : Env) (s : Extractor) : Call → Prop
  | .release => s.refCounter ≠ 1
  | .cryptoGetTextPassword => ∃ pass, wideStr env.toLocale env.password = .ok pass
  | .streamAddRef | .streamRelease | .streamQueryInterface _ | .write _ | .seek _ _ =>
    s.file ≠ none
  | .setSize newSize => s.file ≠ none ∧ (env.libc s.clock).ftruncate = true ∧
    newSize.toNat ≤ Stdio.longMax
  | .setTotal _ | .setCompleted _ | .getStream _ _ | .prepareOperation _ | .setOperationResult _ |
    .addRef | .queryInterface _ => True

theorem onStream_eq_ok {s : Extractor} {f : FileWriteStream → Except Escape (Reply × Extractor)}
    {p : Reply × Extractor} : s.onStream f = .ok p ↔ ∃ file, s.file = some file ∧ f file = .ok p := by
  unfold onStream
  cases hs : s.file with
  | none => simp
  | some file => simp

/-- The call goes to the extractor, not to the stream. -/
def onExtractor : Call → Bool
  | .streamAddRef | .streamRelease | .streamQueryInterface _ | .write _ | .seek _ _ | .setSize _ =>
    false
  | _ => true

/-- What an answered call can have done. -/
inductive Answered (env : Env) (s : Extractor) : Call → Reply → Extractor → Prop
  | extractor {c : Call} {r : Reply} {s' : Extractor} : onExtractor c = true → s'.file = s.file →
      Answered env s c r s'
  | streamAddRef {f : FileWriteStream} : s.file = some f →
      Answered env s .streamAddRef { count := f.addRef.1.toNat } { s with file := some f.addRef.2 }
  | streamRelease {f : FileWriteStream} : s.file = some f →
      Answered env s .streamRelease { count := f.release.1.toNat } { s with file := f.release.2 }
  | streamQueryInterface {f : FileWriteStream} {riid : Iid} : s.file = some f →
      Answered env s (.streamQueryInterface riid)
        { hr := (f.queryInterface riid).1, object := (f.queryInterface riid).1 = sOk }
        { s with file := some (f.queryInterface riid).2 }
  | write {f : FileWriteStream} {data : List UInt8} : s.file = some f →
      Answered env s (.write data)
        { hr := FileWriteStream.checkError (f.file.fwrite data (env.libc s.clock)).2
          count := (f.file.fwrite data (env.libc s.clock)).1 }
        { s with
          file := some { f with file := (f.file.fwrite data (env.libc s.clock)).2 }
          clock := s.clock + 1 }
  | seek {f : FileWriteStream} {offset : Int64} {origin : UInt32} {file : Stdio.File} :
      s.file = some f → file = (f.file.fseek offset.toInt origin.toNat (env.libc s.clock)).2 →
      Answered env s (.seek offset origin)
        { hr := FileWriteStream.checkError file, count := file.ftell }
        { s with file := some { f with file := file }, clock := s.clock + 1 }
  | setSize {f f' : FileWriteStream} {newSize : UInt64} {hr : HRESULT} : s.file = some f →
      f.setSize newSize (env.libc s.clock) (env.libc (s.clock + 1)) = .ok (hr, f') →
      Answered env s (.setSize newSize) { hr := hr }
        { s with file := some f', clock := s.clock + 2 }

/-- A call on the stream that always returns needs the stream only. -/
theorem onStream_returns {s : Extractor} {f : FileWriteStream → Reply × Extractor} :
    (∃ p, s.onStream (fun file => .ok (f file)) = .ok p) ↔ s.file ≠ none := by
  simp only [onStream_eq_ok]
  constructor
  · rintro ⟨p, file, hs, -⟩
    rw [hs]
    simp
  · intro h
    obtain ⟨file, hs⟩ := Option.ne_none_iff_exists'.mp h
    exact ⟨_, file, hs, rfl⟩

theorem noexcept_eq_ok {α : Type} {x : Except Escape α} {a : α} : noexcept x = .ok a ↔ x = .ok a := by
  unfold noexcept
  split
  · simp
  · rfl

theorem setSize_returns_iff (file : FileWriteStream) (newSize : UInt64) (o o' : Outcome) :
    (∃ p, file.setSize newSize o o' = .ok p) ↔ o.ftruncate = true ∧ newSize.toNat ≤ Stdio.longMax := by
  by_cases h : o.ftruncate = true ∧ newSize.toNat ≤ Stdio.longMax
  · have ht : file.file.ftruncate newSize.toNat o =
        some { file.file with disk := Bytes.resize file.file.disk newSize.toNat } := if_pos h
    exact iff_of_true ⟨_, FileWriteStream.setSize_ok ht⟩ h
  · have ht : file.file.ftruncate newSize.toNat o = none := if_neg h
    rw [FileWriteStream.setSize_terminate ht]
    exact iff_of_false (by rintro ⟨p, hp⟩; cases hp) h

/-- A callback returns exactly when it is safe. -/
theorem callback_returns_iff (env : Env) (s : Extractor) (c : Call) :
    (∃ p, callback env s c = .ok p) ↔ CallSafe env s c := by
  cases c with
  | setTotal size => exact iff_of_true ⟨_, rfl⟩ trivial
  | setCompleted v => cases v <;> exact iff_of_true ⟨_, rfl⟩ trivial
  | getStream index mode => exact iff_of_true ⟨_, rfl⟩ trivial
  | prepareOperation mode => exact iff_of_true ⟨_, rfl⟩ trivial
  | setOperationResult res => exact iff_of_true ⟨_, rfl⟩ trivial
  | addRef => exact iff_of_true ⟨_, rfl⟩ trivial
  | queryInterface riid => exact iff_of_true ⟨_, rfl⟩ trivial
  | cryptoGetTextPassword =>
    simp only [callback, noexcept_eq_ok, bind_eq_ok, CallSafe]
    constructor
    · rintro ⟨p, pass, h, -⟩
      exact ⟨pass, h⟩
    · rintro ⟨pass, h⟩
      exact ⟨_, pass, h, rfl⟩
  | release =>
    have h1 : release s.refCounter = 0 ↔ s.refCounter = 1 := by
      rw [release, UInt32.sub_eq_iff_eq_add, UInt32.zero_add]
    simp only [callback, CallSafe, h1]
    split_ifs with h
    · exact iff_of_false (by rintro ⟨p, hp⟩; cases hp) (not_not.mpr h)
    · exact iff_of_true ⟨_, rfl⟩ h
  | streamAddRef => exact onStream_returns
  | streamRelease => exact onStream_returns
  | streamQueryInterface riid => exact onStream_returns
  | write data => exact onStream_returns
  | seek offset origin => exact onStream_returns
  | setSize newSize =>
    simp only [callback, CallSafe, onStream_eq_ok]
    constructor
    · rintro ⟨p, file, hs, h⟩
      obtain ⟨q, hq, -⟩ := bind_eq_ok.mp h
      exact ⟨by rw [hs]; simp, (setSize_returns_iff file newSize _ _).mp ⟨q, hq⟩⟩
    · rintro ⟨hs, h⟩
      obtain ⟨file, hs⟩ := Option.ne_none_iff_exists'.mp hs
      obtain ⟨q, hq⟩ := (setSize_returns_iff file newSize _ (env.libc (s.clock + 1))).mpr h
      exact ⟨_, file, hs, bind_eq_ok.mpr ⟨q, hq, rfl⟩⟩

theorem callback_answered {env : Env} {s s' : Extractor} {c : Call} {r : Reply}
    (h : callback env s c = .ok (r, s')) : Answered env s c r s' := by
  cases c with
  | setTotal size => cases h; exact .extractor rfl rfl
  | setCompleted v => cases v <;> cases h <;> exact .extractor rfl rfl
  | getStream index mode => cases h; exact .extractor rfl rfl
  | prepareOperation mode => cases h; exact .extractor rfl rfl
  | setOperationResult res => cases h; exact .extractor rfl rfl
  | addRef => cases h; exact .extractor rfl rfl
  | queryInterface riid => cases riid <;> cases h <;> exact .extractor rfl rfl
  | cryptoGetTextPassword =>
    obtain ⟨pass, -, h⟩ := bind_eq_ok.mp (noexcept_eq_ok.mp h)
    cases h
    exact .extractor rfl rfl
  | release =>
    simp only [callback] at h
    split_ifs at h
    cases h
    exact .extractor rfl rfl
  | streamAddRef =>
    obtain ⟨f, hs, h⟩ := onStream_eq_ok.mp h
    obtain ⟨rfl, rfl⟩ := Prod.mk.inj (Except.ok.inj h)
    exact .streamAddRef hs
  | streamRelease =>
    obtain ⟨f, hs, h⟩ := onStream_eq_ok.mp h
    obtain ⟨rfl, rfl⟩ := Prod.mk.inj (Except.ok.inj h)
    exact .streamRelease hs
  | streamQueryInterface riid =>
    obtain ⟨f, hs, h⟩ := onStream_eq_ok.mp h
    obtain ⟨rfl, rfl⟩ := Prod.mk.inj (Except.ok.inj h)
    exact .streamQueryInterface hs
  | write data =>
    obtain ⟨f, hs, h⟩ := onStream_eq_ok.mp h
    obtain ⟨rfl, rfl⟩ := Prod.mk.inj (Except.ok.inj h)
    exact .write hs
  | seek offset origin =>
    obtain ⟨f, hs, h⟩ := onStream_eq_ok.mp h
    obtain ⟨rfl, rfl⟩ := Prod.mk.inj (Except.ok.inj h)
    exact .seek hs rfl
  | setSize newSize =>
    obtain ⟨f, hs, h⟩ := onStream_eq_ok.mp h
    obtain ⟨⟨hr, f'⟩, hset, h⟩ := bind_eq_ok.mp h
    cases h
    exact .setSize hs hset

/-! ### The file of the stream -/

/-- The call goes to the file of the stream. -/
def onFile : Call → Bool
  | .write _ | .seek _ _ | .setSize _ => true
  | _ => false

/-- What an answered call does to the file, with what the library does in the
call and in the next. -/
inductive OnFile (o o' : Outcome) : Call → Reply → Stdio.File → Stdio.File → Prop
  | none {c : Call} {r : Reply} {file : Stdio.File} : onFile c = false → OnFile o o' c r file file
  | write {data : List UInt8} {r : Reply} {file : Stdio.File} : r.count = (file.fwrite data o).1 →
      OnFile o o' (.write data) r file (file.fwrite data o).2
  | seek {offset : Int64} {origin : UInt32} {r : Reply} {file : Stdio.File} :
      r.count = (file.fseek offset.toInt origin.toNat o).2.pos →
      OnFile o o' (.seek offset origin) r file (file.fseek offset.toInt origin.toNat o).2
  | setSize {newSize : UInt64} {r : Reply} {file cut : Stdio.File} : file.ftruncate newSize.toNat o = some cut →
      OnFile o o' (.setSize newSize) r file (cut.fseek file.pos 0 o').2

/-- The stream that is there behind a call was there in front of it. -/
theorem Answered.onFile {env : Env} {s s' : Extractor} {c : Call} {r : Reply} {f' : FileWriteStream}
    (h : Answered env s c r s') (hf : s'.file = some f') :
    ∃ f, s.file = some f ∧ OnFile (env.libc s.clock) (env.libc (s.clock + 1)) c r f.file f'.file := by
  cases h with
  | extractor hon hs =>
    refine ⟨f', by rw [← hs, hf], .none ?_⟩
    cases c <;> first | rfl | cases hon
  | streamAddRef hs =>
    cases hf
    exact ⟨_, hs, .none rfl⟩
  | @streamRelease f hs =>
    refine ⟨f, hs, ?_⟩
    simp only [FileWriteStream.release] at hf
    split_ifs at hf
    cases hf
    exact .none rfl
  | @streamQueryInterface f riid hs =>
    cases hf
    refine ⟨f, hs, ?_⟩
    cases riid <;> exact .none rfl
  | write hs =>
    cases hf
    exact ⟨_, hs, .write rfl⟩
  | seek hs hfile =>
    cases hf
    subst hfile
    exact ⟨_, hs, .seek rfl⟩
  | @setSize f _ newSize _ hs hset =>
    cases hf
    refine ⟨f, hs, ?_⟩
    obtain ⟨cut, hcut⟩ : ∃ cut, f.file.ftruncate newSize.toNat (env.libc s.clock) = some cut := by
      by_contra hno
      rw [FileWriteStream.setSize_terminate (Option.eq_none_iff_forall_ne_some.mpr fun cut h => hno ⟨cut, h⟩)] at hset
      cases hset
    rw [FileWriteStream.setSize_ok hcut] at hset
    cases hset
    exact .setSize hcut

/-- What holds of an empty file, and what every call on the file keeps, holds of
the file at every point. -/
theorem file_invariant {env : Env} {I : List (Call × Reply) → Stdio.File → Prop} (hnew : I [] .tmpfile)
    (hstep : ∀ tr n c r file file', I tr file → OnFile (env.libc n) (env.libc (n + 1)) c r file file' →
      I (tr ++ [(c, r)]) file')
    {clock : ℕ} {index : UInt32} {tr : List (Call × Reply)} {d : Decoder} {s : Extractor}
    (h : Point env clock index tr d s) {f : FileWriteStream} (hf : s.file = some f) : I tr f.file := by
  refine h.invariant (I := fun tr s => ∀ f, s.file = some f → I tr f.file) ?_ ?_ f hf
  · intro _ hf
    cases hf
    exact hnew
  · intro tr c s r s' ih hc f' hf'
    obtain ⟨f, hf, hon⟩ := (callback_answered hc).onFile hf'
    exact hstep tr s.clock c r f.file f'.file (ih f hf) hon

/-- A run returns exactly when every callback it gets to is safe. -/
theorem run_returns_iff {env : Env} {d : Decoder} {s : Extractor} :
    (∃ p, d.run (callback env) s = .ok p) ↔
      ∀ tr c k t, Client.Reaches (callback env) d s tr (.call c k) t → CallSafe env t c := by
  constructor
  · rintro ⟨p, hp⟩ tr c k t hr
    rw [← callback_returns_iff]
    cases hc : callback env t c with
    | ok q => exact ⟨q, rfl⟩
    | error e =>
      have := Client.run_eq_error_iff.mpr ⟨tr, c, k, t, hr, hc⟩
      rw [hp] at this
      cases this
  · intro h
    cases hrun : d.run (callback env) s with
    | ok p => exact ⟨p, rfl⟩
    | error e =>
      obtain ⟨tr, c, k, t, hr, hc⟩ := Client.run_eq_error_iff.mp hrun
      obtain ⟨p, hp⟩ := (callback_returns_iff env t c).mpr (h tr c k t hr)
      rw [hc] at hp
      cases hp

end Extractor

end Fuse3P7zip
