/-
# Finding the format of an archive

The handlers that `open_archive` asks share a stream and the archive itself,
as their callback. A handler is a client of these: it goes by the replies it
gets. `detection_is_isolated`: where the library's calls succeed and every
handler gives back its references, each of them gets the replies it would get
alone, on a stream that was just opened. So the format that is found is the
first that accepts the file by itself, and whether one is found does not
depend on the order of the formats.

What the handlers do in such a run is an `Attempt` each, and `openArchive` on
these finds the same (`openArchive_recorded`).
-/
import Mathlib.Data.List.Perm.Basic
import Fuse3P7zip.Handles
import Fuse3P7zip.Lib.Bisim
import Fuse3P7zip.OpenArchive

namespace Fuse3P7zip

open Fuse (LibcReads)
open Stdio (Outcome)

namespace FileReadStream

open Stdio (File)

/-- The same archive at the same place, whatever the library has read ahead. -/
structure Twin (f g : FileReadStream) : Prop where
  path : f.path = g.path
  stat : f.stat = g.stat
  file : File.Twin f.file g.file

variable {f g : FileReadStream}

theorem checkError_twin {f g : File} (h : File.Twin f g) : checkError f = checkError g := by
  unfold checkError File.ferror
  rw [h.err]

theorem Twin.read (h : Twin f g) (size : UInt32) (processedSize : Option UInt32) {o o' : Outcome}
    (ho : o.fread = none) (ho' : o'.fread = none) :
    ∃ hr data processed f' g', f.read size processedSize o = (hr, data, processed, f') ∧
      g.read size processedSize o' = (hr, data, processed, g') ∧ Twin f' g' := by
  obtain ⟨hdata, hfile⟩ := h.file.fread size.toNat ho ho'
  refine ⟨checkError (g.file.fread size.toNat o').2, (g.file.fread size.toNat o').1,
    processedSize.map fun _ => UInt32.ofNat (g.file.fread size.toNat o').1.length,
    { f with file := (f.file.fread size.toNat o).2 }, { g with file := (g.file.fread size.toNat o').2 },
    ?_, rfl, h.path, h.stat, hfile⟩
  rw [← checkError_twin hfile, ← hdata]
  rfl

theorem Twin.seek (h : Twin f g) (offset : Int64) (seekOrigin : UInt32) (newPosition : Option UInt64) {o o' : Outcome}
    (ho : o.fseek = .done) (ho' : o'.fseek = .done) :
    ∃ hr position f' g', f.seek offset seekOrigin newPosition o = (hr, position, f') ∧
      g.seek offset seekOrigin newPosition o' = (hr, position, g') ∧ Twin f' g' := by
  obtain ⟨hok, hfile⟩ := h.file.fseek offset.toInt seekOrigin.toNat ho ho'
  unfold FileReadStream.seek
  generalize f.file.fseek offset.toInt seekOrigin.toNat o = x at hok hfile ⊢
  generalize g.file.fseek offset.toInt seekOrigin.toNat o' = y at hok hfile ⊢
  obtain ⟨ok, file⟩ := x
  obtain ⟨_, file'⟩ := y
  obtain rfl : ok = _ := hok
  cases ok with
  | true =>
    refine ⟨sOk, newPosition.map fun _ => UInt64.ofNat file.ftell, _, { g with file := file' }, rfl, ?_,
      h.path, h.stat, hfile⟩
    rw [File.ftell, hfile.pos]
    rfl
  | false =>
    refine ⟨checkError file, newPosition, _, { g with file := file' }, rfl, ?_, h.path, h.stat, hfile⟩
    rw [checkError_twin hfile]
    rfl

end FileReadStream

/-- The interfaces a handler asks the stream or the archive for. -/
inductive OpenIid where
  | iUnknown
  | iInStream
  | iSequentialInStream
  | iArchiveOpenCallback
  | iCryptoGetTextPassword
  | other
  deriving DecidableEq

/-- The calls of a handler on the stream, and on the archive. -/
inductive OpenCall where
  | read (size : UInt32) (processedSize : Option UInt32)
  | seek (offset : Int64) (seekOrigin : UInt32) (newPosition : Option UInt64)
  | streamAddRef
  | streamRelease
  | streamQueryInterface (riid : OpenIid)
  | setTotal (files bytes : Option UInt64)
  | setCompleted (files bytes : Option UInt64)
  | cryptoGetTextPassword
  | addRef
  | release
  | queryInterface (riid : OpenIid)

/-- What a call returns and stores through its out-parameters. -/
structure OpenReply where
  hr : HRESULT := sOk
  count : ℕ := 0
  data : List UInt8 := []
  processedSize : Option UInt32 := none
  newPosition : Option UInt64 := none
  object : Bool := false
  password : WStr := []
  deriving DecidableEq

/-- Ways not to return, for the calls of a handler. -/
inductive Fault where
  | escape (e : Escape)
  /-- A handler dropped the archive's own reference to itself. -/
  | freedArchive

/-- What the release of an object does to a reference, to the stream or to the
archive. -/
structure Ref where
  onStream : Bool
  op : RefCount.Op

/-- A format's handler: what `CreateObject` comes to, and the calls of `Open`,
with the code it returns and what the object does when it is released. -/
structure Handler where
  createObject : HRESULT
  stored : Bool
  «open» : Client OpenCall OpenReply (HRESULT × List Ref)

/-- What the handlers have in common: the stream and its counter, and the
counter of the archive. `clock` counts the calls of the library. -/
structure Shared where
  stream : FileReadStream
  refCounter : Option UInt32
  own : UInt32
  clock : ℕ

def lift {α : Type} : Except Escape α → Except Fault α
  | .ok a => .ok a
  | .error e => .error (.escape e)

namespace Shared

/-- A call on the stream, which has to be there. -/
def onStream {α : Type} (s : Shared) (f : UInt32 → Except Fault α) : Except Fault α :=
  match s.refCounter with
  | some n => f n
  | none => .error (.escape (.ub .freedStream))

/-- The stream's references with one more operation. -/
def counted (s : Shared) (n : UInt32) (o : RefCount.Op) : Shared := { s with refCounter := RefCount.step (some n) o }

/-- The archive's, where it is not deleted. -/
def ownRef (s : Shared) (o : RefCount.Op) : Except Fault Shared :=
  match RefCount.step (some s.own) o with
  | some n => .ok { s with own := n }
  | none => .error .freedArchive

/-- `QueryInterface` of the stream, which is a `ISequentialInStream` too. -/
def isStream : OpenIid → Bool
  | .iInStream | .iSequentialInStream | .iUnknown => true
  | _ => false

/-- `QueryInterface` of the archive. -/
def isCallback : OpenIid → Bool
  | .iArchiveOpenCallback | .iCryptoGetTextPassword | .iUnknown => true
  | _ => false

/-- The program's side of a call. -/
def serve (env : Env) (s : Shared) : OpenCall → Except Fault (OpenReply × Shared)
  | .read size processedSize =>
    s.onStream fun _ =>
      let (hr, data, processed, stream) := s.stream.read size processedSize (env.libc s.clock)
      .ok ({ hr := hr, data := data, processedSize := processed }, { s with stream := stream, clock := s.clock + 1 })
  | .seek offset seekOrigin newPosition =>
    s.onStream fun _ =>
      let (hr, position, stream) := s.stream.seek offset seekOrigin newPosition (env.libc s.clock)
      .ok ({ hr := hr, newPosition := position }, { s with stream := stream, clock := s.clock + 1 })
  | .streamAddRef => s.onStream fun n => .ok ({ count := (addRef n).toNat }, s.counted n .add)
  | .streamRelease => s.onStream fun n => .ok ({ count := (release n).toNat }, s.counted n .drop)
  | .streamQueryInterface riid =>
    s.onStream fun n =>
      if isStream riid then .ok ({ object := true }, s.counted n .add) else .ok ({ hr := eNoInterface }, s)
  | .setTotal _ _ => .ok ({}, s)
  | .setCompleted _ _ => .ok ({}, s)
  | .cryptoGetTextPassword => do
    let pass ← lift (noexcept (wideStr env.toLocale env.password))
    return ({ password := pass }, s)
  | .addRef => do
    let s ← s.ownRef .add
    return ({ count := s.own.toNat }, s)
  | .release => do
    let s ← s.ownRef .drop
    return ({ count := s.own.toNat }, s)
  | .queryInterface riid =>
    if isCallback riid then do
      let s ← s.ownRef .add
      return ({ object := true }, s)
    else .ok ({ hr := eNoInterface }, s)

def ref (s : Shared) (r : Ref) : Except Fault Shared :=
  if r.onStream then s.onStream fun n => .ok (s.counted n r.op) else s.ownRef r.op

/-- What the release of an object does. -/
def refs : List Ref → Shared → Except Fault Shared
  | [], s => .ok s
  | r :: rs, s => do
    let s ← s.ref r
    refs rs s

/-- `_stream->Seek(0, STREAM_SEEK_SET, nullptr)` -/
def rewind (env : Env) (s : Shared) : Except Fault Shared :=
  s.onStream fun _ => do
    let (hr, _, stream) := s.stream.seek 0 0 none (env.libc s.clock)
    let _ ← lift (checkCom hr "Seek")
    return { s with stream := stream, clock := s.clock + 1 }

end Shared

/-- The loop of `open_archive`: what the handlers share, and the object in
`_arc`, by what its release does. -/
structure Loop where
  shared : Shared
  arc : Option (List Ref)

namespace Loop

/-- The body of the loop: whether it returns. -/
def attempt (env : Env) (lib : ImplLib) (it : ImplFormat) (h : Handler) (l : Loop) : Except Fault (Bool × Loop) := do
  let s ← l.shared.rewind env
  let s ← s.refs (l.arc.getD [])
  let _ ← lift (checkCom h.createObject "CreateObject")
  if h.stored then
    let ((res, refs), s) ← h.open.run (Shared.serve env) s
    if res = sOk then
      let _ ← lift (it.name lib env.toLocale)
      return (true, ⟨s, some refs⟩)
    else return (false, ⟨s, some refs⟩)
  else .error (.escape (.ub .nullArchive))

/-- `open_archive`: the format. -/
def detect (env : Env) (lib : ImplLib) : List (ImplFormat × Handler) → Loop → Except Fault (ImplFormat × Loop)
  | [], _ => .error (.escape (.exn "ERROR_INVALID_DATA"))
  | (it, h) :: formats, l => do
    let (found, l) ← l.attempt env lib it h
    if found then return (it, l)
    else detect env lib formats l

/-- The members before the loop. -/
def start (stream : FileReadStream) (clock : ℕ) : Loop := ⟨⟨stream, some 1, 1, clock⟩, none⟩

end Loop

namespace Shared

/-! ### What a call does -/

/-- What the stream sees of a call. -/
def useOf (env : Env) (s : Shared) : OpenCall → List Use
  | .read size processedSize => [.call (.read size processedSize (env.libc s.clock))]
  | .seek offset seekOrigin newPosition => [.call (.seek offset seekOrigin newPosition (env.libc s.clock))]
  | .streamAddRef => [.ref .add]
  | .streamRelease => [.ref .drop]
  | .streamQueryInterface riid => if isStream riid then [.ref .add] else []
  | _ => []

theorem onStream_eq_ok {α : Type} {s : Shared} {f : UInt32 → Except Fault α} {a : α} :
    s.onStream f = .ok a ↔ ∃ n, s.refCounter = some n ∧ f n = .ok a := by
  unfold onStream
  cases s.refCounter with
  | none => exact iff_of_false (fun h => nomatch h) fun ⟨_, h, _⟩ => nomatch h
  | some n => exact ⟨fun h => ⟨n, rfl, h⟩, fun ⟨m, hm, h⟩ => by cases hm; exact h⟩

theorem bind_eq_ok {α β : Type} {x : Except Fault α} {f : α → Except Fault β} {b : β} :
    (x >>= f) = .ok b ↔ ∃ a, x = .ok a ∧ f a = .ok b := by
  cases x with
  | error e => exact iff_of_false (fun h => nomatch h) fun ⟨_, h, _⟩ => nomatch h
  | ok a => exact ⟨fun h => ⟨a, rfl, h⟩, fun ⟨a', ha, h⟩ => by cases ha; exact h⟩

theorem ownRef_eq_ok {s s' : Shared} {o : RefCount.Op} (h : s.ownRef o = .ok s') : ∃ n, s' = { s with own := n } := by
  unfold ownRef at h
  split at h
  · cases h
    exact ⟨_, rfl⟩
  · cases h

/-- A call that is answered goes to the stream's file, or to a counter, or does
nothing. -/
theorem serve_cases {env : Env} {s s' : Shared} {c : OpenCall} {r : OpenReply} (h : serve env s c = .ok (r, s')) :
    (∃ n u, s.refCounter = some n ∧ useOf env s c = [.call u] ∧
      s' = { s with stream := u.exec s.stream, clock := s.clock + 1 }) ∨
    (∃ n o, s.refCounter = some n ∧ useOf env s c = [.ref o] ∧ s' = s.counted n o) ∨
    (useOf env s c = [] ∧ ∃ n, s' = { s with own := n }) := by
  cases c with
  | read size processedSize =>
    obtain ⟨n, hn, h⟩ := onStream_eq_ok.mp h
    cases h
    exact .inl ⟨n, _, hn, rfl, rfl⟩
  | seek offset seekOrigin newPosition =>
    obtain ⟨n, hn, h⟩ := onStream_eq_ok.mp h
    cases h
    exact .inl ⟨n, _, hn, rfl, rfl⟩
  | streamAddRef =>
    obtain ⟨n, hn, h⟩ := onStream_eq_ok.mp h
    cases h
    exact .inr (.inl ⟨n, .add, hn, rfl, rfl⟩)
  | streamRelease =>
    obtain ⟨n, hn, h⟩ := onStream_eq_ok.mp h
    cases h
    exact .inr (.inl ⟨n, .drop, hn, rfl, rfl⟩)
  | streamQueryInterface riid =>
    obtain ⟨n, hn, h⟩ := onStream_eq_ok.mp h
    by_cases hi : isStream riid = true
    · rw [if_pos hi] at h
      cases h
      exact .inr (.inl ⟨n, .add, hn, if_pos hi, rfl⟩)
    · rw [if_neg hi] at h
      cases h
      exact .inr (.inr ⟨if_neg hi, s.own, rfl⟩)
  | setTotal files bytes =>
    cases h
    exact .inr (.inr ⟨rfl, s.own, rfl⟩)
  | setCompleted files bytes =>
    cases h
    exact .inr (.inr ⟨rfl, s.own, rfl⟩)
  | cryptoGetTextPassword =>
    obtain ⟨pass, -, h⟩ := bind_eq_ok.mp h
    cases h
    exact .inr (.inr ⟨rfl, s.own, rfl⟩)
  | addRef =>
    obtain ⟨u, hu, h⟩ := bind_eq_ok.mp h
    cases h
    exact .inr (.inr ⟨rfl, ownRef_eq_ok hu⟩)
  | release =>
    obtain ⟨u, hu, h⟩ := bind_eq_ok.mp h
    cases h
    exact .inr (.inr ⟨rfl, ownRef_eq_ok hu⟩)
  | queryInterface riid =>
    change (if isCallback riid = true then s.ownRef .add >>= _ else _) = _ at h
    split_ifs at h
    · obtain ⟨u, hu, h⟩ := bind_eq_ok.mp h
      cases h
      exact .inr (.inr ⟨rfl, ownRef_eq_ok hu⟩)
    · cases h
      exact .inr (.inr ⟨rfl, s.own, rfl⟩)

/-! ### Calls that look the same -/

/-- The same but for the calls of the library before, and what these read ahead. -/
structure Same (s t : Shared) : Prop where
  stream : FileReadStream.Twin s.stream t.stream
  refCounter : s.refCounter = t.refCounter
  own : s.own = t.own

/-- A change to the counter of the archive. -/
theorem ownRef_cases {s t : Shared} (h : s.own = t.own) (o : RefCount.Op) :
    (∃ n, s.ownRef o = .ok { s with own := n } ∧ t.ownRef o = .ok { t with own := n }) ∨
      (s.ownRef o = .error .freedArchive ∧ t.ownRef o = .error .freedArchive) := by
  unfold Shared.ownRef
  rw [h]
  cases RefCount.step (some t.own) o with
  | some n => exact .inl ⟨n, rfl, rfl⟩
  | none => exact .inr ⟨rfl, rfl⟩

theorem Same.with_own {s t : Shared} (h : Same s t) (n : UInt32) : Same { s with own := n } { t with own := n } :=
  ⟨h.stream, h.refCounter, rfl⟩

theorem Same.counted {s t : Shared} (h : Same s t) (n : UInt32) (o : RefCount.Op) : Same (s.counted n o) (t.counted n o) :=
  ⟨h.stream, rfl, h.own⟩

theorem Same.onStream {s t : Shared} (h : Same s t) {f g : UInt32 → Except Fault (OpenReply × Shared)}
    (hfg : ∀ n, Client.Agree Same (f n) (g n)) : Client.Agree Same (s.onStream f) (t.onStream g) := by
  unfold Shared.onStream
  rw [h.refCounter]
  cases t.refCounter with
  | none => exact .error _
  | some n => exact hfg n

section calls

variable {env : Env} (libc : LibcReads env)

include libc

/-- When the library was called before makes no difference. -/
theorem alike_serve : Client.Alike (serve env) (serve env) Same := by
  intro s t c h
  cases c with
  | read size processedSize =>
    refine h.onStream fun n => ?_
    obtain ⟨hr, data, processed, f, g, hf, hg, htwin⟩ :=
      h.stream.read size processedSize (libc.fread s.clock) (libc.fread t.clock)
    rw [hf, hg]
    exact .ok ⟨htwin, h.refCounter, h.own⟩
  | seek offset seekOrigin newPosition =>
    refine h.onStream fun n => ?_
    obtain ⟨hr, position, f, g, hf, hg, htwin⟩ :=
      h.stream.seek offset seekOrigin newPosition (libc.fseek s.clock) (libc.fseek t.clock)
    rw [hf, hg]
    exact .ok ⟨htwin, h.refCounter, h.own⟩
  | streamAddRef => exact h.onStream fun n => .ok (h.counted n .add)
  | streamRelease => exact h.onStream fun n => .ok (h.counted n .drop)
  | streamQueryInterface riid =>
    refine h.onStream fun n => ?_
    split_ifs
    · exact .ok (h.counted n .add)
    · exact .ok h
  | setTotal files bytes => exact .ok h
  | setCompleted files bytes => exact .ok h
  | cryptoGetTextPassword =>
    show Client.Agree Same (lift _ >>= _) (lift _ >>= _)
    cases noexcept (wideStr env.toLocale env.password) with
    | ok pass => exact .ok h
    | error e => exact .error _
  | addRef =>
    show Client.Agree Same (s.ownRef .add >>= _) (t.ownRef .add >>= _)
    rcases ownRef_cases h.own .add with ⟨n, hs, ht⟩ | ⟨hs, ht⟩
    · rw [hs, ht]
      exact .ok (h.with_own n)
    · rw [hs, ht]
      exact .error _
  | release =>
    show Client.Agree Same (s.ownRef .drop >>= _) (t.ownRef .drop >>= _)
    rcases ownRef_cases h.own .drop with ⟨n, hs, ht⟩ | ⟨hs, ht⟩
    · rw [hs, ht]
      exact .ok (h.with_own n)
    · rw [hs, ht]
      exact .error _
  | queryInterface riid =>
    show Client.Agree Same (if isCallback riid = true then s.ownRef .add >>= _ else _)
      (if isCallback riid = true then t.ownRef .add >>= _ else _)
    split_ifs
    · rcases ownRef_cases h.own .add with ⟨n, hs, ht⟩ | ⟨hs, ht⟩
      · rw [hs, ht]
        exact .ok (h.with_own n)
      · rw [hs, ht]
        exact .error _
    · exact .ok h

end calls

/-! ### The stream behind a handler -/

/-- A stream on the archive of these bytes, with its error flag down. -/
structure Clean (path : FsPath) (stat : Stat) (bytes : List UInt8) (f : FileReadStream) : Prop where
  path : f.path = path
  stat : f.stat = stat
  content : f.file.content = bytes
  fresh : f.file.Fresh
  err : f.file.err = false

section clean

variable {env : Env} (libc : LibcReads env) {path : FsPath} {stat : Stat} {bytes : List UInt8}

/-- The stream of an archive that was just opened. -/
abbrev opened (path : FsPath) (stat : Stat) (bytes : List UInt8) : FileReadStream := ⟨path, stat, .opened bytes⟩

theorem clean_opened (path : FsPath) (stat : Stat) (bytes : List UInt8) : Clean path stat bytes (opened path stat bytes) :=
  ⟨rfl, rfl, Stdio.File.content_of_pend_nil rfl, Stdio.File.fresh_of_buf_nil rfl, rfl⟩

include libc

theorem Clean.read {f : FileReadStream} (h : Clean path stat bytes f) (size : UInt32) (processedSize : Option UInt32)
    (n : ℕ) : Clean path stat bytes (f.read size processedSize (env.libc n)).2.2.2 := by
  refine ⟨h.path, h.stat, (Stdio.File.content_fread ..).trans h.content, h.fresh.fread _ _, ?_⟩
  show (f.file.fread _ _).2.err = false
  rw [Stdio.File.err_fread, h.err, Bool.false_or, Stdio.File.freadFails, libc.fread]

theorem Clean.seek {f : FileReadStream} (h : Clean path stat bytes f) (offset : Int64) (seekOrigin : UInt32)
    (newPosition : Option UInt64) (n : ℕ) :
    Clean path stat bytes (f.seek offset seekOrigin newPosition (env.libc n)).2.2 := by
  have hpath : (f.seek offset seekOrigin newPosition (env.libc n)).2.2.path = f.path ∧
      (f.seek offset seekOrigin newPosition (env.libc n)).2.2.stat = f.stat := by
    unfold FileReadStream.seek
    dsimp only
    split <;> exact ⟨rfl, rfl⟩
  have hflushes := libc.flushes n
  refine ⟨hpath.1.trans h.path, hpath.2.trans h.stat, ?_, ?_, ?_⟩
  · rw [OpenArchive.seek_file, Stdio.File.content_fseek _ _ (Stdio.File.not_drops_of_flushes hflushes _), h.content]
  · rw [OpenArchive.seek_file]
    exact h.fresh.fseek _ _ _
  · rw [OpenArchive.seek_file, Stdio.File.err_fseek, h.err, decide_eq_false hflushes]
    rfl

/-- A call leaves the stream clean. -/
theorem clean_serve {s s' : Shared} {c : OpenCall} {r : OpenReply} (h : Clean path stat bytes s.stream)
    (hs : serve env s c = .ok (r, s')) : Clean path stat bytes s'.stream := by
  rcases serve_cases hs with ⟨n, u, -, hu, rfl⟩ | ⟨n, o, -, -, rfl⟩ | ⟨-, n, rfl⟩
  · cases c with
    | read size processedSize =>
      cases hu
      exact h.read libc size processedSize s.clock
    | seek offset seekOrigin newPosition =>
      cases hu
      exact h.seek libc offset seekOrigin newPosition s.clock
    | streamQueryInterface riid =>
      change (if isStream riid = true then [Use.ref .add] else []) = _ at hu
      split_ifs at hu
      cases hu
    | _ => cases hu
  · exact h
  · exact h

end clean

/-! ### References given back -/

theorem ref_cases {s s' : Shared} {r : Ref} (h : s.ref r = .ok s') :
    (r.onStream = true ∧ ∃ n, s.refCounter = some n ∧ s' = s.counted n r.op) ∨
      (r.onStream = false ∧ ∃ n, s' = { s with own := n }) := by
  unfold ref at h
  cases hr : r.onStream with
  | true =>
    rw [hr, if_pos rfl] at h
    obtain ⟨n, hn, h⟩ := onStream_eq_ok.mp h
    cases h
    exact .inl ⟨rfl, n, hn, rfl⟩
  | false =>
    rw [hr, if_neg Bool.false_ne_true] at h
    exact .inr ⟨rfl, ownRef_eq_ok h⟩

/-- The release of an object changes the counters only, by what they are; and a
stream that is gone stays so. -/
theorem refs_eq_ok : ∀ {rs : List Ref} {s s' : Shared}, refs rs s = .ok s' →
    s'.stream = s.stream ∧ (s'.refCounter ≠ none → s.refCounter ≠ none) ∧
    ∀ t : Shared, t.refCounter = s.refCounter → t.own = s.own →
      ∃ t', refs rs t = .ok t' ∧ t'.stream = t.stream ∧ t'.refCounter = s'.refCounter ∧ t'.own = s'.own
  | [], s, s', h => by
    cases h
    exact ⟨rfl, id, fun t hc ho => ⟨t, rfl, rfl, hc, ho⟩⟩
  | r :: rs, s, s', h => by
    obtain ⟨u, hu, h⟩ := bind_eq_ok.mp h
    obtain ⟨hstream, hthere, hsame⟩ := refs_eq_ok h
    have husame : ∀ t : Shared, t.refCounter = s.refCounter → t.own = s.own →
        ∃ v, t.ref r = .ok v ∧ v.stream = t.stream ∧ v.refCounter = u.refCounter ∧ v.own = u.own := by
      intro t hc ho
      unfold ref at hu ⊢
      cases hr : r.onStream with
      | true =>
        rw [hr, if_pos rfl] at hu
        obtain ⟨n, hn, hu⟩ := onStream_eq_ok.mp hu
        cases hu
        exact ⟨t.counted n r.op, (if_pos rfl).trans (onStream_eq_ok.mpr ⟨n, hc.trans hn, rfl⟩), rfl, rfl, ho⟩
      | false =>
        rw [hr, if_neg Bool.false_ne_true] at hu
        rcases ownRef_cases ho r.op with ⟨n, ht, hs⟩ | ⟨-, hs⟩
        · cases hs.symm.trans hu
          exact ⟨{ t with own := n }, (if_neg Bool.false_ne_true).trans ht, rfl, hc, rfl⟩
        · cases hs.symm.trans hu
    have hkept : u.stream = s.stream ∧ (u.refCounter ≠ none → s.refCounter ≠ none) := by
      rcases ref_cases hu with ⟨-, n, hn, rfl⟩ | ⟨-, n, rfl⟩
      · exact ⟨rfl, fun _ => by rw [hn]; exact Option.some_ne_none n⟩
      · exact ⟨rfl, id⟩
    refine ⟨hstream.trans hkept.1, fun h' => hkept.2 (hthere h'), fun t hc ho => ?_⟩
    obtain ⟨v, hv, hvstream, hvc, hvo⟩ := husame t hc ho
    obtain ⟨t', ht', htstream, htc, hto⟩ := hsame v hvc hvo
    exact ⟨t', bind_eq_ok.mpr ⟨v, hv, ht'⟩, htstream.trans hvstream, htc, hto⟩

/-- The archive as the first handler finds it: the stream has one reference, and
the archive its own. -/
def fresh (stream : FileReadStream) (clock : ℕ) : Shared := ⟨stream, some 1, 1, clock⟩

/-- With what was taken given back, the references are as at first. -/
def GivesBack (rs : List Ref) (s : Shared) : Prop := ∃ s', refs rs s = .ok s' ∧ s'.refCounter = some 1 ∧ s'.own = 1

end Shared

namespace Loop

open Shared

section isolated

variable {env : Env} (libc : LibcReads env) (lib : ImplLib) {path : FsPath} {stat : Stat} {bytes : List UInt8}

/-- A handler alone with the archive. -/
def alone (env : Env) (stream : FileReadStream) (h : Handler) : Except Fault ((HRESULT × List Ref) × Shared) :=
  h.open.run (serve env) (fresh stream 0)

/-- It can be made, and gives back what it takes, alone with the archive. -/
structure Tidy (env : Env) (stream : FileReadStream) (h : Handler) : Prop where
  createObject : ¬ failed h.createObject
  stored : h.stored = true
  back : ∃ res rs t, alone env stream h = .ok ((res, rs), t) ∧ GivesBack rs t

/-- The handler accepts the archive, alone with it. -/
def accepts (env : Env) (stream : FileReadStream) (h : Handler) : Bool :=
  match alone env stream h with
  | .ok ((res, _), _) => res = sOk
  | .error _ => false

/-- The next handler finds the archive as the first did. -/
structure Settled (path : FsPath) (stat : Stat) (bytes : List UInt8) (l : Loop) : Prop where
  clean : Clean path stat bytes l.shared.stream
  back : GivesBack (l.arc.getD []) l.shared

theorem settled_start (path : FsPath) (stat : Stat) (bytes : List UInt8) (clock : ℕ) :
    Settled path stat bytes (start (opened path stat bytes) clock) :=
  ⟨clean_opened path stat bytes, _, rfl, rfl, rfl⟩

include libc

/-- The stream of the next handler is at its start. -/
theorem rewind_clean {s : Shared} (h : Clean path stat bytes s.stream) {n : UInt32} (hn : s.refCounter = some n) :
    ∃ stream, s.rewind env = .ok { s with stream := stream, clock := s.clock + 1 } ∧ Clean path stat bytes stream ∧
      FileReadStream.Twin stream (opened path stat bytes) := by
  have hseek := Stdio.File.fseek_set s.stream.file 0 (libc.fseek s.clock) (Nat.zero_le _)
  have hfile : s.stream.file.fseek (0 : Int64).toInt (0 : UInt32).toNat (env.libc s.clock) =
      (true, s.stream.file.goto 0 (env.libc s.clock)) := hseek
  have hrewound : s.stream.seek 0 0 none (env.libc s.clock) =
      (sOk, none, { s.stream with file := s.stream.file.goto 0 (env.libc s.clock) }) := by
    unfold FileReadStream.seek
    rw [hfile]
    rfl
  have hclean := h.seek libc 0 0 none s.clock
  rw [hrewound] at hclean
  refine ⟨_, ?_, hclean, h.path, h.stat, ?_, ?_, hclean.fresh, Stdio.File.fresh_of_buf_nil rfl⟩
  · unfold rewind onStream
    rw [hn, hrewound]
    rfl
  · rw [Stdio.File.cursor, Stdio.File.content_goto, Stdio.File.pos_goto, h.content, Stdio.File.cursor,
      Stdio.File.content_of_pend_nil rfl]
    rfl
  · exact (Stdio.File.err_goto _ _ _).trans h.err

/-- A run leaves the stream clean. -/
theorem clean_run {s t : Shared} {d : Client OpenCall OpenReply (HRESULT × List Ref)} {a : HRESULT × List Ref}
    (h : Clean path stat bytes s.stream) (hrun : d.run (serve env) s = .ok (a, t)) : Clean path stat bytes t.stream := by
  refine (Client.run_eq_ok_iff.mp hrun).invariant (I := fun _ u => Clean path stat bytes u.stream) h ?_
  intro _ c u r u' hu hs
  exact clean_serve libc hu hs

/-- **A handler gets the replies it would get alone.** -/
theorem attempt_eq {l : Loop} (hl : Settled path stat bytes l) (it : ImplFormat) {h : Handler}
    (ht : Tidy env (opened path stat bytes) h) :
    ∃ res rs t s, alone env (opened path stat bytes) h = .ok ((res, rs), t) ∧ Same s t ∧
      Settled path stat bytes ⟨s, some rs⟩ ∧ l.attempt env lib it h =
        if res = sOk then (do
          let _ ← lift (it.name lib env.toLocale)
          return (true, ⟨s, some rs⟩))
        else .ok (false, ⟨s, some rs⟩) := by
  obtain ⟨res, rs, t, halone, u, hu, huc, huo⟩ := ht.back
  -- the object before is released on a stream that is at its start again
  obtain ⟨v, hv, hvc, hvo⟩ := hl.back
  obtain ⟨-, hthere, hsame⟩ := refs_eq_ok hv
  obtain ⟨n, hn⟩ := Option.ne_none_iff_exists'.mp (hthere (by rw [hvc]; exact Option.some_ne_none 1))
  obtain ⟨stream, hrewind, hrewound, htwin⟩ := rewind_clean libc hl.clean hn
  obtain ⟨w, hw, hwstream, hwc, hwo⟩ := hsame { l.shared with stream := stream, clock := l.shared.clock + 1 } rfl rfl
  have hfresh : Same w (fresh (opened path stat bytes) 0) :=
    ⟨by rw [hwstream]; exact htwin, hwc.trans hvc, hwo.trans hvo⟩
  have hagree := (alike_serve libc).run h.open hfresh
  rw [show h.open.run (serve env) (fresh (opened path stat bytes) 0) = .ok ((res, rs), t) from halone] at hagree
  obtain ⟨s, hs, hst⟩ := hagree.of_ok
  have hclean : Clean path stat bytes w.stream := by
    rw [hwstream]
    exact hrewound
  obtain ⟨s', hs', -, hsc, hso⟩ := (refs_eq_ok hu).2.2 s hst.refCounter hst.own
  refine ⟨res, rs, t, s, halone, hst, ⟨clean_run libc hclean hs, s', hs', hsc.trans huc, hso.trans huo⟩, ?_⟩
  have hcreate : lift (checkCom h.createObject "CreateObject") = .ok h.createObject := by
    rw [checkCom_ok ht.createObject]
    rfl
  unfold attempt
  rw [hrewind]
  show (refs (l.arc.getD []) _ >>= _) = _
  rw [hw]
  show (lift (checkCom h.createObject "CreateObject") >>= _) = _
  rw [hcreate]
  show (if h.stored = true then h.open.run (serve env) w >>= _ else _) = _
  rw [if_pos ht.stored, hs]
  rfl

/-- The format that is found is the first that accepts by itself. -/
theorem detect_eq : ∀ {formats : List (ImplFormat × Handler)} {l : Loop}, Settled path stat bytes l →
    (∀ x ∈ formats, Tidy env (opened path stat bytes) x.2) →
    (∀ x ∈ formats, ∃ name, x.1.name lib env.toLocale = .ok name) →
    (∀ x, formats.find? (fun x => accepts env (opened path stat bytes) x.2) = some x →
      ∃ rs t l', alone env (opened path stat bytes) x.2 = .ok ((sOk, rs), t) ∧
        detect env lib formats l = .ok (x.1, l') ∧ Same l'.shared t ∧ l'.arc = some rs) ∧
    (formats.find? (fun x => accepts env (opened path stat bytes) x.2) = none →
      detect env lib formats l = .error (.escape (.exn "ERROR_INVALID_DATA")))
  | [], _, _, _, _ => ⟨fun x hx => (by cases hx), fun _ => rfl⟩
  | (it, h) :: formats, l, hl, htidy, hnames => by
    obtain ⟨ht, htidys⟩ := List.forall_mem_cons.mp htidy
    obtain ⟨⟨name, hname⟩, hnames⟩ := List.forall_mem_cons.mp hnames
    obtain ⟨res, rs, t, s, halone, hst, hsettled, hattempt⟩ := attempt_eq libc lib hl it ht
    have hacc : accepts env (opened path stat bytes) h = decide (res = sOk) := by
      rw [accepts, halone]
    by_cases hres : res = sOk
    · rw [if_pos hres, hname] at hattempt
      have hfind : ((it, h) :: formats).find? (fun x => accepts env (opened path stat bytes) x.2) = some (it, h) :=
        List.find?_cons_of_pos (by rw [hacc]; exact decide_eq_true hres)
      rw [hfind]
      refine ⟨fun x hx => ?_, fun hnone => nomatch hnone⟩
      cases hx
      refine ⟨rs, t, ⟨s, some rs⟩, hres ▸ halone, ?_, hst, rfl⟩
      exact Shared.bind_eq_ok.mpr ⟨(true, ⟨s, some rs⟩), hattempt, rfl⟩
    · rw [if_neg hres] at hattempt
      have hfind : ((it, h) :: formats).find? (fun x => accepts env (opened path stat bytes) x.2) =
          formats.find? fun x => accepts env (opened path stat bytes) x.2 :=
        List.find?_cons_of_neg (by rw [hacc]; simpa using hres)
      have hrest : detect env lib ((it, h) :: formats) l = detect env lib formats ⟨s, some rs⟩ := by
        rw [detect, hattempt]
        rfl
      rw [hfind, hrest]
      exact detect_eq hsettled htidys hnames

end isolated

/-! ### What the handlers did -/

/-- What the stream sees of a run. -/
def usesOf (env : Env) : Client OpenCall OpenReply (HRESULT × List Ref) → Shared → List Use
  | .ret _, _ => []
  | .call c k, s =>
    match serve env s c with
    | .error _ => []
    | .ok (r, s') => useOf env s c ++ usesOf env (k r) s'

def streamOps (rs : List Ref) : List RefCount.Op := rs.filterMap fun r => if r.onStream then some r.op else none

/-- The attempts of the loop, as far as it gets. -/
def recorded (env : Env) : List (ImplFormat × Handler) → Loop → List (ImplFormat × Attempt)
  | [], _ => []
  | (it, h) :: formats, l =>
    match l.shared.rewind env >>= fun s => s.refs (l.arc.getD []) with
    | .error _ => []
    | .ok s =>
      match h.open.run (serve env) s with
      | .error _ => []
      | .ok ((res, rs), t) =>
        (it, ⟨env.libc l.shared.clock, h.createObject, h.stored, usesOf env h.open s, res, streamOps rs⟩) ::
          recorded env formats ⟨t, some rs⟩

/-- The members of the archive as the handlers share them. -/
structure Shares (o : OpenState) (s : Shared) : Prop where
  stream : o.stream = s.stream
  refCounter : o.refCounter = s.refCounter

/-- One use, where the rest goes on. -/
theorem uses_cons {o o' : OpenState} {n : UInt32} (hn : o.refCounter = some n) {u : Use} {us : List Use}
    (h : OpenArchive.uses us (match u with
      | .call c => { o with stream := c.exec o.stream }
      | .ref op => { o with refCounter := RefCount.step (some n) op }) = .ok () o') :
    OpenArchive.uses (u :: us) o = .ok () o' :=
  (OpenArchive.bind_ok (OpenArchive.use_eq hn u)).trans h

theorem uses_run {env : Env} {d : Client OpenCall OpenReply (HRESULT × List Ref)} {s t : Shared}
    {a : HRESULT × List Ref} (h : d.run (serve env) s = .ok (a, t)) {o : OpenState} (ho : Shares o s) :
    ∃ o', OpenArchive.uses (usesOf env d s) o = .ok () o' ∧ Shares o' t ∧ o'.arc = o.arc := by
  induction d generalizing s o with
  | ret b =>
    cases h
    exact ⟨o, rfl, ho, rfl⟩
  | call c k ih =>
    rw [Client.run] at h
    rw [usesOf]
    cases hs : serve env s c with
    | error e =>
      rw [hs] at h
      cases h
    | ok rs =>
      obtain ⟨r, s'⟩ := rs
      rw [hs] at h
      show ∃ o', OpenArchive.uses (useOf env s c ++ usesOf env (k r) s') o = .ok () o' ∧ _
      rcases serve_cases hs with ⟨n, u, hn, hu, rfl⟩ | ⟨n, op, hn, hu, rfl⟩ | ⟨hu, n, rfl⟩
      · obtain ⟨o', ho', hshares, harc⟩ := ih r h (o := { o with stream := u.exec o.stream })
          ⟨congrArg (u.exec ·) ho.stream, ho.refCounter⟩
        rw [hu]
        exact ⟨o', uses_cons (ho.refCounter.trans hn) ho', hshares, harc⟩
      · obtain ⟨o', ho', hshares, harc⟩ := ih r h (o := { o with refCounter := RefCount.step (some n) op })
          ⟨ho.stream, rfl⟩
        rw [hu]
        exact ⟨o', uses_cons (ho.refCounter.trans hn) ho', hshares, harc⟩
      · rw [hu]
        exact ih r h ⟨ho.stream, ho.refCounter⟩

theorem uses_refs : ∀ {rs : List Ref} {s s' : Shared} {o : OpenState}, refs rs s = .ok s' → Shares o s →
    ∃ o', OpenArchive.uses ((streamOps rs).map .ref) o = .ok () o' ∧ Shares o' s' ∧ o'.arc = o.arc
  | [], s, s', o, h, ho => by
    cases h
    exact ⟨o, rfl, ho, rfl⟩
  | r :: rs, s, s', o, h, ho => by
    obtain ⟨u, hu, h⟩ := Shared.bind_eq_ok.mp h
    rcases ref_cases hu with ⟨hr, n, hn, rfl⟩ | ⟨hr, n, rfl⟩
    · have hops : streamOps (r :: rs) = r.op :: streamOps rs := List.filterMap_cons_some (by rw [hr, if_pos rfl])
      obtain ⟨o', ho', hshares, harc⟩ := uses_refs h (o := { o with refCounter := RefCount.step (some n) r.op })
        ⟨ho.stream, rfl⟩
      rw [hops]
      exact ⟨o', uses_cons (ho.refCounter.trans hn) ho', hshares, harc⟩
    · have hops : streamOps (r :: rs) = streamOps rs :=
        List.filterMap_cons_none (by rw [hr, if_neg Bool.false_ne_true])
      rw [hops]
      exact uses_refs h ⟨ho.stream, ho.refCounter⟩

/-- What an attempt that is not cut short comes to. -/
theorem attempt_eq_ok {env : Env} {lib : ImplLib} {it : ImplFormat} {h : Handler} {l l' : Loop} {found : Bool}
    (ha : l.attempt env lib it h = .ok (found, l')) :
    ∃ s v res rs t, l.shared.rewind env = .ok s ∧ s.refs (l.arc.getD []) = .ok v ∧ ¬ failed h.createObject ∧
      h.stored = true ∧ h.open.run (serve env) v = .ok ((res, rs), t) ∧ found = decide (res = sOk) ∧
      (res = sOk → ∃ name, it.name lib env.toLocale = .ok name) ∧ l' = ⟨t, some rs⟩ := by
  unfold attempt at ha
  obtain ⟨s, hs, ha⟩ := Shared.bind_eq_ok.mp ha
  obtain ⟨v, hv, ha⟩ := Shared.bind_eq_ok.mp ha
  obtain ⟨hr, hc, ha⟩ := Shared.bind_eq_ok.mp ha
  have hnf : ¬ failed h.createObject := by
    intro hf
    rw [checkCom_failed hf] at hc
    cases hc
  split_ifs at ha with hstored
  obtain ⟨⟨⟨res, rs⟩, t⟩, hrun, ha⟩ := Shared.bind_eq_ok.mp ha
  refine ⟨s, v, res, rs, t, hs, hv, hnf, hstored, hrun, ?_⟩
  change (if res = sOk then lift (it.name lib env.toLocale) >>= _ else _) = _ at ha
  by_cases hres : res = sOk
  · rw [if_pos hres] at ha
    obtain ⟨name, hname, ha⟩ := Shared.bind_eq_ok.mp ha
    cases ha
    refine ⟨(decide_eq_true hres).symm, fun _ => ?_, rfl⟩
    cases hn : it.name lib env.toLocale with
    | ok n => exact ⟨n, rfl⟩
    | error e =>
      rw [hn] at hname
      cases hname
  · rw [if_neg hres] at ha
    cases ha
    exact ⟨(decide_eq_false hres).symm, fun h => absurd h hres, rfl⟩

theorem rewind_eq_ok {env : Env} {s s' : Shared} (h : s.rewind env = .ok s') : ∃ n, s.refCounter = some n ∧
    s' = { s with stream := (s.stream.seek 0 0 none (env.libc s.clock)).2.2, clock := s.clock + 1 } := by
  obtain ⟨n, hn, h⟩ := onStream_eq_ok.mp h
  change (lift (checkCom (s.stream.seek 0 0 none (env.libc s.clock)).1 "Seek") >>= fun _ => .ok _) = _ at h
  obtain ⟨_, -, h⟩ := Shared.bind_eq_ok.mp h
  cases h
  exact ⟨n, hn, rfl⟩

theorem rewind_shares {env : Env} {s s' : Shared} (h : s.rewind env = .ok s') {o : OpenState} (ho : Shares o s)
    (i : ℕ) : ∃ o', OpenArchive.rewind i (env.libc s.clock) o = .ok () o' ∧ Shares o' s' ∧ o'.arc = o.arc := by
  obtain ⟨n, hn, rfl⟩ := rewind_eq_ok h
  refine ⟨{ o with
    stream := (o.stream.seek 0 0 none (env.libc s.clock)).2.2
    log := o.log ++ [.rewound i (o.stream.file.fseek 0 0 (env.libc s.clock)).1] }, ?_, ⟨?_, ho.refCounter⟩, rfl⟩
  · have hok := OpenArchive.check_ok (OpenArchive.not_failed_seek o.stream 0 0 none (env.libc s.clock)) "Seek"
    have hthere : o.refCounter = some n := ho.refCounter.trans hn
    obtain ⟨stream, refCounter, arc, format, log⟩ := o
    cases hthere
    exact hok _
  · rw [ho.stream]

/-- The release of the object that `_arc` has. -/
theorem releaseArc_shares {s s' : Shared} {rs : List Ref} (h : refs rs s = .ok s') {o : OpenState} (ho : Shares o s)
    (hpend : o.pending = streamOps rs) : ∃ o', OpenArchive.releaseArc o = .ok () o' ∧ Shares o' s' := by
  obtain ⟨stream, refCounter, arc, format, log⟩ := o
  cases arc with
  | none =>
    have hnil : streamOps rs = [] := hpend.symm
    obtain ⟨o', ho', hshares, -⟩ := uses_refs h ho
    rw [hnil] at ho'
    cases ho'
    exact ⟨_, rfl, hshares⟩
  | some held =>
    obtain ⟨j, ops⟩ := held
    obtain rfl : ops = streamOps rs := hpend
    obtain ⟨o', ho', hshares, -⟩ := uses_refs h
      (o := ⟨stream, refCounter, some (j, streamOps rs), format, log ++ [.released j]⟩) ⟨ho.stream, ho.refCounter⟩
    refine ⟨{ o' with arc := none }, ?_, ⟨hshares.stream, hshares.refCounter⟩⟩
    change (OpenArchive.uses ((streamOps rs).map .ref) >>= fun _ => modify fun s => { s with arc := none }) _ = _
    rw [OpenArchive.bind_ok ho']
    rfl

/-- **`openArchive` on what the handlers did** finds the format that the loop
found. -/
theorem openArchive_recorded {env : Env} {lib : ImplLib} : ∀ {formats : List (ImplFormat × Handler)} {l l' : Loop}
    {it : ImplFormat} {o : OpenState} (i : ℕ), detect env lib formats l = .ok (it, l') → Shares o l.shared →
    o.pending = streamOps (l.arc.getD []) →
    ∃ o', OpenArchive.openArchive lib env.toLocale i (recorded env formats l) o = .ok () o' ∧ o'.format = some it ∧
      Shares o' l'.shared
  | [], _, _, _, _, _, h, _, _ => nomatch h
  | (it, h) :: formats, l, l', it', o, i, hd, ho, hpend => by
    obtain ⟨⟨found, l1⟩, hattempt, hd⟩ := Shared.bind_eq_ok.mp hd
    obtain ⟨s, v, res, rs, t, hs, hv, hnf, hstored, hrun, hfound, hname, rfl⟩ := attempt_eq_ok hattempt
    have hrecorded : recorded env ((it, h) :: formats) l =
        (it, ⟨env.libc l.shared.clock, h.createObject, h.stored, usesOf env h.open v, res, streamOps rs⟩) ::
          recorded env formats ⟨t, some rs⟩ := by
      have hsv : (l.shared.rewind env >>= fun s => s.refs (l.arc.getD [])) = .ok v :=
        Shared.bind_eq_ok.mpr ⟨s, hs, hv⟩
      rw [recorded, hsv]
      simp only [hrun]
    rw [hrecorded]
    -- the rounds of the two loops are the same
    obtain ⟨o1, ho1, hsh1, harc1⟩ := rewind_shares hs ho i
    obtain ⟨o2, ho2, hsh2⟩ := releaseArc_shares hv hsh1 (by rw [OpenState.pending, harc1]; exact hpend)
    obtain ⟨o3, ho3, hsh3, harc3⟩ := uses_run hrun
      (o := { o2 with
        arc := some (i, streamOps rs)
        log := o2.log ++ [.created i it] ++ [.opened i o2.stream.file.ftell] }) ⟨hsh2.stream, hsh2.refCounter⟩
    have htry : OpenArchive.attempt lib env.toLocale i it
        ⟨env.libc l.shared.clock, h.createObject, h.stored, usesOf env h.open v, res, streamOps rs⟩ o =
        (if res = sOk then OpenArchive.select lib env.toLocale it else pure false : OpenM Bool) o3 := by
      have hcreate : OpenArchive.createObject i it
          ⟨env.libc l.shared.clock, h.createObject, h.stored, usesOf env h.open v, res, streamOps rs⟩ o1 =
          .ok () { o2 with arc := some (i, streamOps rs), log := o2.log ++ [.created i it] } := by
        unfold OpenArchive.createObject
        rw [OpenArchive.bind_ok ho2, if_pos hstored]
        exact OpenArchive.check_ok hnf "CreateObject" _
      have hopen : OpenArchive.callOpen i
          ⟨env.libc l.shared.clock, h.createObject, h.stored, usesOf env h.open v, res, streamOps rs⟩
          { o2 with arc := some (i, streamOps rs), log := o2.log ++ [.created i it] } = .ok res o3 := by
        change (OpenArchive.uses (usesOf env h.open v) >>= fun _ => pure res) _ = _
        rw [OpenArchive.bind_ok ho3]
        rfl
      unfold OpenArchive.attempt
      rw [OpenArchive.bind_ok ho1, OpenArchive.bind_ok hcreate, OpenArchive.bind_ok hopen]
    unfold OpenArchive.openArchive
    by_cases hres : res = sOk
    · obtain ⟨name, hname⟩ := hname hres
      obtain rfl : found = true := hfound.trans (decide_eq_true hres)
      cases hd
      rw [if_pos hres] at htry
      have hselect : OpenArchive.select lib env.toLocale it o3 = .ok true { o3 with format := some it } := by
        unfold OpenArchive.select
        rw [hname]
        rfl
      refine ⟨{ o3 with format := some it }, ?_, rfl, hsh3.stream, hsh3.refCounter⟩
      rw [OpenArchive.bind_ok (htry.trans hselect)]
      rfl
    · obtain rfl : found = false := hfound.trans (decide_eq_false hres)
      rw [if_neg hres] at htry
      rw [OpenArchive.bind_ok (htry.trans rfl)]
      exact openArchive_recorded (i + 1) hd hsh3 (by rw [OpenState.pending, harc3]; rfl)

section isolated

variable {env : Env} (libc : LibcReads env) (lib : ImplLib) {path : FsPath} {stat : Stat} {bytes : List UInt8}
  (clock : ℕ)

include libc

theorem detect_found_iff {formats : List (ImplFormat × Handler)}
    (htidy : ∀ x ∈ formats, Tidy env (opened path stat bytes) x.2)
    (hnames : ∀ x ∈ formats, ∃ name, x.1.name lib env.toLocale = .ok name) :
    (∃ r, detect env lib formats (start (opened path stat bytes) clock) = .ok r) ↔
      ∃ x ∈ formats, accepts env (opened path stat bytes) x.2 = true := by
  obtain ⟨hsome, hnone⟩ := detect_eq libc lib (settled_start path stat bytes clock) htidy hnames
  rw [← List.find?_isSome (p := fun x : ImplFormat × Handler => accepts env (opened path stat bytes) x.2)]
  cases hfind : formats.find? fun x => accepts env (opened path stat bytes) x.2 with
  | some x =>
    obtain ⟨rs, t, l, -, hl, -⟩ := hsome x hfind
    exact iff_of_true ⟨_, hl⟩ rfl
  | none =>
    rw [hnone hfind]
    exact iff_of_false (fun ⟨_, h⟩ => nomatch h) Bool.false_ne_true

/-- **The format found is the first whose handler accepts the file by itself**, and
the archive is as that handler alone leaves it, but for what the library has
read ahead; where none accepts, the exception says so. In another order of the
formats one is found as well, or none. `openArchive`, on what the handlers did,
comes to the same. -/
theorem detection_is_isolated {formats : List (ImplFormat × Handler)}
    (htidy : ∀ x ∈ formats, Tidy env (opened path stat bytes) x.2)
    (hnames : ∀ x ∈ formats, ∃ name, x.1.name lib env.toLocale = .ok name) :
    (∀ x, formats.find? (fun x => accepts env (opened path stat bytes) x.2) = some x → ∃ rs t l s,
      alone env (opened path stat bytes) x.2 = .ok ((sOk, rs), t) ∧
      detect env lib formats (start (opened path stat bytes) clock) = .ok (x.1, l) ∧
      Same l.shared t ∧ l.arc = some rs ∧
      OpenArchive.openArchive lib env.toLocale 0 (recorded env formats (start (opened path stat bytes) clock))
        (OpenArchive.start (opened path stat bytes)) = .ok () s ∧
      s.format = some x.1 ∧ FileReadStream.Twin s.stream t.stream ∧ s.refCounter = t.refCounter) ∧
    (formats.find? (fun x => accepts env (opened path stat bytes) x.2) = none →
      detect env lib formats (start (opened path stat bytes) clock) = .error (.escape (.exn "ERROR_INVALID_DATA"))) ∧
    ∀ formats', formats'.Perm formats →
      ((∃ r, detect env lib formats' (start (opened path stat bytes) clock) = .ok r) ↔
        ∃ r, detect env lib formats (start (opened path stat bytes) clock) = .ok r) := by
  obtain ⟨hsome, hnone⟩ := detect_eq libc lib (settled_start path stat bytes clock) htidy hnames
  refine ⟨fun x hx => ?_, hnone, fun formats' hperm => ?_⟩
  · obtain ⟨rs, t, l, halone, hl, hsame, harc⟩ := hsome x hx
    obtain ⟨s, hs, hformat, hshares⟩ := openArchive_recorded 0 hl
      (o := OpenArchive.start (opened path stat bytes)) ⟨rfl, rfl⟩ rfl
    exact ⟨rs, t, l, s, halone, hl, hsame, harc, hs, hformat, by rw [hshares.stream]; exact hsame.stream,
      hshares.refCounter.trans hsame.refCounter⟩
  · rw [detect_found_iff libc lib clock htidy hnames,
      detect_found_iff libc lib clock (fun x hx => htidy x (hperm.subset hx)) fun x hx => hnames x (hperm.subset hx)]
    constructor
    · rintro ⟨x, hx, hacc⟩
      exact ⟨x, hperm.subset hx, hacc⟩
    · rintro ⟨x, hx, hacc⟩
      exact ⟨x, hperm.symm.subset hx, hacc⟩

end isolated

/-- Reads the first two bytes, with a reference to the stream that it keeps, and
accepts if they are these. The reference goes when the object does. -/
def signature (first second : UInt8) : Handler where
  createObject := sOk
  stored := true
  «open» := .call .streamAddRef fun _ => .call (.read 2 (some 0)) fun r =>
    .ret (if r.data = [first, second] then sOk else 1, [⟨true, .drop⟩])

theorem tidy_signature (first second : UInt8) : Tidy (Env.plain (.ret sOk))
    (opened ⟨['/', 'x']⟩ zeroStat [1, 2]) (signature first second) :=
  ⟨(by decide : ¬ failed sOk), rfl, _, _, _, rfl, _, rfl, rfl, rfl⟩

/-- Two formats, of which the second accepts. -/
theorem detection_is_isolated_second : ∃ l,
    detect (Env.plain (.ret sOk)) OpenArchive.nameless
      [(⟨0, [], []⟩, signature 7 7), (⟨1, [], []⟩, signature 1 2)]
      (start (opened ⟨['/', 'x']⟩ zeroStat [1, 2]) 0) = .ok (⟨1, [], []⟩, l) := by
  have hlibc : LibcReads (Env.plain (.ret sOk)) := ⟨fun _ => rfl, fun _ => rfl⟩
  have htidy : ∀ x ∈ [((⟨0, [], []⟩ : ImplFormat), signature 7 7), (⟨1, [], []⟩, signature 1 2)],
      Tidy (Env.plain (.ret sOk)) (opened ⟨['/', 'x']⟩ zeroStat [1, 2]) x.2 :=
    List.forall_mem_cons.mpr ⟨tidy_signature 7 7, List.forall_mem_singleton.mpr (tidy_signature 1 2)⟩
  have h := detection_is_isolated hlibc OpenArchive.nameless 0 htidy
    (List.forall_mem_cons.mpr ⟨⟨_, rfl⟩, List.forall_mem_singleton.mpr ⟨_, rfl⟩⟩)
  obtain ⟨rs, t, l, s, -, hl, -⟩ := h.1 (⟨1, [], []⟩, signature 1 2) rfl
  exact ⟨l, hl⟩

end Loop

end Fuse3P7zip
