/-
# Reads can be repeated

What was read at a path is read there again. The C library may buffer what a
decoder writes as it likes, and an item may be extracted at any time: where no
call of the library fails, and the decoders do the same whenever they are
asked, an extraction always leaves the same bytes (`decoded_eq`). So every path
has one content, and in every run of the mount every read of every handle is
a slice of the content of the path that was opened (`reads_repeat`).

Decoders that call `SetSize` are left out: it truncates the file without a
look at the buffer, and what it leaves depends on that.
-/
import Fuse3P7zip.FileSystem
import Fuse3P7zip.Lib.Bisim

namespace Fuse3P7zip

open Client (Agree Only)
open Stdio (File Outcome)

/-- No call of the C library fails. What it keeps in its buffers is left to it. -/
structure LibcWorks (env : Env) : Prop extends Fuse.LibcReads env where
  tmpfile : ∀ n, (env.libc n).tmpfile = true
  fwrite : ∀ n, (env.libc n).fwrite = none

/-- The texts, the password and the decoders are the same at all times. -/
structure Offers (env : Env) (loc : Locale) (password : Str) (decoders : UInt32 → Decoder) : Prop where
  toLocale : env.toLocale = loc
  password : env.password = password
  extract : ∀ n index, env.extract n index = decoders index

/-! ### Streams that are the same but for the buffer -/

namespace FileWriteStream

structure Twin (f g : FileWriteStream) : Prop where
  refCounter : f.refCounter = g.refCounter
  file : File.Twin f.file g.file

variable {f g : FileWriteStream}

theorem checkError_twin {f g : File} (h : File.Twin f g) : checkError f = checkError g := by
  unfold checkError File.ferror
  rw [h.err]

theorem Twin.addRef (h : Twin f g) : f.addRef.1 = g.addRef.1 ∧ Twin f.addRef.2 g.addRef.2 := by
  unfold FileWriteStream.addRef
  rw [h.refCounter]
  exact ⟨rfl, rfl, h.file⟩

theorem Twin.release (h : Twin f g) : f.release.1 = g.release.1 ∧ Option.Rel Twin f.release.2 g.release.2 := by
  unfold FileWriteStream.release
  rw [h.refCounter]
  refine ⟨rfl, ?_⟩
  dsimp only
  split_ifs
  · exact .none
  · exact .some ⟨rfl, h.file⟩

theorem Twin.queryInterface (h : Twin f g) (riid : Iid) :
    (f.queryInterface riid).1 = (g.queryInterface riid).1 ∧ Twin (f.queryInterface riid).2 (g.queryInterface riid).2 := by
  cases riid <;> first | exact ⟨rfl, h.addRef.2⟩ | exact ⟨rfl, h⟩

theorem Twin.write (h : Twin f g) (data : List UInt8) {o o' : Outcome} (ho : o.fwrite = none) (ho' : o'.fwrite = none) :
    (f.write data o).1 = (g.write data o').1 ∧ (f.write data o).2.1 = (g.write data o').2.1 ∧
      Twin (f.write data o).2.2 (g.write data o').2.2 := by
  obtain ⟨hn, hfile⟩ := h.file.fwrite data ho ho'
  exact ⟨checkError_twin hfile, hn, h.refCounter, hfile⟩

theorem Twin.seek (h : Twin f g) (offset : Int64) (seekOrigin : UInt32) {o o' : Outcome} (ho : o.fseek = .done)
    (ho' : o'.fseek = .done) :
    (f.seek offset seekOrigin o).1 = (g.seek offset seekOrigin o').1 ∧
      (f.seek offset seekOrigin o).2.1 = (g.seek offset seekOrigin o').2.1 ∧
      Twin (f.seek offset seekOrigin o).2.2 (g.seek offset seekOrigin o').2.2 := by
  obtain ⟨-, hfile⟩ := h.file.fseek offset.toInt seekOrigin.toNat ho ho'
  exact ⟨checkError_twin hfile, hfile.pos, h.refCounter, hfile⟩

end FileWriteStream

namespace Extractor

open FileWriteStream (Twin)

/-- The same to a decoder. -/
structure Same (s t : Extractor) : Prop where
  refCounter : s.refCounter = t.refCounter
  total : s.total = t.total
  file : Option.Rel Twin s.file t.file

theorem Same.onStream {s t : Extractor} (h : Same s t) {f g : FileWriteStream → Except Escape (Reply × Extractor)}
    (hfg : ∀ a b, Twin a b → Agree Same (f a) (g b)) : Agree Same (s.onStream f) (t.onStream g) := by
  unfold Extractor.onStream
  generalize hs : s.file = x
  generalize ht : t.file = y
  have hxy := h.file
  rw [hs, ht] at hxy
  cases hxy with
  | some hab => exact hfg _ _ hab
  | none => exact .error _

theorem Same.content {s t : Extractor} (h : Same s t) {env env' : Env} (libc : LibcWorks env) (libc' : LibcWorks env') :
    (s.file.map fun f => (f.fileSeek 0 0 (env.libc s.clock)).2.file.content) =
      t.file.map fun f => (f.fileSeek 0 0 (env'.libc t.clock)).2.file.content := by
  generalize hs : s.file = x
  generalize ht : t.file = y
  have hxy := h.file
  rw [hs, ht] at hxy
  cases hxy with
  | some hab => exact congrArg some (hab.file.fseek _ _ (libc.fseek _) (libc'.fseek _)).2.content
  | none => rfl

/-- A reply to a call on the stream. -/
theorem Same.replies {s t : Extractor} (h : Same s t) {r r' : Reply} (hr : r = r') {f g : Option FileWriteStream}
    (hfg : Option.Rel Twin f g) (n m : ℕ) : Agree Same (ε := Escape)
      (.ok (r, { s with file := f, clock := n })) (.ok (r', { t with file := g, clock := m })) := by
  subst hr
  exact .ok ⟨h.refCounter, h.total, hfg⟩

section same

variable {env env' : Env} (hloc : env.toLocale = env'.toLocale) (hpass : env.password = env'.password)
  (libc : LibcWorks env) (libc' : LibcWorks env')

include hloc hpass libc libc'

/-- A call comes to the same. -/
theorem agree_callback {s t : Extractor} {c : Call} (hc : NoSetSize c) (h : Same s t) :
    Agree Same (callback env s c) (callback env' t c) := by
  cases c with
  | setTotal size => exact .ok ⟨h.refCounter, rfl, h.file⟩
  | setCompleted completeValue => cases completeValue <;> exact .ok h
  | getStream index askExtractMode => exact .ok h
  | prepareOperation askExtractMode => exact .ok h
  | setOperationResult operationResult => exact .ok h
  | cryptoGetTextPassword =>
    show Agree Same (noexcept (wideStr env.toLocale env.password >>= _)) (noexcept (wideStr env'.toLocale env'.password >>= _))
    rw [hloc, hpass]
    cases wideStr env'.toLocale env'.password with
    | ok pass => exact .ok h
    | error e => cases e <;> exact .error _
  | addRef =>
    show Agree Same (.ok _) (.ok _)
    rw [h.refCounter]
    exact .ok ⟨rfl, h.total, h.file⟩
  | release =>
    show Agree Same (if Fuse3P7zip.release s.refCounter = 0 then _ else _) (if Fuse3P7zip.release t.refCounter = 0 then _ else _)
    rw [h.refCounter]
    split_ifs
    · exact .error _
    · exact .ok ⟨rfl, h.total, h.file⟩
  | queryInterface riid =>
    cases riid <;> first | exact .ok h | exact .ok ⟨congrArg Fuse3P7zip.addRef h.refCounter, h.total, h.file⟩
  | streamAddRef =>
    refine h.onStream fun f g hfg => h.replies ?_ (.some hfg.addRef.2) _ _
    exact congrArg (fun n : UInt32 => ({ count := n.toNat } : Reply)) hfg.addRef.1
  | streamRelease =>
    refine h.onStream fun f g hfg => h.replies ?_ hfg.release.2 _ _
    exact congrArg (fun n : UInt32 => ({ count := n.toNat } : Reply)) hfg.release.1
  | streamQueryInterface riid =>
    refine h.onStream fun f g hfg => ?_
    obtain ⟨hhr, htwin⟩ := hfg.queryInterface riid
    refine h.replies ?_ (.some htwin) _ _
    exact congrArg (fun hr : HRESULT => ({ hr := hr, object := hr = sOk } : Reply)) hhr
  | write data =>
    refine h.onStream fun f g hfg => ?_
    obtain ⟨hhr, hn, htwin⟩ := hfg.write data (libc.fwrite s.clock) (libc'.fwrite t.clock)
    refine h.replies ?_ (.some htwin) _ _
    exact congrArg₂ (fun (hr : HRESULT) n => ({ hr := hr, count := n } : Reply)) hhr hn
  | seek offset seekOrigin =>
    refine h.onStream fun f g hfg => ?_
    obtain ⟨hhr, hn, htwin⟩ := hfg.seek offset seekOrigin (libc.fseek s.clock) (libc'.fseek t.clock)
    refine h.replies ?_ (.some htwin) _ _
    exact congrArg₂ (fun (hr : HRESULT) n => ({ hr := hr, count := n } : Reply)) hhr hn
  | setSize newSize => exact absurd rfl (hc newSize)

end same

/-! ### What an extraction leaves -/

/-- **An extraction leaves the same bytes whenever it is made**, and however the library buffers. -/
theorem decoded_eq {env env' : Env} {loc : Locale} {password : Str} {decoders : UInt32 → Decoder}
    (h : Offers env loc password decoders) (h' : Offers env' loc password decoders) (libc : LibcWorks env)
    (libc' : LibcWorks env') {index : UInt32} (hd : (decoders index).Only NoSetSize) (clock clock' : ℕ) :
    decoded env clock index = decoded env' clock' index := by
  have hnew : ∀ {env : Env} (clock : ℕ), LibcWorks env → FileWriteStream.new (env.libc clock) = .ok ⟨1, .tmpfile⟩ :=
    fun clock libc => FileWriteStream.new_eq_ok.mpr ⟨libc.tmpfile clock, rfl⟩
  have hsame : Same (initial ⟨1, .tmpfile⟩ (clock + 1)) (initial ⟨1, .tmpfile⟩ (clock' + 1)) :=
    ⟨rfl, rfl, .some ⟨rfl, Stdio.File.Fresh.twin rfl⟩⟩
  have hrun : Agree Same ((decoders index).run (callback env) (initial ⟨1, .tmpfile⟩ (clock + 1)))
      ((decoders index).run (callback env') (initial ⟨1, .tmpfile⟩ (clock' + 1))) :=
    hd.agree_run (fun _ _ _ => agree_callback (h.toLocale.trans h'.toLocale.symm)
      (h.password.trans h'.password.symm) libc libc') hsame
  simp only [decoded, hnew _ libc, hnew _ libc', h.extract, h'.extract]
  generalize (decoders index).run (callback env) (initial ⟨1, .tmpfile⟩ (clock + 1)) = x at hrun ⊢
  generalize (decoders index).run (callback env') (initial ⟨1, .tmpfile⟩ (clock' + 1)) = y at hrun ⊢
  cases hrun with
  | error e => rfl
  | ok hst => exact hst.content libc libc'

end Extractor

namespace Fuse

/-- One item shows at a path. -/
theorem shown_unique {proposed : Str} {its : List Item} {i j : ℕ} {it jt : Item} (hi : Shown proposed its i it)
    (hj : Shown proposed its j jt) (h : namesOf proposed it = namesOf proposed jt) : i = j := by
  have hkeys : (keyOf proposed it).elements = (keyOf proposed jt).elements := by rw [elements_keyOf, elements_keyOf, h]
  rcases lt_trichotomy i j with hlt | he | hlt
  · exact absurd hkeys.symm (hi.2 j jt hlt hj.1)
  · exact he
  · exact absurd hkeys (hj.2 i it hlt hi.1)

/-- Every path has one content at most, in all surroundings that offer the same. -/
theorem contents_unique {env env' : Env} {loc : Locale} {password : Str} {decoders : UInt32 → Decoder}
    (h : Offers env loc password decoders) (h' : Offers env' loc password decoders) (libc : LibcWorks env)
    (libc' : LibcWorks env') (hd : ∀ index, (decoders index).Only NoSetSize) {arcStat : Stat} {allowOther : Bool}
    {proposed : Str} {its : List Item} {path : List Str} {bytes bytes' : List UInt8}
    (hb : bytes ∈ (fileSystem env arcStat allowOther proposed its).contents path)
    (hb' : bytes' ∈ (fileSystem env' arcStat allowOther proposed its).contents path) : bytes = bytes' := by
  obtain ⟨i, it, clock, hi, hnames, hdec⟩ := hb
  obtain ⟨j, jt, clock', hj, hnames', hdec'⟩ := hb'
  obtain rfl := shown_unique hi hj (hnames.trans hnames'.symm)
  rw [Extractor.decoded_eq h h' libc libc' (hd _) clock clock'] at hdec
  exact Option.some.inj (hdec.symm.trans hdec')

/-- **Reads can be repeated.** Every path has one content, which is what any
extraction of the item there leaves, however the C library buffers and whenever it
is made; and in every run of the mount a read of a handle is a slice of the
content of the path at which the handle was opened. -/
theorem reads_repeat {loc : Locale} {arc : ImplArchive} {allowOther : Bool} {tree : FileTree}
    (h : execute loc arc allowOther = .ok tree) (password : Str) {decoders : UInt32 → Decoder}
    (hd : ∀ index, (decoders index).Only NoSetSize) :
    ∃ its, List.Forall₂ (fun item it => decode loc arc item = .ok it) arc.items its ∧
      ∃ content : List Str → List UInt8, ∀ env, Offers env loc password decoders → LibcWorks env →
        (∀ i it clock bytes, Shown arc.proposed its i it → Extractor.decoded env clock (UInt32.ofNat i) = some bytes →
          bytes = content (namesOf arc.proposed it)) ∧
        ∀ hist m, ReadOnlyFs.Runs (answer env) Allowed (.fresh tree) hist m →
          ∀ pre handle offset size data suf, hist = pre ++ (.read handle offset size, .data data) :: suf →
            ∃ path, ReadOnlyFs.openAt pre handle = some path ∧ data = ((content path).drop offset).take size := by
  obtain ⟨its, hits, rfl⟩ := execute_ok h
  have spec := treeSpec_treeOf arc.stat arc.proposed allowOther its
  -- the contents in any of the surroundings
  have hcontent : ∀ path, ∃ content, ∀ env, Offers env loc password decoders → LibcWorks env →
      ∀ bytes ∈ (fileSystem env arc.stat allowOther arc.proposed its).contents path, bytes = content := by
    intro path
    by_cases hsome : ∃ env, Offers env loc password decoders ∧ LibcWorks env ∧
        ∃ bytes, bytes ∈ (fileSystem env arc.stat allowOther arc.proposed its).contents path
    · obtain ⟨env, hoff, libc, content, hc⟩ := hsome
      exact ⟨content, fun env' hoff' libc' bytes hb => contents_unique hoff' hoff libc' libc hd hb hc⟩
    · exact ⟨[], fun env hoff libc bytes hb => absurd ⟨env, hoff, libc, bytes, hb⟩ hsome⟩
  choose content hcontent using hcontent
  refine ⟨its, hits, content, fun env hoff libc => ⟨fun i it clock bytes hshown hdec => ?_, ?_⟩⟩
  · exact hcontent _ env hoff libc bytes ⟨i, it, clock, hshown, rfl, hdec⟩
  · intro hist m hruns pre handle offset size data suf hhist
    have hcut : ∀ clock index, Extractor.Uncut env clock index := fun clock index =>
      Extractor.uncut_of_only (by rw [hoff.extract]; exact hd index)
    obtain ⟨s, htrace, -⟩ := (simulates_answer spec libc.toLibcReads hcut).traces hruns
    obtain ⟨path, hpath, bytes, hb, rfl⟩ := htrace.read_mem hhist
    exact ⟨path, hpath, by rw [hcontent path env hoff libc bytes hb]⟩

/-- Three bytes, opened twice: both reads are of one content. -/
theorem reads_repeat_of_three : ∃ content : List Str → List UInt8,
    [2, 3] = ((content [['a']]).drop 1).take 10 ∧ [1, 2] = ((content [['a']]).drop 0).take 2 := by
  have hlim : ¬ overLimit (Env.plain (writing 0 [1, 2, 3] kOK)) (fileStat zeroStat (.file ['a'] 3)) := by
    decide +kernel
  have hallowed : ∀ handles clock, Allowed ⟨(Mount.single (.file ['a'] 3)).tree, handles, clock⟩ (.open [['a']]) := by
    intro handles clock
    refine ⟨by decide, ?_⟩
    rw [show kernelPath [['a']] = ['/', 'a'] from rfl, cbGetattr_of_find _ (find_single 3)]
    decide
  have hopen : answer (Env.plain (writing 0 [1, 2, 3] kOK)) (Mount.single (.file ['a'] 3)) (.open [['a']]) = .ok _ :=
    bind_eq_ok.mpr ⟨_, cbOpen_of_extract {} (find_single 3) hlim rfl, rfl⟩
  have h1 := ReadOnlyFs.Runs.step .start (hallowed _ _) hopen
  have h2 := ReadOnlyFs.Runs.step h1 (show Allowed _ (.read 1 1 10) from ⟨Option.some_ne_none _, by decide, by decide⟩) rfl
  have h3 := ReadOnlyFs.Runs.step h2 (show Allowed _ (.close 1) from Option.some_ne_none _) rfl
  have h4 := ReadOnlyFs.Runs.step h3 (hallowed _ _)
    (bind_eq_ok.mpr ⟨_, cbOpen_of_extract {} (find_single 3) hlim rfl, rfl⟩)
  have h5 := ReadOnlyFs.Runs.step h4 (show Allowed _ (.read 1 0 2) from ⟨Option.some_ne_none _, by decide, by decide⟩) rfl
  have libc : LibcWorks (Env.plain (writing 0 [1, 2, 3] kOK)) :=
    ⟨⟨fun _ => rfl, fun _ => rfl⟩, fun _ => rfl, fun _ => rfl⟩
  have hd : ∀ index, ((fun _ : UInt32 => writing 0 [1, 2, 3] kOK) index).Only NoSetSize :=
    fun _ => Extractor.only_writing 0 [1, 2, 3] kOK
  obtain ⟨its, -, content, h⟩ := reads_repeat (shownAt_single (sOk, .ui8 3)).mounted [] hd
  obtain ⟨-, hreads⟩ := h _ ⟨rfl, rfl, fun _ _ => rfl⟩ libc
  obtain ⟨p, hp, hd⟩ := hreads _ _ h5 [(.open [['a']], .handle 1)] 1 1 10 _ _ rfl
  obtain ⟨q, hq, he⟩ := hreads _ _ h5 [_, _, _, _] 1 0 2 _ [] rfl
  cases hp
  cases hq
  exact ⟨content, hd, he⟩

end Fuse

end Fuse3P7zip
