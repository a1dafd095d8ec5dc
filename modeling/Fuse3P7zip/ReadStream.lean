/-
# The stream a format handler reads the archive from

`ReadStream.cpp`. A `FileReadStream` is a stdio stream over the archive's
file. `Read` and `Seek` ask the stream's error flag for their result, which
no seek sets and nothing clears. So a seek that is refused says `S_OK`, and
a read after a failed one does not: `calls_ok_iff` is when the calls say
what they did.
-/
import Mathlib.Data.UInt
import Fuse3P7zip.Archive
import Fuse3P7zip.Lib.Stdio

namespace Fuse3P7zip

open Stdio (Outcome File)

structure FileReadStream where
  path : FsPath
  stat : Stat
  file : File

namespace FileReadStream

/-- `check_error`: 1, which is `S_FALSE`, when the error flag is up. -/
def checkError (file : File) : HRESULT := if file.ferror then 1 else sOk

/-- The constructor, with the bytes of the file if it can be opened, and its
`lstat`. -/
def new (path : FsPath) (disk : Option (List UInt8)) (stat : Stat) : Except Escape FileReadStream := do
  let file ← checkResult (disk.map File.opened) ("fopen: " ++ String.ofList path.native)
  return ⟨path, stat, file⟩

/-- `Read`: the code, the bytes put into the buffer, `*processedSize` unless
the pointer is null, and the stream. -/
def read (this : FileReadStream) (size : UInt32) (processedSize : Option UInt32) (o : Outcome) :
    HRESULT × List UInt8 × Option UInt32 × FileReadStream :=
  let (data, file) := this.file.fread size.toNat o
  (checkError file, data, processedSize.map fun _ => UInt32.ofNat data.length, { this with file := file })

/-- `Seek`: the code, `*newPosition` unless the pointer is null, and the
stream. -/
def seek (this : FileReadStream) (offset : Int64) (seekOrigin : UInt32) (newPosition : Option UInt64)
    (o : Outcome) : HRESULT × Option UInt64 × FileReadStream :=
  let (ok, file) := this.file.fseek offset.toInt seekOrigin.toNat o
  if ok then
    (sOk, newPosition.map fun _ => UInt64.ofNat file.ftell, { this with file := file })
  else (checkError file, newPosition, { this with file := file })

/-- What a handler calls, with what the library does in it. -/
inductive Call where
  | read (size : UInt32) (processedSize : Option UInt32) (o : Outcome)
  | seek (offset : Int64) (seekOrigin : UInt32) (newPosition : Option UInt64) (o : Outcome)

namespace Call

/-- The stream behind the call. -/
def exec (this : FileReadStream) : Call → FileReadStream
  | .read size processedSize o => (this.read size processedSize o).2.2.2
  | .seek offset seekOrigin newPosition o => (this.seek offset seekOrigin newPosition o).2.2

/-- Where a seek is to go in the archive `bytes`. -/
def target (bytes : List UInt8) (this : FileReadStream) (offset : Int64) (seekOrigin : UInt32) : Option ℕ :=
  (⟨bytes, this.file.ftell⟩ : Bytes.Cursor UInt8).target offset.toInt seekOrigin.toNat

/-- The `fread` of a read in the archive `bytes` fails. -/
def Fails (bytes : List UInt8) (this : FileReadStream) (size : UInt32) (o : Outcome) : Prop :=
  File.freadFails o size.toNat (min size.toNat (bytes.length - this.file.ftell)) = true

/-- The call says what it does, in the archive `bytes`. A read is `S_OK`
exactly when its `fread` did not fail, and then has all the bytes there
are; a seek is `S_OK` only if it went to where it was asked to, and says
where that is, and otherwise it stays. -/
def Ok (bytes : List UInt8) (this : FileReadStream) : Call → Prop
  | .read size processedSize o =>
    let n := min size.toNat (bytes.length - this.file.ftell)
    let (hr, data, processed, this') := this.read size processedSize o
    (hr = sOk ↔ ¬ Fails bytes this size o) ∧
      (hr = sOk → data = Bytes.slice bytes this.file.ftell size.toNat ∧
        this'.file.ftell = this.file.ftell + n ∧ ∀ v ∈ processed, v.toNat = n)
  | .seek offset seekOrigin newPosition o =>
    let (hr, position, this') := this.seek offset seekOrigin newPosition o
    (hr = sOk → target bytes this offset seekOrigin = some this'.file.ftell ∧
      ∀ v ∈ position, v.toNat = this'.file.ftell) ∧
      (hr ≠ sOk → this'.file.ftell = this.file.ftell)

/-- The error flag is down before a read that does not fail. A seek is done,
or it leaves the flag up, or it was to go where the stream is already. -/
def Safe (bytes : List UInt8) (this : FileReadStream) : Call → Prop
  | .read size _ o => Fails bytes this size o ∨ this.file.ferror = false
  | .seek offset seekOrigin newPosition o =>
    (o.fseek = .done ∧ ∃ n, target bytes this offset seekOrigin = some n ∧ n ≤ Stdio.longMax) ∨
      o.fseek = .ioError ∨ this.file.ferror = true ∨
      (target bytes this offset seekOrigin = some this.file.ftell ∧
        ∀ v ∈ newPosition, v.toNat = this.file.ftell)

end Call

/-- The stream behind the calls. -/
def after (this : FileReadStream) : List Call → FileReadStream := List.foldl Call.exec this

/-- Every call a handler gets to says what it does. -/
def Refines (bytes : List UInt8) (this : FileReadStream) (calls : List Call) : Prop :=
  ∀ pre call, pre ++ [call] <+: calls → call.Ok bytes (this.after pre)

/-! ### A call -/

/-- The stream is on the file of the archive `bytes`, and has read nothing else. -/
structure On (bytes : List UInt8) (this : FileReadStream) : Prop where
  disk : this.file.disk = bytes
  pend : this.file.pend = []
  fresh : this.file.Fresh

theorem On.content {bytes : List UInt8} {this : FileReadStream} (h : On bytes this) : this.file.content = bytes :=
  (File.content_of_pend_nil h.pend).trans h.disk

theorem checkError_eq_sOk_iff (file : File) : checkError file = sOk ↔ file.err = false := by
  unfold checkError File.ferror
  cases file.err <;> decide

section call

variable {bytes : List UInt8} {this : FileReadStream} (hon : On bytes this)

include hon

/-- What there is to read. -/
theorem take_rest (size : ℕ) : this.file.rest.take size = Bytes.slice bytes this.file.ftell size := by
  rw [File.rest_of_fresh hon.fresh, hon.content]
  rfl

/-- A read is `S_OK` when the flag is down behind it. -/
theorem read_eq_sOk_iff (size : UInt32) (processedSize : Option UInt32) (o : Outcome) :
    (this.read size processedSize o).1 = sOk ↔
      this.file.ferror = false ∧ ¬ Call.Fails bytes this size o := by
  have herr : (this.file.fread size.toNat o).2.err = (this.file.ferror ||
      File.freadFails o size.toNat (min size.toNat (bytes.length - this.file.ftell))) := by
    rw [File.err_fread, take_rest hon, Bytes.length_slice]
    rfl
  show checkError (this.file.fread size.toNat o).2 = sOk ↔ _
  rw [checkError_eq_sOk_iff, herr, Bool.or_eq_false_iff, Call.Fails, Bool.not_eq_true]

/-- A read that does not fail has all the bytes there are. -/
theorem read_of_not_fails {size : UInt32} {o : Outcome} (h : ¬ Call.Fails bytes this size o)
    (processedSize : Option UInt32) :
    (this.read size processedSize o).2.1 = Bytes.slice bytes this.file.ftell size.toNat ∧
      (this.read size processedSize o).2.2.2.file.ftell =
        this.file.ftell + min size.toNat (bytes.length - this.file.ftell) ∧
      ∀ v ∈ (this.read size processedSize o).2.2.1,
        v.toNat = min size.toNat (bytes.length - this.file.ftell) := by
  have hlen : (Bytes.slice bytes this.file.ftell size.toNat).length =
      min size.toNat (bytes.length - this.file.ftell) := Bytes.length_slice _ _ _
  have hf : File.freadFails o size.toNat (this.file.cursor.read size.toNat).1.length = false := by
    show File.freadFails o _ (Bytes.slice this.file.content this.file.pos size.toNat).length = false
    rw [hon.content]
    show File.freadFails o _ (Bytes.slice bytes this.file.ftell size.toNat).length = false
    rw [hlen]
    simpa [Call.Fails] using h
  have hdata : (this.file.fread size.toNat o).1 = Bytes.slice bytes this.file.ftell size.toNat := by
    rw [← hon.content]
    exact congrArg Prod.fst (File.fread_eq_read hon.fresh size.toNat hf)
  have hpos : (this.file.fread size.toNat o).2.ftell =
      this.file.ftell + min size.toNat (bytes.length - this.file.ftell) := by
    rw [← hlen, ← hdata]
    exact File.pos_fread _ _ _
  have hn : (UInt32.ofNat (this.file.fread size.toNat o).1.length).toNat =
      min size.toNat (bytes.length - this.file.ftell) := by
    rw [hdata, hlen, UInt32.toNat_ofNat_of_lt']
    have := size.toNat_lt
    show min _ _ < 2 ^ 32
    omega
  refine ⟨hdata, hpos, fun v hv => ?_⟩
  obtain ⟨w, -, rfl⟩ := Option.map_eq_some_iff.mp hv
  exact hn

/-- What a seek comes to: it is done, with its position, or it stays. -/
theorem seek_cases (offset : Int64) (seekOrigin : UInt32) (newPosition : Option UInt64) (o : Outcome) :
    (∃ n, o.fseek = .done ∧ Call.target bytes this offset seekOrigin = some n ∧ n ≤ Stdio.longMax ∧
      (this.seek offset seekOrigin newPosition o).1 = sOk ∧
      (this.seek offset seekOrigin newPosition o).2.1 = newPosition.map (fun _ => UInt64.ofNat n) ∧
      (this.seek offset seekOrigin newPosition o).2.2.file.ftell = n) ∨
    (¬ (o.fseek = .done ∧ ∃ n, Call.target bytes this offset seekOrigin = some n ∧ n ≤ Stdio.longMax) ∧
      ((this.seek offset seekOrigin newPosition o).1 = sOk ↔
        ¬ (o.fseek = .ioError ∨ this.file.ferror = true)) ∧
      (this.seek offset seekOrigin newPosition o).2.1 = newPosition ∧
      (this.seek offset seekOrigin newPosition o).2.2.file.ftell = this.file.ftell) := by
  have ht : this.file.cursor.target offset.toInt seekOrigin.toNat =
      Call.target bytes this offset seekOrigin := by rw [← hon.content]; rfl
  unfold seek
  rcases File.fseek_cases this.file offset.toInt seekOrigin.toNat o with
    ⟨n, ho, hn, hle, hf⟩ | ⟨ho, hno, hf⟩ | ⟨ho, hf⟩
  · refine .inl ⟨n, ho, ht ▸ hn, hle, ?_⟩
    simp [hf, File.ftell]
  · -- refused, or there is nowhere to go
    rw [ht] at hno
    have hflush : (this.file.flush o.flushed).err = this.file.err ∧ (this.file.flush o.flushed).pos = this.file.pos :=
      ⟨rfl, rfl⟩
    refine .inr ⟨fun ⟨hdone, n, hn, hle⟩ => hno n hn hle hdone, ?_⟩
    simp [hf, checkError_eq_sOk_iff, File.ferror, File.ftell, hflush.1, hflush.2, ho]
  · have herr : (this.file.fail o.flushed).err = true := rfl
    have hpos : (this.file.fail o.flushed).pos = this.file.pos :=
      congrArg Bytes.Cursor.pos (File.cursor_fail (by rw [hon.pend]; exact Nat.zero_le _))
    refine .inr ⟨fun h => absurd (ho.symm.trans h.1) (by decide), ?_⟩
    simp [hf, checkError_eq_sOk_iff, File.ferror, File.ftell, herr, hpos, ho]

/-- A call says what it does exactly when it is safe. -/
theorem callOk_iff : ∀ call : Call, call.Ok bytes this ↔ call.Safe bytes this
  | .read size processedSize o => by
    have hr := read_eq_sOk_iff hon size processedSize o
    unfold Call.Ok Call.Safe
    simp only [hr]
    refine ⟨fun h => ?_, fun h => ⟨?_, fun hs => read_of_not_fails hon hs.2 processedSize⟩⟩
    · by_cases hf : Call.Fails bytes this size o
      · exact .inl hf
      · exact .inr (h.1.mpr hf).1
    · exact ⟨fun hs => hs.2, fun hf => ⟨h.resolve_left hf, hf⟩⟩
  | .seek offset seekOrigin newPosition o => by
    unfold Call.Ok Call.Safe
    obtain ⟨n, h1, h2, h3, h4, h5, h6⟩ | ⟨h1, h2, h3, h4⟩ :=
      seek_cases hon offset seekOrigin newPosition o
    · simp only [h4, h5, h6]
      refine iff_of_true ⟨fun _ => ⟨h2, fun v hv => ?_⟩, fun h => absurd rfl h⟩ (.inl ⟨h1, n, h2, h3⟩)
      obtain ⟨w, -, rfl⟩ := Option.map_eq_some_iff.mp hv
      have : Stdio.longMax < 2 ^ 64 := by decide
      exact UInt64.toNat_ofNat_of_lt' (by show n < 2 ^ 64; omega)
    · simp only [h2, h3, h4]
      refine ⟨fun h => ?_, fun h => ⟨fun hs => ?_, fun _ => trivial⟩⟩
      · by_cases hs : o.fseek = .ioError ∨ this.file.ferror = true
        · exact .inr (hs.elim .inl fun h => .inr (.inl h))
        · exact .inr (.inr (.inr (h.1 hs)))
      · obtain h | h | h | h := h
        · exact absurd h h1
        · exact absurd (.inl h) hs
        · exact absurd (.inr h) hs
        · exact h

end call

/-! ### A run -/

theorem On.exec {bytes : List UInt8} {this : FileReadStream} (h : On bytes this) : ∀ call : Call, On bytes (call.exec this)
  | .read size _ o => by
    refine ⟨?_, File.pend_fread _ _ _, h.fresh.fread _ _⟩
    exact (File.content_of_pend_nil (File.pend_fread _ _ _)).symm.trans ((File.content_fread _ _ _).trans h.content)
  | .seek offset seekOrigin newPosition o => by
    have hfile : (Call.exec this (.seek offset seekOrigin newPosition o)).file =
        (this.file.fseek offset.toInt seekOrigin.toNat o).2 := by
      show (seek _ _ _ _ _).2.2.file = _
      unfold seek
      simp only
      split_ifs <;> rfl
    have hpend := File.pend_fseek h.pend offset.toInt seekOrigin.toNat o
    have hcontent := File.content_fseek offset.toInt seekOrigin.toNat (File.not_drops_of_pend_nil h.pend o)
    refine ⟨?_, hfile ▸ hpend, hfile ▸ h.fresh.fseek _ _ _⟩
    rw [hfile, ← File.content_of_pend_nil hpend, hcontent, h.content]

theorem On.after {bytes : List UInt8} {this : FileReadStream} (h : On bytes this) : ∀ calls : List Call,
    On bytes (this.after calls)
  | [] => h
  | call :: calls => (h.exec call).after calls

theorem on_opened (path : FsPath) (stat : Stat) (bytes : List UInt8) : On bytes ⟨path, stat, .opened bytes⟩ :=
  ⟨rfl, rfl, File.fresh_of_buf_nil rfl⟩

/-- On a new stream all calls say what they do exactly when all are safe. -/
theorem calls_ok_iff {path : FsPath} {bytes : List UInt8} {stat : Stat} {this : FileReadStream}
    (h : new path (some bytes) stat = .ok this) (calls : List Call) :
    Refines bytes this calls ↔
      ∀ pre call, pre ++ [call] <+: calls → call.Safe bytes (this.after pre) := by
  have hon : On bytes this := by
    cases h
    exact on_opened path stat bytes
  unfold Refines
  simp only [callOk_iff (hon.after _)]

theorem forall_prefix_cons {P : List Call → Call → Prop} {c : Call} {calls : List Call} :
    (∀ pre call, pre ++ [call] <+: c :: calls → P pre call) ↔
      P [] c ∧ ∀ pre call, pre ++ [call] <+: calls → P (c :: pre) call := by
  constructor
  · exact fun h => ⟨h [] c ⟨calls, rfl⟩, fun pre call hp => h (c :: pre) call ((List.prefix_cons_inj c).mpr hp)⟩
  · rintro ⟨hc, h⟩ pre call hp
    cases pre with
    | nil =>
      obtain ⟨rfl, -⟩ := List.cons_prefix_cons.mp hp
      exact hc
    | cons d pre =>
      obtain ⟨rfl, htail⟩ := List.cons_prefix_cons.mp hp
      exact h pre call htail

/-- A seek, a read that fails behind one byte and a seek back say what they do. The
read behind them does not, as the flag is still up. -/
theorem calls_ok_read :
    let this : FileReadStream := ⟨⟨['/', 'x']⟩, zeroStat, .opened [7, 8, 9]⟩
    let calls := [Call.seek 1 0 (some 0) {}, .read 5 (some 0) { fread := some 1 }, .seek 0 0 none {}]
    Refines [7, 8, 9] this calls ∧ ¬ Refines [7, 8, 9] this (calls ++ [.read 1 (some 0) {}]) := by
  intro this calls
  constructor
  · refine (calls_ok_iff rfl calls).mpr ?_
    refine forall_prefix_cons.mpr ⟨?_, forall_prefix_cons.mpr ⟨?_, forall_prefix_cons.mpr ⟨?_, ?_⟩⟩⟩
    · exact .inl ⟨rfl, 1, rfl, by decide⟩
    · exact .inl rfl
    · exact .inl ⟨rfl, 0, rfl, by decide⟩
    · exact fun pre call hp => absurd hp.length_le (by simp)
  · intro h
    rcases (calls_ok_iff rfl (calls ++ [.read 1 (some 0) {}])).mp h calls _ (List.prefix_refl _) with hfails | hdown
    · exact absurd (show File.freadFails {} 1 1 = true from hfails) (by decide)
    · exact absurd hdown (by decide)

/-- A seek in front of the start is refused and says `S_OK`. -/
theorem refused_seek_says_ok :
    ¬ ∀ path bytes stat this calls, new path (some bytes) stat = .ok this →
      Refines bytes this calls := by
  intro h
  have hr := h ⟨['/', 'x']⟩ [7] zeroStat _ [.seek (-1) 0 none {}] rfl [] _ (List.prefix_refl _)
  have ht := (hr.1 rfl).1
  revert ht
  decide

end FileReadStream

end Fuse3P7zip
