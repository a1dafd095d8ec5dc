/-
# The temporary file as a seekable array

A run is what the decoder calls on a new stream, where every stdio call
succeeds, with the array the calls are meant for: `Write` overwrites at the
cursor, `Seek` moves it, `SetSize` cuts or fills up and leaves it. How much
of its buffer the library keeps, and how far it reads ahead, is its own affair.
`SetSize` truncates the descriptor, and the stream does not know of it: the two
part where written bytes behind the new end are still in the buffer, or where
bytes behind it were read ahead, and only there (`refines_iff`).
-/
import Mathlib.Data.UInt
import Fuse3P7zip.WriteStream

namespace Fuse3P7zip
namespace FileWriteStream

open Stdio (Outcome File)
open Bytes (Cursor)

/-- What the decoder calls, with what the library does in it. -/
inductive Call where
  | write (data : List UInt8) (o : Outcome)
  | seek (offset : Int64) (seekOrigin : UInt32) (o : Outcome)
  | setSize (newSize : UInt64) (o o' : Outcome)

namespace Call

/-- The stream behind the call. -/
def exec (this : FileWriteStream) : Call → Except Escape FileWriteStream
  | .write data o => .ok (this.write data o).2.2
  | .seek offset seekOrigin o => .ok (this.seek offset seekOrigin o).2.2
  | .setSize newSize o o' => do
    let (_, this) ← this.setSize newSize o o'
    return this

/-- Every stdio call in it succeeds. -/
def Succeeds (this : FileWriteStream) : Call → Prop
  | .write data o => (this.file.fwrite data o).1 = data.length
  | .seek offset seekOrigin o => (this.file.fseek offset.toInt seekOrigin.toNat o).1 = true
  | .setSize newSize o o' =>
    ∃ file, this.file.ftruncate newSize.toNat o = some file ∧ (file.fseek this.file.ftell 0 o').1 = true

/-- What it does to the array. -/
def spec (c : Cursor UInt8) : Call → Cursor UInt8
  | .write data _ => c.write data
  | .seek offset seekOrigin _ => c.seek offset.toInt seekOrigin.toNat
  | .setSize newSize _ _ => c.setSize newSize.toNat

/-- A truncation finds no byte behind the new end in the buffer, neither a written
one nor one that was read ahead. -/
def Safe (this : FileWriteStream) : Call → Prop
  | .setSize newSize _ _ =>
    (this.file.pend = [] ∨ this.file.pos ≤ newSize.toNat) ∧ ¬ this.file.ReadBehind newSize.toNat
  | _ => True

end Call

/-- Successful calls on a new stream, the stream behind them, and the array. -/
inductive Run : List Call → FileWriteStream → Cursor UInt8 → Prop where
  | new {o : Outcome} {this : FileWriteStream} (h : new o = .ok this) : Run [] this ⟨[], 0⟩
  | call {cs : List Call} {this this' : FileWriteStream} {c : Cursor UInt8} {call : Call}
    (h : Run cs this c) (succ : call.Succeeds this) (exec : call.exec this = .ok this') :
    Run (cs ++ [call]) this' (call.spec c)

/-- The data of reads of these sizes. -/
def reads (this : FileWriteStream) : List (ℕ × Outcome) → List (List UInt8)
  | [] => []
  | (size, o) :: calls => (this.fileRead size o).1 :: (this.fileRead size o).2.reads calls

/-- From the start, the stream reads as the array does, where the seek to it and the
reads succeed. -/
def ReadsAs (this : FileWriteStream) (c : Cursor UInt8) : Prop :=
  ∀ o calls, o.fseek = .done → (∀ x ∈ calls, x.2.fread = none) →
    (this.fileSeek 0 0 o).2.reads calls = (c.seek 0 0).reads (calls.map Prod.fst)

/-- Whatever the calls got to, the stream reads as the array does. -/
def Refines (cs : List Call) : Prop :=
  ∀ pre this c, pre <+: cs → Run pre this c → ReadsAs this c

/-! ### What is read back -/

/-- Reads take what is left to read. -/
theorem reads_eq {bytes : List UInt8} : ∀ {calls : List (ℕ × Outcome)} {this : FileWriteStream} {pos : ℕ},
    (∀ x ∈ calls, x.2.fread = none) → this.file.rest = bytes.drop pos →
    this.reads calls = (⟨bytes, pos⟩ : Cursor UInt8).reads (calls.map Prod.fst)
  | [], _, _, _, _ => rfl
  | (size, o) :: calls, this, pos, hnone, hrest => by
    obtain ⟨ho, hnone⟩ := List.forall_mem_cons.mp hnone
    have hdata : (this.fileRead size o).1 = Bytes.slice bytes pos size := by
      refine (File.fread_of_none this.file size ho).trans ?_
      rw [hrest, Bytes.slice]
    have hleft : (this.fileRead size o).2.file.rest = bytes.drop (pos + (Bytes.slice bytes pos size).length) := by
      refine (File.rest_fread this.file size o).trans ?_
      rw [hrest, List.drop_drop, ← hdata]
      rfl
    unfold reads
    rw [reads_eq hnone hleft, hdata]
    rfl

/-- The reads show the whole content. -/
theorem readsAs_iff (this : FileWriteStream) (c : Cursor UInt8) :
    ReadsAs this c ↔ this.file.shown = c.bytes := by
  have hc : c.seek 0 0 = ⟨c.bytes, 0⟩ := rfl
  have hrest : ∀ o : Outcome, o.fseek = .done → (this.fileSeek 0 0 o).2.file.rest = this.file.shown := by
    intro o ho
    have hfile : (this.fileSeek 0 0 o).2.file = this.file.goto 0 o :=
      congrArg Prod.snd (File.fseek_set this.file 0 ho (Nat.zero_le _))
    rw [hfile, File.rest_goto_zero]
  unfold ReadsAs
  rw [hc]
  constructor
  · intro h
    have hall := h {} [(this.file.shown.length + c.bytes.length, {})] rfl (by simp)
    rw [reads_eq (by simp) ((hrest {} rfl).trans (List.drop_zero).symm)] at hall
    simpa [Cursor.reads, Cursor.read, Bytes.slice, List.take_of_length_le] using hall
  · intro h o calls ho hnone
    refine reads_eq hnone ?_
    rw [hrest o ho, h, List.drop_zero]

/-! ### A call -/

/-- The array is in the stream, and so is what was read of its front. -/
structure Holds (this : FileWriteStream) (c : Cursor UInt8) : Prop where
  cursor : this.file.cursor = c
  fresh : this.file.FreshAtStart

theorem Holds.readsAs {this : FileWriteStream} {c : Cursor UInt8} (h : Holds this c) : ReadsAs this c := by
  rw [readsAs_iff, File.shown_of_fresh h.fresh, ← h.cursor]
  rfl

/-- A call does to the stream what it does to the array, but for a truncation
that is not safe. -/
theorem Holds.exec {this this' : FileWriteStream} {c : Cursor UInt8} (h : Holds this c) : ∀ {call : Call},
    call.Succeeds this → call.exec this = .ok this' →
      (call.Safe this → Holds this' (call.spec c)) ∧ (ReadsAs this' (call.spec c) → call.Safe this)
  | .write data o, hs, he => by
    cases he
    refine ⟨fun _ => ⟨?_, h.fresh.fwrite data o⟩, fun _ => trivial⟩
    rw [← h.cursor]
    exact File.cursor_fwrite hs
  | .seek offset seekOrigin o, hs, he => by
    cases he
    refine ⟨fun _ => ⟨?_, ?_⟩, fun _ => trivial⟩
    · rw [← h.cursor]
      exact (File.cursor_fseek_of_true hs).1
    · show (this.file.fseek offset.toInt seekOrigin.toNat o).2.FreshAtStart
      obtain ⟨n, -, hseek⟩ := File.fseek_of_true hs
      rw [hseek]
      exact h.fresh.goto n o
  | .setSize newSize o o', hs, he => by
    obtain ⟨file, ht, hk⟩ := hs
    rw [Call.exec, setSize_ok ht] at he
    cases he
    -- the stream seeks back to where it was
    obtain ⟨hiff, hfresh⟩ := File.shown_truncated ht h.fresh o'
    have hseek : (file.fseek this.file.ftell 0 o').2 = file.goto this.file.pos o' := by
      obtain ⟨n, hn, hseek⟩ := File.fseek_of_true hk
      cases hn
      exact hseek
    have hpos : c.pos = this.file.pos := by rw [← h.cursor]; rfl
    have hbytes : (Call.spec c (.setSize newSize o o')).bytes = Bytes.resize this.file.content newSize.toNat := by
      rw [← h.cursor]
      rfl
    have hreads : ReadsAs { this with file := (file.fseek this.file.ftell 0 o').2 } (Call.spec c (.setSize newSize o o')) ↔
        Call.Safe this (.setSize newSize o o') := by
      rw [readsAs_iff, hbytes]
      show (file.fseek this.file.ftell 0 o').2.shown = _ ↔ _
      rw [hseek]
      exact hiff
    refine ⟨fun hsafe => ?_, hreads.mp⟩
    have hshown := hiff.mpr hsafe
    rw [File.shown_of_fresh (hfresh hsafe), ← hbytes] at hshown
    refine ⟨?_, ?_⟩
    · show (file.fseek this.file.ftell 0 o').2.cursor = _
      rw [hseek, File.cursor, hshown, File.pos_goto, ← hpos]
      rfl
    · show (file.fseek this.file.ftell 0 o').2.FreshAtStart
      rw [hseek]
      exact hfresh hsafe

theorem exec_of_succeeds {this : FileWriteStream} : ∀ {call : Call}, call.Succeeds this →
    ∃ this', call.exec this = .ok this'
  | .write _ _, _ => ⟨_, rfl⟩
  | .seek _ _ _, _ => ⟨_, rfl⟩
  | .setSize newSize o o', hs => by
    obtain ⟨file, ht, -⟩ := hs
    rw [Call.exec, setSize_ok ht]
    exact ⟨_, rfl⟩

/-! ### A run -/

/-- A run has the array in the stream if each of its calls is safe, which may be
shown from the array in the stream before it. -/
theorem Run.holds {cs : List Call} {this : FileWriteStream} {c : Cursor UInt8} (h : Run cs this c)
    (safe : ∀ {pre call this this' c}, pre ++ [call] <+: cs → Run pre this c → call.Succeeds this →
      call.exec this = .ok this' → Holds this c → call.Safe this) : Holds this c := by
  induction h with
  | new h =>
    rw [(new_eq_ok.mp h).2]
    exact ⟨rfl, fun _ => File.fresh_of_buf_nil rfl⟩
  | @call cs this this' c call hr succ exec ih =>
    have hold : Holds this c := ih fun hp => safe (hp.trans (List.prefix_append _ _))
    exact (hold.exec succ exec).1 (safe (List.prefix_refl _) hr succ exec hold)

/-- A run that reads as the array all along has the array in the stream. -/
theorem Run.holds_of_refines {cs : List Call} {this : FileWriteStream} {c : Cursor UInt8} (h : Run cs this c)
    (href : Refines cs) : Holds this c :=
  h.holds fun hp hr succ exec hold => (hold.exec succ exec).2 (href _ _ _ hp (Run.call hr succ exec))

/-- A run reads as the array all along exactly when every truncation in it is
safe. -/
theorem refines_iff (cs : List Call) : Refines cs ↔
    ∀ pre call this c, pre ++ [call] <+: cs → Run pre this c → call.Succeeds this → call.Safe this := by
  refine ⟨fun href pre call this c hp hr succ => ?_, fun safe pre this c hp hr => ?_⟩
  · have hold : Holds this c :=
      hr.holds_of_refines fun pre' t d hp' => href pre' t d (hp'.trans ((List.prefix_append _ _).trans hp))
    obtain ⟨this', exec⟩ := exec_of_succeeds succ
    exact (hold.exec succ exec).2 (href _ _ _ hp (Run.call hr succ exec))
  · exact (hr.holds fun hp' hr' succ _ _ => safe _ _ _ _ (hp'.trans hp) hr' succ).readsAs

/-- Three bytes are written and kept in the buffer; the file is then cut to
one byte, and all three are read back. So they are where a seek to the second has
sent them to the file, and read them. -/
theorem truncated_before_flush :
    (¬ ∀ cs this c, Run cs this c → ReadsAs this c) ∧
    ∃ this c, Run [.write [1, 2, 3] {}, .seek 1 0 { before := 1, ahead := 2 }, .setSize 1 {} {}] this c ∧
      ¬ ReadsAs this c := by
  have hn : Run [] ⟨1, File.tmpfile⟩ ⟨[], 0⟩ := .new (o := {}) rfl
  have hw : (Call.write [1, 2, 3] {}).Succeeds ⟨1, File.tmpfile⟩ := rfl
  have hwrite := hn.call hw rfl
  refine ⟨fun h => ?_, ?_⟩
  · have hs : (Call.setSize 1 {} {}).Succeeds ((FileWriteStream.mk 1 File.tmpfile).write [1, 2, 3] {}).2.2 :=
      ⟨_, rfl, rfl⟩
    have hread := (readsAs_iff _ _).mp (h _ _ _ (hwrite.call hs rfl))
    revert hread
    decide
  · have hk : (Call.seek 1 0 { before := 1, ahead := 2 }).Succeeds
        ((FileWriteStream.mk 1 File.tmpfile).write [1, 2, 3] {}).2.2 := by
      show (File.fseek _ _ _ _).1 = true
      decide
    have hseek := hwrite.call hk rfl
    have hs : (Call.setSize 1 {} {}).Succeeds
        (((FileWriteStream.mk 1 File.tmpfile).write [1, 2, 3] {}).2.2.seek 1 0 { before := 1, ahead := 2 }).2.2 :=
      ⟨_, rfl, by decide⟩
    refine ⟨_, _, hseek.call hs rfl, fun hread => ?_⟩
    have hshown := (readsAs_iff _ _).mp hread
    revert hshown
    decide

end FileWriteStream

end Fuse3P7zip
