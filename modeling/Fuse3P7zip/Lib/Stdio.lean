/-
# A stdio stream over a file

A stream holds written bytes in its buffer until it is flushed, and reads more
of the file than it is asked for; where its calls succeed, when it flushes and
how far it reads ahead is up to the C library, which says so in one `Outcome`
for each call. A flush that fails drops what it did not send.

`content` is what the file holds once the buffer is flushed, and `cursor` is
the stream as a byte array with a cursor: a write that succeeds is the array's
(`cursor_fwrite`), a flush of any part of the buffer changes nothing
(`cursor_flush`), a seek that succeeds moves the position only
(`cursor_fseek_of_true`). What reads give is `rest`: first what is in the read
buffer, then what the file has behind it. That is the array's
(`rest_of_fresh`) while the buffer is `Fresh`, which a stream that is not
truncated stays; so streams that differ in their buffers only (`Twin`) stay that
way. A truncation is not the array's: it goes to the descriptor and sees neither
buffer (`content_ftruncate_iff`).
-/
import Mathlib.Data.UInt
import Fuse3P7zip.Lib.Bytes

namespace Stdio

/-- What a seek comes to: it is done; it is refused, which leaves the error
flag alone; or flushing the buffer fails, which sets it. -/
inductive SeekOutcome where
  | done
  | refused
  | ioError
  deriving DecidableEq, Repr

/-- What the library does in one call. By default everything succeeds, written
bytes are kept in the buffer and nothing is read ahead. -/
structure Outcome where
  /-- A temporary file can be made. -/
  tmpfile : Bool := true
  /-- How many bytes a write stores at most. -/
  fwrite : Option ℕ := none
  /-- How many bytes of the buffer are sent to the file, where not all have to be. -/
  flushed : ℕ := 0
  /-- Behind how many bytes a read fails, if it asks for more and they are there. -/
  fread : Option ℕ := none
  /-- How many bytes in front of the position a seek or a read gets into the buffer. -/
  before : ℕ := 0
  /-- How many behind it. -/
  ahead : ℕ := 0
  fseek : SeekOutcome := .done
  ftruncate : Bool := true

/-- The largest `long`, and the largest `off_t`. -/
def longMax : ℕ := 2 ^ 63 - 1

/-- `FILE`: the file on the device; the written bytes it does not have yet, which
end at the position; what is in the read buffer, and where that begins in the
file; the position; and the error flag. -/
structure File where
  disk : List UInt8
  pend : List UInt8
  base : ℕ
  buf : List UInt8
  pos : ℕ
  err : Bool
  fits : pend.length ≤ pos
  deriving DecidableEq

namespace File

def tmpfile : File := ⟨[], [], 0, [], 0, false, Nat.le_refl 0⟩

/-- A file opened for reading. -/
def opened (disk : List UInt8) : File := ⟨disk, [], 0, [], 0, false, Nat.le_refl 0⟩

/-- What the file holds once the buffer is flushed. -/
def content (f : File) : List UInt8 := Bytes.patch f.disk (f.pos - f.pend.length) f.pend

def cursor (f : File) : Bytes.Cursor UInt8 := ⟨f.content, f.pos⟩

/-- What is in the read buffer behind the position. -/
def ahead (f : File) : List UInt8 := if f.base ≤ f.pos then f.buf.drop (f.pos - f.base) else []

/-- What is read from the position on. -/
def rest (f : File) : List UInt8 := f.ahead ++ f.content.drop (f.pos + f.ahead.length)

/-! ### The buffers -/

/-- The first `k` bytes of the buffer sent to the file. -/
def flush (f : File) (k : ℕ) : File :=
  { f with
    disk := Bytes.patch f.disk (f.pos - f.pend.length) (f.pend.take k)
    pend := f.pend.drop k
    fits := by
      have := f.fits
      simp only [List.length_drop]
      omega }

/-- All of it sent. -/
def sync (f : File) : File := ⟨f.content, [], f.base, f.buf, f.pos, f.err, Nat.zero_le _⟩

/-- A flush that fails behind `k` bytes: the stream is behind these, and the rest
is dropped. -/
def fail (f : File) (k : ℕ) : File :=
  let sent := f.pend.take k
  ⟨Bytes.patch f.disk (f.pos - f.pend.length) sent, [], 0, [], f.pos - f.pend.length + sent.length, true,
    Nat.zero_le _⟩

/-- `data` written behind what is in the buffer, which is no read buffer then. -/
def push (f : File) (data : List UInt8) : File :=
  { f with
    pend := f.pend ++ data
    buf := if data = [] then f.buf else []
    pos := f.pos + data.length
    fits := by
      have := f.fits
      simp only [List.length_append]
      omega }

/-- At the position `n`, with what the file has around it in the read buffer. -/
def refill (f : File) (n : ℕ) (o : Outcome) : File :=
  let base := n - o.before
  let buf := Bytes.slice f.disk base (n - base + o.ahead)
  -- behind the end of the file nothing is kept
  ⟨f.disk, [], base, if n ≤ base + buf.length then buf else [], n, f.err, Nat.zero_le _⟩

/-- At the position `n`, with the read buffer as it is. -/
def move (f : File) (n : ℕ) : File := ⟨f.content, [], f.base, f.buf, n, f.err, Nat.zero_le _⟩

/-- A seek to `n`, which keeps the read buffer where that has it. -/
def goto (f : File) (n : ℕ) (o : Outcome) : File :=
  if f.base ≤ n ∧ n < f.base + f.buf.length then f.move n else f.sync.refill n o

/-! ### The calls -/

/-- How many of `n` bytes are transferred under a limit. -/
def moved (limit : Option ℕ) (n : ℕ) : ℕ := min (limit.getD n) n

/-- `fwrite`: the bytes stored, and the stream. A short count is an error: the flush
that failed drops what was in the buffer. -/
def fwrite (f : File) (data : List UInt8) (o : Outcome) : ℕ × File :=
  let n := moved o.fwrite data.length
  let f := f.push (data.take n)
  (n, if n < data.length then f.fail o.flushed else f.flush o.flushed)

/-- Whether a read of `size` bytes fails that finds `left` of them: it comes to
the limit before it has what it asked for, and not behind the end. -/
def freadFails (o : Outcome) (size left : ℕ) : Bool :=
  match o.fread with
  | some k => k < size ∧ k ≤ left
  | none => false

/-- `fread`: the bytes read, and the stream. The read buffer stays while the read
does not leave it. -/
def fread (f : File) (size : ℕ) (o : Outcome) : List UInt8 × File :=
  let data := f.rest.take size
  let n := moved o.fread data.length
  let f' := if size ≤ f.ahead.length ∨ n < f.ahead.length then f.move (f.pos + n) else f.sync.refill (f.pos + n) o
  (data.take n, { f' with err := f.err || freadFails o size data.length })

/-- `fseek`: whether it went to the target, and the stream. -/
def fseek (f : File) (offset : ℤ) (whence : ℕ) (o : Outcome) : Bool × File :=
  match o.fseek with
  | .ioError => (false, f.fail o.flushed)
  | .refused => (false, f.flush o.flushed)
  | .done =>
    match f.cursor.target offset whence with
    | some n => if n ≤ longMax then (true, f.goto n o) else (false, f.flush o.flushed)
    | none => (false, f.flush o.flushed)

def ftell (f : File) : ℕ := f.pos

def ferror (f : File) : Bool := f.err

/-- `ftruncate` on the stream's descriptor; nothing when it fails. -/
def ftruncate (f : File) (size : ℕ) (o : Outcome) : Option File :=
  if o.ftruncate ∧ size ≤ longMax then some { f with disk := Bytes.resize f.disk size } else none

/-! ### What the calls do to the array -/

theorem moved_le (limit : Option ℕ) (n : ℕ) : moved limit n ≤ n := Nat.min_le_right _ _

@[simp] theorem moved_none (n : ℕ) : moved none n = n := Nat.min_self n

theorem content_of_pend_nil {f : File} (h : f.pend = []) : f.content = f.disk := by
  rw [content, h, Bytes.patch_nil]

@[simp] theorem content_move (f : File) (n : ℕ) : (f.move n).content = f.content := content_of_pend_nil rfl

@[simp] theorem content_refill (f : File) (n : ℕ) (o : Outcome) : (f.refill n o).content = f.disk :=
  content_of_pend_nil rfl

@[simp] theorem pos_goto (f : File) (n : ℕ) (o : Outcome) : (f.goto n o).pos = n := by
  unfold goto
  split_ifs <;> rfl

@[simp] theorem content_goto (f : File) (n : ℕ) (o : Outcome) : (f.goto n o).content = f.content := by
  unfold goto
  split_ifs
  · exact content_move f n
  · exact content_refill _ n o

@[simp] theorem err_goto (f : File) (n : ℕ) (o : Outcome) : (f.goto n o).err = f.err := by
  unfold goto
  split_ifs <;> rfl

/-- A flush of any part of the buffer changes nothing. -/
@[simp] theorem cursor_flush (f : File) (k : ℕ) : (f.flush k).cursor = f.cursor := by
  have hf := f.fits
  have hk : (f.pend.drop k).length = f.pend.length - k := List.length_drop
  show (⟨_, f.pos⟩ : Bytes.Cursor UInt8) = ⟨_, f.pos⟩
  by_cases hd : f.pend.drop k = []
  · have ht : f.pend.take k = f.pend := by
      rw [List.drop_eq_nil_iff] at hd
      exact List.take_of_length_le hd
    have hc : (f.flush k).content = Bytes.patch f.disk (f.pos - f.pend.length) (f.pend.take k) :=
      content_of_pend_nil hd
    rw [hc, ht]
    rfl
  · have hlt : k < f.pend.length := by rwa [List.drop_eq_nil_iff, Nat.not_le] at hd
    have ht : (f.pend.take k).length = k := by rw [List.length_take]; omega
    have hs : f.pos - (f.pend.drop k).length = f.pos - f.pend.length + (f.pend.take k).length := by
      omega
    have hc : (f.flush k).content = f.content := by
      unfold content
      show Bytes.patch (Bytes.patch f.disk _ _) (f.pos - (f.pend.drop k).length) (f.pend.drop k) = _
      rw [hs, Bytes.patch_patch, List.take_append_drop]
    rw [hc]

@[simp] theorem content_flush (f : File) (k : ℕ) : (f.flush k).content = f.content :=
  congrArg Bytes.Cursor.bytes (cursor_flush f k)

/-- A flush that fails loses nothing where all was sent. -/
theorem cursor_fail {f : File} {k : ℕ} (h : f.pend.length ≤ k) : (f.fail k).cursor = f.cursor := by
  have hf := f.fits
  have hsent : f.pend.take k = f.pend := List.take_of_length_le h
  have hdisk : (f.fail k).content = Bytes.patch f.disk (f.pos - f.pend.length) (f.pend.take k) :=
    content_of_pend_nil rfl
  have hpos : (f.fail k).pos = f.pos - f.pend.length + (f.pend.take k).length := rfl
  have hback : f.pos - f.pend.length + f.pend.length = f.pos := by omega
  rw [cursor, hdisk, hpos, hsent, hback]
  rfl

/-- The flush in a seek fails and drops written bytes. -/
def Drops (f : File) (o : Outcome) : Prop := o.fseek = .ioError ∧ o.flushed < f.pend.length

theorem not_drops_of_flushes {o : Outcome} (h : o.fseek ≠ .ioError) (f : File) : ¬ f.Drops o := fun hd => h hd.1

theorem not_drops_of_pend_nil {f : File} (h : f.pend = []) (o : Outcome) : ¬ f.Drops o := fun hd => by
  rw [Drops, h] at hd
  exact absurd hd.2 (Nat.not_lt_zero _)

@[simp] theorem cursor_push (f : File) (data : List UInt8) : (f.push data).cursor = f.cursor.write data := by
  have hf := f.fits
  have hpos : f.pos - f.pend.length + f.pend.length = f.pos := by omega
  have hs : f.pos + data.length - (f.pend.length + data.length) = f.pos - f.pend.length := by omega
  show (⟨Bytes.patch f.disk (f.pos + data.length - (f.pend ++ data).length) (f.pend ++ data), f.pos + data.length⟩ :
    Bytes.Cursor UInt8) = _
  rw [List.length_append, hs, ← Bytes.patch_patch, hpos]
  rfl

/-- A write that stores all its bytes is the array's. -/
theorem cursor_fwrite {f : File} {data : List UInt8} {o : Outcome} (h : (f.fwrite data o).1 = data.length) :
    (f.fwrite data o).2.cursor = f.cursor.write data := by
  have hn : moved o.fwrite data.length = data.length := h
  unfold fwrite
  simp only [hn, lt_irrefl, if_false, cursor_flush, List.take_length, cursor_push]

/-- The error flag goes up exactly when the write is short. -/
theorem err_fwrite (f : File) (data : List UInt8) (o : Outcome) :
    (f.fwrite data o).2.err = (f.err || decide ((f.fwrite data o).1 < data.length)) := by
  by_cases h : (f.fwrite data o).1 < data.length
  · have hshort : (f.fwrite data o).2 = (f.push (data.take (f.fwrite data o).1)).fail o.flushed := if_pos h
    rw [hshort, decide_eq_true h, Bool.or_true]
    rfl
  · have hfull : (f.fwrite data o).2 = (f.push (data.take (f.fwrite data o).1)).flush o.flushed := if_neg h
    rw [hfull, decide_eq_false h, Bool.or_false]
    rfl

/-- What a seek comes to. -/
theorem fseek_cases (f : File) (offset : ℤ) (whence : ℕ) (o : Outcome) :
    (∃ n, o.fseek = .done ∧ f.cursor.target offset whence = some n ∧ n ≤ longMax ∧
      f.fseek offset whence o = (true, f.goto n o)) ∨
    (o.fseek ≠ .ioError ∧ (∀ n, f.cursor.target offset whence = some n → n ≤ longMax → o.fseek ≠ .done) ∧
      f.fseek offset whence o = (false, f.flush o.flushed)) ∨
    (o.fseek = .ioError ∧ f.fseek offset whence o = (false, f.fail o.flushed)) := by
  unfold fseek
  cases ho : o.fseek with
  | ioError => exact .inr (.inr ⟨rfl, rfl⟩)
  | refused => exact .inr (.inl ⟨by simp, by simp, rfl⟩)
  | done =>
    cases ht : f.cursor.target offset whence with
    | none => exact .inr (.inl ⟨by simp, by simp, rfl⟩)
    | some n =>
      by_cases hn : n ≤ longMax
      · exact .inl ⟨n, rfl, rfl, hn, if_pos hn⟩
      · refine .inr (.inl ⟨by simp, fun m hm hle => ?_, if_neg hn⟩)
        cases hm
        exact absurd hle hn

/-- A seek changes nothing of what the file holds, unless it drops bytes. -/
theorem content_fseek {f : File} (offset : ℤ) (whence : ℕ) {o : Outcome} (h : ¬ f.Drops o) :
    (f.fseek offset whence o).2.content = f.content := by
  rcases fseek_cases f offset whence o with ⟨n, -, -, -, hf⟩ | ⟨-, -, hf⟩ | ⟨ho, hf⟩
  · rw [hf]
    exact content_goto f n o
  · rw [hf]
    exact content_flush f _
  · rw [hf]
    exact congrArg Bytes.Cursor.bytes (cursor_fail (Nat.not_lt.mp fun hlt => h ⟨ho, hlt⟩))

/-- The error flag goes up when the flush in a seek fails. -/
theorem err_fseek (f : File) (offset : ℤ) (whence : ℕ) (o : Outcome) :
    (f.fseek offset whence o).2.err = (f.err || decide (o.fseek = .ioError)) := by
  rcases fseek_cases f offset whence o with ⟨n, ho, -, -, hf⟩ | ⟨ho, -, hf⟩ | ⟨ho, hf⟩
  · rw [hf, ho]
    exact (err_goto f n o).trans (Bool.or_false _).symm
  · rw [hf, decide_eq_false ho, Bool.or_false]
    rfl
  · rw [hf, decide_eq_true ho, Bool.or_true]
    rfl

/-- A seek never makes the file longer. -/
theorem length_content_fseek_le (f : File) (offset : ℤ) (whence : ℕ) (o : Outcome) :
    (f.fseek offset whence o).2.content.length ≤ f.content.length := by
  by_cases ho : o.fseek = .ioError
  · have hf : f.fseek offset whence o = (false, f.fail o.flushed) := by
      unfold fseek
      rw [ho]
    have hfail : (f.fail o.flushed).content =
        Bytes.patch f.disk (f.pos - f.pend.length) (f.pend.take o.flushed) := content_of_pend_nil rfl
    rw [hf, hfail, content]
    exact Bytes.length_patch_take_le _ _ _ _
  · rw [content_fseek offset whence (not_drops_of_flushes ho f)]

/-- Where no written bytes are left to send, there are none behind a seek. -/
theorem pend_fseek {f : File} (h : f.pend = []) (offset : ℤ) (whence : ℕ) (o : Outcome) :
    (f.fseek offset whence o).2.pend = [] := by
  have hflush : (f.flush o.flushed).pend = [] := by
    show f.pend.drop _ = []
    rw [h, List.drop_nil]
  rcases fseek_cases f offset whence o with ⟨n, -, -, -, hf⟩ | ⟨-, -, hf⟩ | ⟨-, hf⟩
  · rw [hf]
    show (if _ then _ else _ : File).pend = []
    split_ifs <;> rfl
  · rw [hf]
    exact hflush
  · rw [hf]
    rfl

/-- A seek to a position from the start. -/
theorem fseek_set (f : File) (n : ℕ) {o : Outcome} (ho : o.fseek = .done) (hn : n ≤ longMax) :
    f.fseek n 0 o = (true, f.goto n o) := by
  have ht : f.cursor.target n 0 = some n := rfl
  unfold fseek
  rw [ho]
  simp only [ht, if_pos hn]

/-- Where a seek that succeeds goes. -/
theorem fseek_of_true {f : File} {offset : ℤ} {whence : ℕ} {o : Outcome} (h : (f.fseek offset whence o).1 = true) :
    ∃ n, f.cursor.target offset whence = some n ∧ (f.fseek offset whence o).2 = f.goto n o := by
  rcases fseek_cases f offset whence o with ⟨n, -, ht, -, hf⟩ | ⟨-, -, hf⟩ | ⟨-, hf⟩
  · exact ⟨n, ht, congrArg Prod.snd hf⟩
  · rw [hf] at h
    cases h
  · rw [hf] at h
    cases h

/-- A seek that succeeds is the array's. -/
theorem cursor_fseek_of_true {f : File} {offset : ℤ} {whence : ℕ} {o : Outcome}
    (h : (f.fseek offset whence o).1 = true) :
    (f.fseek offset whence o).2.cursor = f.cursor.seek offset whence ∧
      ∃ n, f.cursor.target offset whence = some n ∧ (f.fseek offset whence o).2.pos = n := by
  obtain ⟨n, ht, hf⟩ := fseek_of_true h
  rw [hf]
  refine ⟨?_, n, ht, pos_goto f n o⟩
  rw [cursor, content_goto, pos_goto, Bytes.Cursor.seek, ht]
  rfl

/-- A read from a stream changes the position and the flag only. -/
theorem content_fread (f : File) (size : ℕ) (o : Outcome) : (f.fread size o).2.content = f.content := by
  have hc : ∀ (g : File) (e : Bool), ({ g with err := e } : File).content = g.content := fun _ _ => rfl
  unfold fread
  dsimp only
  rw [hc]
  split_ifs
  · exact content_move f _
  · exact content_refill _ _ o

theorem pend_fread (f : File) (size : ℕ) (o : Outcome) : (f.fread size o).2.pend = [] := by
  have hp : ∀ (g : File) (e : Bool), ({ g with err := e } : File).pend = g.pend := fun _ _ => rfl
  unfold fread
  dsimp only
  rw [hp]
  split_ifs <;> rfl

/-- A truncation is the array's exactly when no byte of the buffer is behind
the new end. -/
theorem content_ftruncate_iff {f f' : File} {n : ℕ} {o : Outcome} (h : f.ftruncate n o = some f') :
    f'.content = Bytes.resize f.content n ↔ f.pend = [] ∨ f.pos ≤ n := by
  have hf := f.fits
  unfold ftruncate at h
  split_ifs at h
  cases h
  show Bytes.patch (Bytes.resize f.disk n) _ f.pend = Bytes.resize (Bytes.patch f.disk _ f.pend) n ↔ _
  rw [Bytes.patch_resize_iff]
  have : f.pos - f.pend.length + f.pend.length = f.pos := by omega
  rw [this]

theorem ftruncate_keeps {f f' : File} {n : ℕ} {o : Outcome} (h : f.ftruncate n o = some f') :
    f'.base = f.base ∧ f'.buf = f.buf ∧ f'.pos = f.pos ∧ f'.pend = f.pend ∧ f'.err = f.err := by
  unfold ftruncate at h
  split_ifs at h
  cases h
  exact ⟨rfl, rfl, rfl, rfl, rfl⟩

/-! ### The read buffer -/

/-- The read buffer has what the file has there. -/
def Fresh (f : File) : Prop := Bytes.slice f.content f.base f.buf.length = f.buf

theorem fresh_of_buf_nil {f : File} (h : f.buf = []) : f.Fresh := by
  rw [Fresh, h]
  exact List.take_zero

/-- With the same read buffer on the same bytes. -/
theorem Fresh.same {f g : File} (h : f.Fresh) (hc : g.content = f.content) (hbase : g.base = f.base)
    (hbuf : g.buf = f.buf) : g.Fresh := by
  rw [Fresh, hc, hbase, hbuf]
  exact h

/-- A read buffer that begins where the file does is its front. -/
theorem Fresh.take_content {f : File} (h : f.Fresh) (hbase : f.base = 0) : f.content.take f.buf.length = f.buf := by
  rwa [Fresh, hbase, Bytes.slice, List.drop_zero] at h

theorem fresh_refill (f : File) (n : ℕ) (o : Outcome) : (f.refill n o).Fresh := by
  show Bytes.slice (f.refill n o).content (n - o.before) (f.refill n o).buf.length = (f.refill n o).buf
  rw [content_refill]
  show Bytes.slice f.disk _ (if _ then _ else _ : List UInt8).length = if _ then _ else _
  split_ifs
  · exact Bytes.slice_slice_length _ _ _
  · exact List.take_zero

theorem Fresh.goto {f : File} (h : f.Fresh) (n : ℕ) (o : Outcome) : (f.goto n o).Fresh := by
  unfold File.goto
  split_ifs
  · exact h.same (content_move f n) rfl rfl
  · exact fresh_refill _ n o

theorem Fresh.flush {f : File} (h : f.Fresh) (k : ℕ) : (f.flush k).Fresh := h.same (content_flush f k) rfl rfl

theorem Fresh.push {f : File} (h : f.Fresh) (data : List UInt8) : (f.push data).Fresh := by
  by_cases hd : data = []
  · refine h.same ?_ rfl (if_pos hd)
    have hcursor := congrArg Bytes.Cursor.bytes (cursor_push f data)
    rw [hd, Bytes.Cursor.write, Bytes.patch_nil] at hcursor
    rw [hd]
    exact hcursor
  · exact fresh_of_buf_nil (if_neg hd)

theorem Fresh.fwrite {f : File} (h : f.Fresh) (data : List UInt8) (o : Outcome) : (f.fwrite data o).2.Fresh := by
  unfold File.fwrite
  dsimp only
  split_ifs
  · exact fresh_of_buf_nil rfl
  · exact (h.push _).flush _

theorem Fresh.fseek {f : File} (h : f.Fresh) (offset : ℤ) (whence : ℕ) (o : Outcome) :
    (f.fseek offset whence o).2.Fresh := by
  rcases fseek_cases f offset whence o with ⟨n, -, -, -, hf⟩ | ⟨-, -, hf⟩ | ⟨-, hf⟩
  · rw [hf]
    exact h.goto n o
  · rw [hf]
    exact h.flush _
  · rw [hf]
    exact fresh_of_buf_nil rfl

theorem Fresh.fread {f : File} (h : f.Fresh) (size : ℕ) (o : Outcome) : (f.fread size o).2.Fresh := by
  unfold File.fread
  dsimp only
  split_ifs
  · exact h.same (content_move f _) rfl rfl
  · exact (fresh_refill f.sync _ o).same rfl rfl rfl

/-- Through a fresh buffer, what is read is what the file has. -/
theorem rest_of_fresh {f : File} (h : f.Fresh) : f.rest = f.content.drop f.pos := by
  have hahead : ∃ m, f.ahead = (f.content.drop f.pos).take m := by
    unfold ahead
    split_ifs with hb
    · refine ⟨f.buf.length - (f.pos - f.base), ?_⟩
      have hpos : f.base + (f.pos - f.base) = f.pos := by omega
      rw [← h, Bytes.slice, List.drop_take, List.drop_drop, hpos, List.length_take, List.length_drop]
      rw [List.take_eq_take_iff, List.length_drop]
      omega
    · exact ⟨0, List.take_zero.symm⟩
  obtain ⟨m, hm⟩ := hahead
  unfold rest
  rw [hm, ← List.drop_drop, List.length_take]
  rcases Nat.le_total m (f.content.drop f.pos).length with hle | hle
  · rw [min_eq_left hle, List.take_append_drop]
  · rw [min_eq_right hle, List.drop_length, List.append_nil, List.take_of_length_le hle]

/-! ### Reads -/

/-- A read that gets all it can. -/
theorem fread_of_none (f : File) (size : ℕ) {o : Outcome} (ho : o.fread = none) :
    (f.fread size o).1 = f.rest.take size := by
  unfold fread
  simp only [ho, moved_none, List.take_length]

theorem ahead_move (f : File) {n : ℕ} (h : n ≤ f.ahead.length) : (f.move (f.pos + n)).ahead = f.ahead.drop n := by
  show (if f.base ≤ f.pos + n then f.buf.drop (f.pos + n - f.base) else []) = _
  by_cases hb : f.base ≤ f.pos
  · have hpos : f.pos + n - f.base = f.pos - f.base + n := by omega
    rw [ahead, if_pos hb, if_pos (show f.base ≤ f.pos + n by omega), List.drop_drop, hpos]
  · have hnil : f.ahead = [] := if_neg hb
    rw [hnil, List.length_nil, Nat.le_zero] at h
    rw [hnil, h, Nat.add_zero, if_neg hb, List.drop_nil]

/-- What is left to read behind a read. -/
theorem rest_fread (f : File) (size : ℕ) (o : Outcome) :
    (f.fread size o).2.rest = f.rest.drop (f.fread size o).1.length := by
  have hlen : (f.fread size o).1.length = moved o.fread (f.rest.take size).length := by
    unfold fread
    rw [List.length_take]
    exact min_eq_left (moved_le _ _)
  rw [hlen]
  unfold fread
  dsimp only
  generalize hn : moved o.fread (f.rest.take size).length = n
  have hle : n ≤ size := by
    have h := moved_le o.fread (f.rest.take size).length
    rw [hn, List.length_take] at h
    omega
  split_ifs with hkept
  · -- the read stays in the buffer
    have hin : n ≤ f.ahead.length := by omega
    have hahead := ahead_move f hin
    show (f.move (f.pos + n)).ahead ++ (f.move (f.pos + n)).content.drop (f.pos + n + (f.move (f.pos + n)).ahead.length) = _
    rw [hahead, content_move, List.length_drop, rest, List.drop_append_of_le_length hin]
    congr 2
    omega
  · have hfresh : ({ f.sync.refill (f.pos + n) o with err := f.err || freadFails o size (f.rest.take size).length } :
        File).Fresh := (fresh_refill f.sync _ o).same rfl rfl rfl
    have hout : f.ahead.length ≤ n := by omega
    rw [rest_of_fresh hfresh]
    show (f.sync.refill (f.pos + n) o).content.drop (f.pos + n) = _
    rw [content_refill, rest, List.drop_append, List.drop_of_length_le hout, List.nil_append, List.drop_drop]
    show f.content.drop _ = _
    congr 1
    omega

/-- What reads from the start show. -/
def shown (f : File) : List UInt8 :=
  if f.base = 0 then f.buf ++ f.content.drop f.buf.length else f.content

theorem rest_goto_zero (f : File) (o : Outcome) : (f.goto 0 o).rest = f.shown := by
  unfold goto
  split_ifs with hin
  · -- the buffer stays
    have hbase : f.base = 0 := Nat.le_zero.mp hin.1
    have hahead : (f.move 0).ahead = f.buf := by
      show (if f.base ≤ 0 then f.buf.drop (0 - f.base) else []) = _
      rw [if_pos hin.1, Nat.zero_sub, List.drop_zero]
    have hpos : (f.move 0).pos = 0 := rfl
    rw [rest, hahead, content_move, hpos, Nat.zero_add, shown, if_pos hbase]
  · rw [rest_of_fresh (fresh_refill _ 0 o), content_refill]
    show f.content.drop 0 = _
    rw [List.drop_zero, shown]
    split_ifs with hbase
    · have hbuf : f.buf = [] := by
        rw [hbase] at hin
        exact List.eq_nil_of_length_eq_zero (by omega)
      rw [hbuf, List.nil_append, List.length_nil, List.drop_zero]
    · rfl

/-- The read buffer has what the file has, if it begins where the file does. -/
def FreshAtStart (f : File) : Prop := f.base = 0 → f.Fresh

theorem FreshAtStart.goto {f : File} (h : f.FreshAtStart) (n : ℕ) (o : Outcome) : (f.goto n o).FreshAtStart := by
  unfold File.goto
  split_ifs
  · exact fun hbase => (h hbase).same (content_move f n) rfl rfl
  · exact fun _ => fresh_refill _ n o

theorem FreshAtStart.fwrite {f : File} (h : f.FreshAtStart) (data : List UInt8) (o : Outcome) :
    (f.fwrite data o).2.FreshAtStart := by
  intro hbase
  unfold File.fwrite at hbase ⊢
  dsimp only at hbase ⊢
  split_ifs at hbase ⊢
  · exact fresh_of_buf_nil rfl
  · exact ((h hbase).push _).flush _

theorem shown_of_fresh {f : File} (h : f.FreshAtStart) : f.shown = f.content := by
  unfold shown
  split_ifs with hbase
  · nth_rewrite 1 [← (h hbase).take_content hbase]
    exact List.take_append_drop _ _
  · rfl

theorem moved_of_freadFails {o : Outcome} {size left : ℕ} (h : left ≤ size)
    (ho : freadFails o size left = false) : moved o.fread left = left := by
  unfold freadFails at ho
  unfold moved
  cases hk : o.fread with
  | none => simp
  | some k =>
    simp only [hk, decide_eq_false_iff_not] at ho
    simp only [Option.getD_some]
    omega

/-- A read goes on behind what it got. -/
theorem pos_fread (f : File) (size : ℕ) (o : Outcome) : (f.fread size o).2.pos = f.pos + (f.fread size o).1.length := by
  have hlen : ((f.rest.take size).take (moved o.fread (f.rest.take size).length)).length =
      moved o.fread (f.rest.take size).length := by
    rw [List.length_take]
    exact min_eq_left (moved_le _ _)
  unfold fread
  dsimp only
  rw [hlen]
  split_ifs <;> rfl

theorem err_fread (f : File) (size : ℕ) (o : Outcome) :
    (f.fread size o).2.err = (f.err || freadFails o size (f.rest.take size).length) := rfl

/-- A read of a fresh stream that does not fail is the array's. -/
theorem fread_eq_read {f : File} (h : f.Fresh) (size : ℕ) {o : Outcome}
    (ho : freadFails o size (f.cursor.read size).1.length = false) :
    ((f.fread size o).1, (f.fread size o).2.cursor) = f.cursor.read size := by
  have hdata : f.rest.take size = Bytes.slice f.content f.pos size := by rw [rest_of_fresh h, Bytes.slice]
  have hn : moved o.fread (f.rest.take size).length = (f.rest.take size).length := by
    have hle : (f.rest.take size).length ≤ size := by
      rw [List.length_take]
      exact Nat.min_le_left _ _
    refine moved_of_freadFails hle ?_
    rw [hdata]
    exact ho
  have hread : (f.fread size o).1 = Bytes.slice f.content f.pos size := by
    unfold fread
    dsimp only
    rw [hn, List.take_length, hdata]
  rw [cursor, pos_fread, hread, content_fread]
  rfl

theorem fread_data {f : File} (h : f.Fresh) (size : ℕ) {o : Outcome} (ho : o.fread = none) :
    (f.fread size o).1 = Bytes.slice f.content f.pos size := by
  rw [fread_of_none f size ho, rest_of_fresh h, Bytes.slice]

/-! ### Truncation -/

/-- What was read of the file from its start on goes on behind the position, and so
stays when the stream seeks to that, and it reaches behind `n`. -/
def ReadBehind (f : File) (n : ℕ) : Prop := f.base = 0 ∧ f.pos < f.buf.length ∧ n < f.buf.length

theorem length_content_of_pend_ne_nil {f : File} (h : f.pend ≠ []) : f.pos ≤ f.content.length := by
  have hf := f.fits
  rw [content, Bytes.length_patch _ _ h]
  omega

section truncation

variable {f f' : File} {n : ℕ} {o : Outcome} (h : f.ftruncate n o = some f') (hfresh : f.FreshAtStart)

include h hfresh

/-- A truncation and a seek back to where the stream was: from the start, the reads
show the truncated array exactly when neither buffer has bytes behind the new end. -/
theorem shown_truncated (o' : Outcome) :
    ((f'.goto f.pos o').shown = Bytes.resize f.content n ↔ (f.pend = [] ∨ f.pos ≤ n) ∧ ¬ f.ReadBehind n) ∧
      ((f.pend = [] ∨ f.pos ≤ n) ∧ ¬ f.ReadBehind n → (f'.goto f.pos o').FreshAtStart) := by
  obtain ⟨hbase, hbuf, hpos, hpend, -⟩ := ftruncate_keeps h
  have hcontent := content_ftruncate_iff h
  by_cases hin : f.base ≤ f.pos ∧ f.pos < f.base + f.buf.length
  · have hgoto : f'.goto f.pos o' = f'.move f.pos := by
      rw [← hbase, ← hbuf] at hin
      exact if_pos hin
    rw [hgoto]
    by_cases hzero : f.base = 0
    · -- the buffer stays, and the reads begin in it
      have hlt : f.pos < f.buf.length := by omega
      have hbehind : ¬ f.ReadBehind n ↔ f.buf.length ≤ n := by
        unfold ReadBehind
        omega
      have hshown : (f'.move f.pos).shown = f.buf ++ f'.content.drop f.buf.length := by
        rw [← hbuf]
        exact (if_pos (hbase.trans hzero)).trans (by rw [content_move]; rfl)
      have htake := (hfresh hzero).take_content hzero
      have hle : f.buf.length ≤ f.content.length := by
        have hlen := congrArg List.length htake
        rw [List.length_take] at hlen
        omega
      rw [hshown, hbehind]
      refine ⟨⟨fun heq => ?_, fun hsafe => ?_⟩, fun hsafe _ => ?_⟩
      · have hlen := congrArg List.length heq
        rw [List.length_append, List.length_drop, Bytes.length_resize] at hlen
        refine ⟨?_, by omega⟩
        by_cases hnil : f.pend = []
        · exact .inl hnil
        · have := length_content_of_pend_ne_nil (f := f') (by rwa [hpend])
          omega
      · rw [hcontent.mpr hsafe.1, ← htake, List.length_take, min_eq_left hle]
        rw [← Bytes.take_resize hsafe.2 hle, List.take_append_drop]
      · show Bytes.slice (f'.move f.pos).content f'.base f'.buf.length = f'.buf
        rw [content_move, hcontent.mpr hsafe.1, hbase, hbuf, hzero, Bytes.slice, List.drop_zero]
        rw [Bytes.take_resize hsafe.2 hle, htake]
    · have hshown : (f'.move f.pos).shown = f'.content := by
        refine (if_neg ?_).trans (content_move f' _)
        exact fun he => hzero (hbase.symm.trans he)
      rw [hshown, hcontent]
      exact ⟨⟨fun hs => ⟨hs, fun hb => hzero hb.1⟩, And.left⟩, fun _ he => absurd (hbase.symm.trans he) hzero⟩
  · have hgoto : f'.goto f.pos o' = f'.sync.refill f.pos o' := by
      rw [← hbase, ← hbuf] at hin
      exact if_neg hin
    have hfresh' := fresh_refill f'.sync f.pos o'
    have hbehind : ¬ f.ReadBehind n := by
      unfold ReadBehind
      omega
    rw [hgoto, shown_of_fresh fun _ => hfresh', content_refill]
    exact ⟨hcontent.trans ⟨fun hs => ⟨hs, hbehind⟩, And.left⟩, fun _ _ => hfresh'⟩

end truncation

/-! ### The same but for the buffers -/

/-- The two streams are the same as byte arrays, however much of them is in the buffers. -/
structure Twin (f g : File) : Prop where
  cursor : f.cursor = g.cursor
  err : f.err = g.err
  left : f.Fresh
  right : g.Fresh

theorem Fresh.twin {f : File} (h : f.Fresh) : Twin f f := ⟨rfl, rfl, h, h⟩

theorem Twin.content {f g : File} (h : Twin f g) : f.content = g.content := congrArg Bytes.Cursor.bytes h.cursor

theorem Twin.pos {f g : File} (h : Twin f g) : f.pos = g.pos := congrArg Bytes.Cursor.pos h.cursor

theorem Twin.fwrite {f g : File} (h : Twin f g) (data : List UInt8) {o o' : Outcome} (ho : o.fwrite = none)
    (ho' : o'.fwrite = none) :
    (f.fwrite data o).1 = (g.fwrite data o').1 ∧ Twin (f.fwrite data o).2 (g.fwrite data o').2 := by
  have hall : ∀ (f : File) {o : Outcome}, o.fwrite = none → (f.fwrite data o).1 = data.length := by
    intro f o ho
    show moved o.fwrite data.length = data.length
    rw [ho, moved_none]
  refine ⟨(hall f ho).trans (hall g ho').symm, ?_, ?_, h.left.fwrite data o, h.right.fwrite data o'⟩
  · rw [cursor_fwrite (hall f ho), cursor_fwrite (hall g ho'), h.cursor]
  · rw [err_fwrite, err_fwrite, h.err, hall f ho, hall g ho']

theorem Twin.flush {f g : File} (h : Twin f g) (k k' : ℕ) : Twin (f.flush k) (g.flush k') :=
  ⟨by rw [cursor_flush, cursor_flush, h.cursor], h.err, h.left.flush k, h.right.flush k'⟩

theorem Twin.goto {f g : File} (h : Twin f g) (n : ℕ) (o o' : Outcome) : Twin (f.goto n o) (g.goto n o') := by
  refine ⟨?_, ?_, h.left.goto n o, h.right.goto n o'⟩
  · rw [File.cursor, File.cursor, content_goto, content_goto, pos_goto, pos_goto, h.content]
  · rw [err_goto, err_goto, h.err]

theorem Twin.fseek {f g : File} (h : Twin f g) (offset : ℤ) (whence : ℕ) {o o' : Outcome} (ho : o.fseek = .done)
    (ho' : o'.fseek = .done) : (f.fseek offset whence o).1 = (g.fseek offset whence o').1 ∧
      Twin (f.fseek offset whence o).2 (g.fseek offset whence o').2 := by
  unfold File.fseek
  rw [ho, ho', h.cursor]
  dsimp only
  cases g.cursor.target offset whence with
  | none => exact ⟨rfl, h.flush _ _⟩
  | some n =>
    dsimp only
    split_ifs
    · exact ⟨rfl, h.goto n o o'⟩
    · exact ⟨rfl, h.flush _ _⟩

theorem Twin.fread {f g : File} (h : Twin f g) (size : ℕ) {o o' : Outcome} (ho : o.fread = none)
    (ho' : o'.fread = none) : (f.fread size o).1 = (g.fread size o').1 ∧
      Twin (f.fread size o).2 (g.fread size o').2 := by
  have hnone : ∀ {o : Outcome} (left : ℕ), o.fread = none → freadFails o size left = false := fun left ho => by
    rw [freadFails, ho]
  have hread : ((f.fread size o).1, (f.fread size o).2.cursor) = ((g.fread size o').1, (g.fread size o').2.cursor) := by
    rw [fread_eq_read h.left size (hnone _ ho), fread_eq_read h.right size (hnone _ ho'), h.cursor]
  obtain ⟨hdata, hcursor⟩ := Prod.mk.inj hread
  refine ⟨hdata, hcursor, ?_, h.left.fread size o, h.right.fread size o'⟩
  rw [err_fread, err_fread, h.err, hnone _ ho, hnone _ ho']

end File

end Stdio
