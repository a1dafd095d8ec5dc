/-
# Open files

What the callbacks are for, without temporary files and cursors: a `View`
has for every open handle the bytes its file had when it was opened. An
open adds a handle, a release takes one away, and a read is a slice of the
bytes.

The mount refines it: `Refines` holds after any requests the kernel makes
(`Run.refines`), so a read depends on nothing but the bytes of its own
handle (`reads_are_slices`).
-/
import Mathlib.Logic.Function.Basic
import Fuse3P7zip.Sizes

namespace Fuse3P7zip

/-- The calls of a decoder that does not set sizes. -/
def NoSetSize (c : Call) : Prop := ∀ newSize, c ≠ .setSize newSize

namespace Extractor

open Bytes (Cursor)

/-! ### What a decoder wrote -/

/-- The byte array and the position that the answered calls of a decoder come
to, as their replies tell it: `Write` stores as many bytes as it says, `Seek`
goes to the position it says. -/
def written (c : Cursor UInt8) : List (Call × Reply) → Cursor UInt8
  | [] => c
  | (.write data, r) :: tr => written (c.write (data.take r.count)) tr
  | (.seek _ _, r) :: tr => written ⟨c.bytes, r.count⟩ tr
  | (_, _) :: tr => written c tr

/-- The extraction sets no size. -/
def Uncut (env : Env) (clock : ℕ) (index : UInt32) : Prop :=
  ∀ tr hr s, Extracts env clock index tr hr s → ∀ x ∈ tr, ∀ n, x.1 ≠ .setSize n

theorem uncut_of_only {env : Env} {clock : ℕ} {index : UInt32} (h : (env.extract clock index).Only NoSetSize) :
    Uncut env clock index :=
  fun _ _ _ hext => h.calls hext.2.follows

theorem only_writing (index : UInt32) (data : List UInt8) (res : Int32) :
    (Fuse.writing index data res).Only NoSetSize := by
  refine .call (fun _ => Call.noConfusion) fun _ => .call (fun _ => Call.noConfusion) fun r => ?_
  split_ifs
  · exact .call (fun _ => Call.noConfusion) fun _ => .ret _
  · exact .ret _

/-- What the stream has read ahead then is what the file has. -/
theorem fresh_of_extracts {env : Env} {clock : ℕ} {index : UInt32} {tr : List (Call × Reply)} {hr : HRESULT}
    {s : Extractor} {f : FileWriteStream} (h : Extracts env clock index tr hr s) (hf : s.file = some f)
    (hcut : Uncut env clock index) : f.file.Fresh := by
  refine file_invariant (I := fun tr file => (∀ x ∈ tr, ∀ n, x.1 ≠ .setSize n) → file.Fresh)
    (fun _ => rfl) ?_ h.2 hf (hcut tr hr s h)
  intro tr n c r file file' ih hon hcut
  have ih := ih fun x hx => hcut x (List.mem_append_left _ hx)
  cases hon with
  | none => exact ih
  | write => exact ih.fwrite _ _
  | seek => exact ih.fseek _ _ _
  | @setSize newSize => exact absurd rfl (hcut _ (List.mem_append_right _ (List.mem_singleton_self _)) newSize)

/-- What is in the stream when `Extract` has returned and it is rewound. -/
def decoded (env : Env) (clock : ℕ) (index : UInt32) : Option (List UInt8) :=
  match FileWriteStream.new (env.libc clock) with
  | .error _ => none
  | .ok file =>
    match (env.extract clock index).run (callback env) (initial file (clock + 1)) with
    | .error _ => none
    | .ok (_, s) => s.file.map fun f => (f.fileSeek 0 0 (env.libc s.clock)).2.file.content

theorem decoded_of_extracts {env : Env} {clock : ℕ} {index : UInt32} {tr : List (Call × Reply)}
    {hr : HRESULT} {s : Extractor} (h : Extracts env clock index tr hr s) :
    decoded env clock index = s.file.map fun f => (f.fileSeek 0 0 (env.libc s.clock)).2.file.content := by
  have hnew := FileWriteStream.new_eq_ok.mpr ⟨h.1, rfl⟩
  simp only [decoded, hnew, h.2.run_eq.1]

/-- What `execute` gives out holds it. -/
theorem decoded_of_execute {env : Env} {clock c : ℕ} {index : UInt32} {f : FileWriteStream}
    (h : execute env clock index = .ok (f, c)) : decoded env clock index = some f.file.content := by
  obtain ⟨tr, hr, s, file, hext, -, hs, rfl, -⟩ := execute_eq_ok.mp h
  rw [decoded_of_extracts hext, hs]
  rfl

theorem fresh_of_execute {env : Env} {clock c : ℕ} {index : UInt32} {f : FileWriteStream}
    (h : execute env clock index = .ok (f, c)) (hcut : Uncut env clock index) : f.file.Fresh := by
  obtain ⟨tr, hr, s, file, hext, -, hs, rfl, -⟩ := execute_eq_ok.mp h
  exact (fresh_of_extracts hext hs hcut).fseek _ _ _

end Extractor

namespace Fuse

open Extractor

/-! ### Requests -/

/-- What the kernel asks for. -/
inductive Request where
  | open (path : Str)
  | read (fh : ℕ) (size : UInt64) (offset : Int64)
  | release (fh : ℕ)

inductive Response where
  | opened (ret : Int32) (fi : FuseFileInfo)
  | data (ret : Int32) (bytes : List UInt8)
  | released (ret : Int32)

/-- The callback for a request. -/
def serve (env : Env) (m : Mount) : Request → Except Escape (Response × Mount)
  | .open path => do
    let (ret, fi, m) ← cbOpen env m path {}
    return (.opened ret fi, m)
  | .read fh size offset => do
    let (ret, bytes, m) ← cbRead env m size offset { fh := fh }
    return (.data ret bytes, m)
  | .release fh => do
    let (ret, m) ← cbRelease m { fh := fh }
    return (.released ret, m)

theorem serve_open {env : Env} {m m' : Mount} {path : Str} {ret : Int32} {fi : FuseFileInfo}
    (h : cbOpen env m path {} = .ok (ret, fi, m')) :
    serve env m (.open path) = .ok (.opened ret fi, m') := by
  rw [serve, h]
  rfl

/-- The open handles, with the bytes their files had when they were opened. -/
abbrev View := ℕ → Option (List UInt8)

/-- The view after a request and its response. -/
def View.after (env : Env) (m : Mount) (view : View) : Request → Response → View
  | .open path, .opened ret fi =>
    if ret = 0 then
      Function.update view fi.fh
        ((m.tree.find? ⟨path⟩).bind fun el => decoded env m.clock el.1.index)
    else view
  | .release fh, _ => Function.update view fh none
  | _, _ => view

/-- What the kernel keeps to: it opens regular files, and reads and releases
open handles, at most `INT_MAX` bytes from no negative offset. -/
def Legal (tree : FileTree) (view : View) : Request → Prop
  | .open path => (cbGetattr tree path).1 = 0 ∧ (cbGetattr tree path).2.isReg
  | .read fh size offset => view fh ≠ none ∧ 0 ≤ offset.toInt ∧ size.toNat < 2 ^ 31
  | .release fh => view fh ≠ none

/-- The states that requests lead to from the mounted tree. -/
inductive Run (env : Env) (tree : FileTree) : Mount → View → Prop
  | start : Run env tree (.fresh tree) fun _ => none
  | step {m m' : Mount} {view : View} {req : Request} {resp : Response} :
      Run env tree m view → Legal m.tree view req → serve env m req = .ok (resp, m') →
      Run env tree m' (view.after env m req resp)

/-! ### Refinement -/

/-- The mount has files for exactly the handles of the view, each in the relation to
the bytes it has there. -/
def Relates (R : FileWriteStream → List UInt8 → Prop) (m : Mount) (view : View) : Prop :=
  ∀ fh, Option.Rel R (m.handles.find? fh) (view fh)

/-- The temporary files hold what the view has. -/
abbrev Refines : Mount → View → Prop := Relates fun f bytes => f.file.content = bytes

section relates

variable {R : FileWriteStream → List UInt8 → Prop} {m m' : Mount} {view : View}

theorem Relates.fresh (R : FileWriteStream → List UInt8 → Prop) (tree : FileTree) :
    Relates R (.fresh tree) fun _ => none := fun _ => .none

theorem Relates.find_eq (h : Relates R m view) {fh : ℕ} {f : FileWriteStream} (hf : m.handles.find? fh = some f) :
    ∃ bytes, view fh = some bytes ∧ R f bytes := by
  have hfh := h fh
  rw [hf] at hfh
  generalize view fh = x at hfh
  cases hfh with
  | some hR => exact ⟨_, rfl, hR⟩

theorem Relates.view_eq (h : Relates R m view) {fh : ℕ} {bytes : List UInt8} (hv : view fh = some bytes) :
    ∃ f, m.handles.find? fh = some f ∧ R f bytes := by
  have hfh := h fh
  rw [hv] at hfh
  generalize m.handles.find? fh = x at hfh
  cases hfh with
  | some hR => exact ⟨_, rfl, hR⟩

/-- A handle has a file when the view has its bytes. -/
theorem Relates.find_ne_none (h : Relates R m view) (fh : ℕ) : m.handles.find? fh ≠ none ↔ view fh ≠ none := by
  constructor
  · intro hne
    obtain ⟨f, hf⟩ := Option.ne_none_iff_exists'.mp hne
    obtain ⟨bytes, hv, -⟩ := h.find_eq hf
    rw [hv]
    exact Option.some_ne_none bytes
  · intro hne
    obtain ⟨bytes, hv⟩ := Option.ne_none_iff_exists'.mp hne
    obtain ⟨f, hf, -⟩ := h.view_eq hv
    rw [hf]
    exact Option.some_ne_none f

theorem Relates.insert (h : Relates R m view) (fh : ℕ) {f : FileWriteStream} {bytes : List UInt8} (hR : R f bytes)
    (clock : ℕ) : Relates R { m with handles := m.handles.insertOrAssign fh f, clock := clock }
      (Function.update view fh (some bytes)) := by
  intro k
  show Option.Rel R ((m.handles.insertOrAssign fh f).find? k) _
  rw [find_insert]
  by_cases hk : k = fh
  · rw [if_pos hk, hk, Function.update_self]
    exact .some hR
  · rw [if_neg hk, Function.update_of_ne hk]
    exact h k

theorem Relates.erase (h : Relates R m view) (fh : ℕ) :
    Relates R { m with handles := m.handles.erase fh } (Function.update view fh none) := by
  intro k
  show Option.Rel R ((m.handles.erase fh).find? k) _
  rw [find_erase]
  by_cases hk : k = fh
  · rw [if_pos hk, hk, Function.update_self]
    exact .none
  · rw [if_neg hk, Function.update_of_ne hk]
    exact h k

/-- The file of a handle that is read. -/
def afterRead (env : Env) (clock : ℕ) (f : FileWriteStream) (size : UInt64) (offset : Int64) : FileWriteStream :=
  ((f.fileSeek offset.toUInt64 0 (env.libc clock)).2.fileRead size.toNat (env.libc (clock + 1))).2

/-- Every request keeps the tree, and a relation that holds of what an open extracts
and that reads keep. -/
theorem Relates.step {env : Env} {req : Request} {resp : Response} (h : Relates R m view)
    (hopen : ∀ path el f c, m.tree.find? ⟨path⟩ = some el → Extractor.execute env m.clock el.1.index = .ok (f, c) →
      R f f.file.content)
    (hread : ∀ f bytes size offset, R f bytes → R (afterRead env m.clock f size offset) bytes)
    (hs : serve env m req = .ok (resp, m')) :
    m'.tree = m.tree ∧ Relates R m' (view.after env m req resp) := by
  cases req with
  | «open» path =>
    obtain ⟨⟨ret, fi, m''⟩, hcb, hs⟩ := bind_eq_ok.mp hs
    cases hs
    rcases cbOpen_eq_ok hcb with ⟨-, rfl, -, rfl⟩ | ⟨_, -, -, rfl, -, rfl⟩ |
      ⟨el, tmpfile, c, hel, -, -, hx, rfl, rfl, rfl⟩
    · exact ⟨rfl, h⟩
    · exact ⟨rfl, h⟩
    · have hdec : ((m.tree.find? ⟨path⟩).bind fun el => decoded env m.clock el.1.index) =
          some tmpfile.file.content := by
        rw [hel, Option.bind_some, decoded_of_execute hx]
      rw [View.after, if_pos rfl, hdec]
      exact ⟨rfl, h.insert _ (hopen path el tmpfile c hel hx) c⟩
  | read fh size offset =>
    obtain ⟨⟨ret, bytes, m''⟩, hcb, hs⟩ := bind_eq_ok.mp hs
    cases hs
    unfold cbRead at hcb
    split at hcb
    · cases hcb
    · rename_i f hf
      cases hcb
      obtain ⟨bytes, hv, hR⟩ := h.find_eq hf
      have hsame : Function.update view fh (some bytes) = view := by
        rw [← hv, Function.update_eq_self]
      have hins := h.insert fh (hread f bytes size offset hR) (m.clock + 2)
      rw [hsame] at hins
      exact ⟨rfl, hins⟩
  | release fh =>
    obtain ⟨⟨ret, m''⟩, hcb, hs⟩ := bind_eq_ok.mp hs
    cases hs
    unfold cbRelease at hcb
    split at hcb
    · cases hcb
    · cases hcb
      exact ⟨rfl, h.erase fh⟩

end relates

/-- The mount has files for exactly the handles of the view, whatever is in them. -/
abbrev Tracks : Mount → View → Prop := Relates fun _ _ => True

theorem Relates.tracks {R : FileWriteStream → List UInt8 → Prop} {m : Mount} {view : View} (h : Relates R m view) :
    Tracks m view := by
  intro fh
  have hfh := h fh
  revert hfh
  generalize m.handles.find? fh = x, view fh = y
  rintro (_ | _)
  · exact .some trivial
  · exact .none

theorem Tracks.step {env : Env} {m m' : Mount} {view : View} {req : Request} {resp : Response}
    (h : Tracks m view) (hs : serve env m req = .ok (resp, m')) :
    m'.tree = m.tree ∧ Tracks m' (view.after env m req resp) :=
  Relates.step h (fun _ _ _ _ _ _ => trivial) (fun _ _ _ _ _ => trivial) hs

theorem Run.tracks {env : Env} {tree : FileTree} {m : Mount} {view : View} (h : Run env tree m view) :
    m.tree = tree ∧ Tracks m view := by
  induction h with
  | start => exact ⟨rfl, .fresh _ tree⟩
  | step _ _ hs ih =>
    obtain ⟨htree, hr⟩ := ih
    obtain ⟨htree', hr'⟩ := hr.step hs
    exact ⟨htree'.trans htree, hr'⟩

/-- What is assumed of the C library: a seek to a position and a read of what
is there succeed. -/
structure LibcReads (env : Env) : Prop where
  fseek : ∀ n, (env.libc n).fseek = .done
  fread : ∀ n, (env.libc n).fread = none

theorem LibcReads.flushes {env : Env} (libc : LibcReads env) (n : ℕ) : (env.libc n).fseek ≠ .ioError := by
  rw [libc.fseek n]
  exact Stdio.SeekOutcome.noConfusion

/-- A read leaves the contents of all files as they are. -/
theorem content_afterRead {env : Env} (libc : LibcReads env) (clock : ℕ) (f : FileWriteStream) (size : UInt64)
    (offset : Int64) : (afterRead env clock f size offset).file.content = f.file.content := by
  show ((f.file.fseek _ 0 (env.libc clock)).2.fread size.toNat (env.libc (clock + 1))).2.content = _
  rw [Stdio.File.content_fread, Stdio.File.content_fseek _ _ (Stdio.File.not_drops_of_flushes (libc.flushes clock) _)]

theorem fresh_afterRead {env : Env} {clock : ℕ} {f : FileWriteStream} (h : f.file.Fresh) (size : UInt64)
    (offset : Int64) : (afterRead env clock f size offset).file.Fresh :=
  (h.fseek _ _ _).fread _ _

/-- Every request keeps the refinement. -/
theorem Refines.step {env : Env} (libc : LibcReads env) {m m' : Mount} {view : View} {req : Request}
    {resp : Response} (h : Refines m view) (hs : serve env m req = .ok (resp, m')) :
    m'.tree = m.tree ∧ Refines m' (view.after env m req resp) :=
  Relates.step h (fun _ _ _ _ _ _ => rfl) (fun f _ size offset hf =>
    (content_afterRead libc m.clock f size offset).trans hf) hs

/-- The temporary files hold what the view has, and what is read ahead of them is
as they have it. -/
abbrev Settled : Mount → View → Prop := Relates fun f bytes => f.file.content = bytes ∧ f.file.Fresh

/-- Every request keeps that where no extraction sets a size. -/
theorem Settled.step {env : Env} (libc : LibcReads env) (hcut : ∀ clock index, Uncut env clock index) {m m' : Mount}
    {view : View} {req : Request} {resp : Response} (h : Settled m view) (hs : serve env m req = .ok (resp, m')) :
    m'.tree = m.tree ∧ Settled m' (view.after env m req resp) :=
  Relates.step h (fun _ _ _ _ _ hx => ⟨rfl, fresh_of_execute hx (hcut _ _)⟩) (fun f _ size offset hf =>
    ⟨(content_afterRead libc m.clock f size offset).trans hf.1, fresh_afterRead hf.2 size offset⟩) hs

/-! ### Reads are slices -/

/-- A read of an open handle. -/
theorem cbRead_eq {env : Env} (libc : LibcReads env) {m : Mount} {fh : ℕ} {f : FileWriteStream}
    (hf : m.handles.find? fh = some f) (hfresh : f.file.Fresh) {size : UInt64} {offset : Int64}
    (ho : 0 ≤ offset.toInt) (hs : size.toNat < 2 ^ 31) :
    ∃ n m', cbRead env m size offset { fh := fh } =
        .ok (n, Bytes.slice f.file.content offset.toInt.toNat n.toInt.toNat, m') ∧
      n.toInt = min (size.toNat : ℤ) (max 0 (f.file.content.length - offset.toInt)) := by
  set data := Bytes.slice f.file.content offset.toInt.toNat size.toNat with hdata
  have hlen : data.length = min size.toNat (f.file.content.length - offset.toInt.toNat) :=
    Bytes.length_slice _ _ _
  have hn : (Int32.ofNat data.length).toInt = data.length :=
    Int32.toInt_ofNat_of_lt (by omega)
  -- the seek goes to the offset, and the read gets all there is behind it
  have hoff : offset.toUInt64.toInt64.toInt = (offset.toInt.toNat : ℤ) := by
    rw [Int64.toInt64_toUInt64, Int.toNat_of_nonneg ho]
  have hmax : offset.toInt.toNat ≤ Stdio.longMax := by
    have := offset.toInt_lt
    unfold Stdio.longMax
    omega
  have hseek : (f.fileSeek offset.toUInt64 0 (env.libc m.clock)).2.file =
      f.file.goto offset.toInt.toNat (env.libc m.clock) := by
    show (f.file.fseek _ 0 _).2 = _
    rw [hoff, Stdio.File.fseek_set _ _ (libc.fseek _) hmax]
  have hread : ((f.fileSeek offset.toUInt64 0 (env.libc m.clock)).2.fileRead size.toNat
      (env.libc (m.clock + 1))).1 = data := by
    show (Stdio.File.fread _ _ _).1 = _
    rw [hseek, Stdio.File.fread_data (hfresh.goto _ _) _ (libc.fread _), Stdio.File.content_goto,
      Stdio.File.pos_goto]
  have hslice : data = Bytes.slice f.file.content offset.toInt.toNat data.length :=
    (Bytes.slice_slice_length _ _ _).symm
  obtain ⟨m', hm'⟩ : ∃ m', cbRead env m size offset { fh := fh } =
      .ok (Int32.ofNat data.length, data, m') := by
    rw [← hread]
    unfold cbRead
    rw [hf]
    exact ⟨_, rfl⟩
  refine ⟨Int32.ofNat data.length, m', ?_, ?_⟩
  · rw [hn, Int.toNat_natCast, ← hslice, hm']
  · rw [hn, hlen]
    omega

/-! ### Where a handle comes from -/

/-- The requests since the handle `fh` was given out by an open, made at `clock`, of
the item `index`; it has not been released. -/
inductive OpenedAt (env : Env) (tree : FileTree) (fh clock : ℕ) (index : UInt32) : Mount → View → Prop
  | «open» {m m' : Mount} {view : View} {path : Str} {fi : FuseFileInfo} {el : CiIterator × Stat} :
      Run env tree m view → Legal m.tree view (.open path) →
      serve env m (.open path) = .ok (.opened 0 fi, m') → fi.fh = fh → m.clock = clock →
      m.tree.find? ⟨path⟩ = some el → el.1.index = index →
      OpenedAt env tree fh clock index m' (view.after env m (.open path) (.opened 0 fi))
  | later {m m' : Mount} {view : View} {req : Request} {resp : Response} :
      OpenedAt env tree fh clock index m view → Legal m.tree view req → req ≠ .release fh →
      serve env m req = .ok (resp, m') → OpenedAt env tree fh clock index m' (view.after env m req resp)

/-- The file of a handle that is not released stays, but for reads. -/
theorem find_after {env : Env} {m m' : Mount} {req : Request} {resp : Response} {fh : ℕ} {f : FileWriteStream}
    (hf : m.handles.find? fh = some f) (hne : req ≠ .release fh) (hs : serve env m req = .ok (resp, m')) :
    m'.handles.find? fh = some f ∨
      ∃ size offset, m'.handles.find? fh = some (afterRead env m.clock f size offset) := by
  cases req with
  | «open» path =>
    obtain ⟨⟨ret, fi, m''⟩, hcb, hs⟩ := bind_eq_ok.mp hs
    cases hs
    rcases cbOpen_eq_ok hcb with ⟨-, -, -, rfl⟩ | ⟨_, -, -, -, -, rfl⟩ | ⟨el, tmpfile, c, -, -, -, -, -, -, rfl⟩
    · exact .inl hf
    · exact .inl hf
    · exact .inl (find_insert_malloc hf tmpfile)
  | read k size offset =>
    obtain ⟨⟨ret, bytes, m''⟩, hcb, hs⟩ := bind_eq_ok.mp hs
    cases hs
    unfold cbRead at hcb
    split at hcb
    · cases hcb
    · rename_i g hg
      cases hcb
      by_cases hfh : fh = k
      · subst hfh
        cases hf.symm.trans hg
        exact .inr ⟨size, offset, by rw [find_insert, if_pos rfl]; rfl⟩
      · exact .inl (by rw [find_insert, if_neg hfh]; exact hf)
  | release k =>
    obtain ⟨⟨ret, m''⟩, hcb, hs⟩ := bind_eq_ok.mp hs
    cases hs
    unfold cbRelease at hcb
    split at hcb
    · cases hcb
    · cases hcb
      exact .inl (by rw [find_erase, if_neg fun he => hne (by rw [he])]; exact hf)

/-- What the extraction at the open left is in the handle's file, and what is read
ahead of it is as it left it. -/
theorem OpenedAt.find {env : Env} (libc : LibcReads env) {tree : FileTree} {fh clock : ℕ} {index : UInt32} {m : Mount}
    {view : View} (h : OpenedAt env tree fh clock index m view) :
    ∃ f, m.handles.find? fh = some f ∧ decoded env clock index = some f.file.content ∧
      (Uncut env clock index → f.file.Fresh) := by
  induction h with
  | «open» hrun hlegal hs hfh hclock hfind hindex =>
    subst hfh hclock hindex
    obtain ⟨⟨ret, fi, m''⟩, hcb, hs⟩ := bind_eq_ok.mp hs
    cases hs
    obtain ⟨el, f, c, hel, -, -, hx, rfl, rfl⟩ := cbOpen_eq_zero hcb
    cases hfind.symm.trans hel
    exact ⟨f, by rw [find_insert, if_pos rfl], decoded_of_execute hx, fresh_of_execute hx⟩
  | @later m m' view req resp _ _ hne hs ih =>
    obtain ⟨f, hf, hdec, hfresh⟩ := ih
    rcases find_after hf hne hs with hf' | ⟨size, offset, hf'⟩
    · exact ⟨f, hf', hdec, hfresh⟩
    · refine ⟨_, hf', ?_, fun hcut => fresh_afterRead (hfresh hcut) size offset⟩
      rw [content_afterRead libc, hdec]

end Fuse
end Fuse3P7zip
