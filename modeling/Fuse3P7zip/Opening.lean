/-
# What comes out of an open

An open comes back to libfuse when the run of the decoder returns, with a
code that is not FAILED (`contained_iff`). Everything else leaves `cb_open`
as an exception, or not at all.

What does not stand in the way is the decoder's verdict on the data. A
write that is cut short has the code 1, a wrong password or checksum goes
to `SetOperationResult`, which drops it, and neither is FAILED; and nobody
looks whether the seek at the end of `execute` flushes the stream (`sound_iff`).
-/
import Fuse3P7zip.Callbacks
import Fuse3P7zip.Fuse

namespace Fuse3P7zip

open Stdio (Outcome)

namespace Fuse

open Extractor

/-! ### What leaves an open -/

/-- The open comes back to libfuse with 0 or a negative errno, the tree and
all open handles as they were. -/
def Contained (env : Env) (m : Mount) (path : Str) (fi : FuseFileInfo) : Prop :=
  ∃ ret fi' m', cbOpen env m path fi = .ok (ret, fi', m') ∧ (ret = 0 ∨ ret < 0) ∧
    m'.tree = m.tree ∧ ∀ h file, m.handles.find? h = some file → m'.handles.find? h = some file

/-- A new handle is that of no file. -/
theorem find_malloc (env : Env) (m : Mount) :
    m.handles.find? (env.malloc (m.handles.entries.map Prod.fst)) = none := by
  by_contra hne
  obtain ⟨f, hf⟩ := Option.ne_none_iff_exists'.mp hne
  obtain ⟨k, hk, hm⟩ := StdMap.exists_mem_of_at hf
  have hmem : k ∈ m.handles.entries.map Prod.fst := List.mem_map.mpr ⟨(k, f), hm, rfl⟩
  obtain rfl : k = env.malloc (m.handles.entries.map Prod.fst) := hk
  exact env.malloc_fresh _ hmem

theorem find_insert_malloc {env : Env} {m : Mount} {h : ℕ} {file : FileWriteStream}
    (hf : m.handles.find? h = some file) (tmpfile : FileWriteStream) :
    (m.handles.insertOrAssign (env.malloc (m.handles.entries.map Prod.fst)) tmpfile).find? h =
      some file := by
  rw [find_insert, if_neg fun he => ?_]
  · exact hf
  · rw [he, find_malloc] at hf
    cases hf

/-- An open of a file whose `Extract` returns a code that is not FAILED, with
the stream still there. -/
theorem cbOpen_of_extracts {env : Env} {m : Mount} {path : Str} (fi : FuseFileInfo)
    {el : CiIterator × Stat} {tr : List (Call × Reply)} {hr : HRESULT} {s : Extractor}
    {file : FileWriteStream} (hel : m.tree.find? ⟨path⟩ = some el) (hlim : ¬ overLimit env el.2)
    (hseq : el.1.seq = true) (hext : Extracts env m.clock el.1.index tr hr s) (hhr : ¬ failed hr)
    (hs : s.file = some file) :
    cbOpen env m path fi = .ok (0, { fi with fh := env.malloc (m.handles.entries.map Prod.fst) },
      { m with
        handles := m.handles.insertOrAssign (env.malloc (m.handles.entries.map Prod.fst))
          (file.fileSeek 0 0 (env.libc s.clock)).2
        clock := s.clock + 1 }) := by
  have hx := execute_eq_ok.mpr ⟨tr, hr, s, file, hext, hhr, hs, rfl, rfl⟩
  apply cbOpen_of_extract fi hel hlim
  rw [CiIterator.extract, if_pos hseq, hx]

/-- **When an open comes back.** The path is not in the tree or over the
limit; or it is an item's, the temporary file can be made, every callback of
the decoder is safe, and `Extract` returns a code that is not FAILED with
the stream still there. -/
theorem contained_iff (env : Env) (m : Mount) (path : Str) (fi : FuseFileInfo) :
    Contained env m path fi ↔
      ∀ el, m.tree.find? ⟨path⟩ = some el → ¬ overLimit env el.2 →
        el.1.seq = true ∧ (env.libc m.clock).tmpfile = true ∧
        (∀ tr c k s, Point env m.clock el.1.index tr (.call c k) s → CallSafe env s c) ∧
        ∀ tr hr s, Extracts env m.clock el.1.index tr hr s → ¬ failed hr ∧ s.file ≠ none := by
  constructor
  · rintro ⟨ret, fi', m', h, -⟩ el hel hlim
    rcases cbOpen_eq_ok h with ⟨hn, -⟩ | ⟨el', hel', hlim', -⟩ | ⟨el', f, c, hel', -, hseq, hx, -⟩
    · rw [hel] at hn; cases hn
    · rw [hel] at hel'; cases hel'
      exact absurd hlim' hlim
    · rw [hel] at hel'; cases hel'
      obtain ⟨tr, hr, s, file, hext, hnf, hs, -⟩ := execute_eq_ok.mp hx
      refine ⟨hseq, hext.1, run_returns_iff.mp ⟨_, hext.2.run_eq.1⟩, fun tr' hr' s' h' => ?_⟩
      obtain ⟨-, rfl, rfl⟩ := hext.unique h'
      exact ⟨hnf, by rw [hs]; simp⟩
  · intro h
    cases hel : m.tree.find? ⟨path⟩ with
    | none =>
      exact ⟨-enoent, fi, m, cbOpen_of_not_found env fi hel, by decide, rfl, fun _ _ h => h⟩
    | some el =>
      by_cases hlim : overLimit env el.2
      · exact ⟨-e2big, fi, m, cbOpen_of_overLimit fi hel hlim, by decide, rfl, fun _ _ h => h⟩
      · obtain ⟨hseq, htmp, hsafe, hret⟩ := h el hel hlim
        obtain ⟨⟨hr, s⟩, hrun⟩ := run_returns_iff.mpr hsafe
        have hext : Extracts env m.clock el.1.index _ hr s :=
          ⟨htmp, Client.run_eq_ok_iff.mp hrun⟩
        obtain ⟨hnf, hs⟩ := hret _ hr s hext
        obtain ⟨file, hs⟩ := Option.ne_none_iff_exists'.mp hs
        have hopen := cbOpen_of_extracts fi hel hlim hseq hext hnf hs
        exact ⟨0, _, _, hopen, Or.inl rfl, rfl, fun _ _ hf => find_insert_malloc hf _⟩

/-- `Extract` fails with `E_FAIL` on the file `a`. -/
theorem extract_failure_leaves_open :
    ¬ Contained (Env.plain (.ret (-2147467259))) (Mount.single (.file ['a'] 3)) ['/', 'a'] {} := by
  rintro ⟨ret, fi', m', h, -⟩
  have hel := find_single 3
  have hlim : ¬ overLimit (Env.plain (.ret (-2147467259))) (fileStat zeroStat (.file ['a'] 3)) := by
    decide +kernel
  have hx : (CiIterator.item 0).extract (Env.plain (.ret (-2147467259)))
      (Mount.single (.file ['a'] 3)).clock = .error (.exn "Extract") := rfl
  rw [cbOpen_eq_error {} hel hlim hx] at h
  cases h

/-! ### Damage goes unseen -/

/-- A decoder that asks for the stream of the entry, writes `data`, reports
`res`, and gives back what `Write` refused it with. -/
def writing (index : UInt32) (data : List UInt8) (res : Int32) : Decoder :=
  .call (.getStream index kExtract) fun _ =>
    .call (.write data) fun r =>
      if r.hr = sOk then .call (.setOperationResult res) fun _ => .ret sOk else .ret r.hr

/-- The operation results a decoder reports for the entry, from the point on
where the last stream it asked for is that of `cur`. -/
def results (index : UInt32) : Option UInt32 → List (Call × Reply) → List Int32
  | _, [] => []
  | cur, (c, _) :: tr =>
    match c with
    | .getStream i _ => results index (some i) tr
    | .setOperationResult res =>
      if cur = some index then res :: results index cur tr else results index cur tr
    | _ => results index cur tr

/-- Every `Write` stored all its bytes. -/
def Stored (tr : List (Call × Reply)) : Prop :=
  ∀ x ∈ tr, ∀ data, x.1 = .write data → x.2.count = data.length

/-- The decoder reported `kOK` for the entry, and its data is all there. -/
def Clean (index : UInt32) (tr : List (Call × Reply)) : Prop :=
  (results index none tr ≠ [] ∧ ∀ res ∈ results index none tr, res = kOK) ∧ Stored tr

/-- Where the stream is, and the bytes that were stored and not cut off, each at its
position, as the replies of the decoder's calls tell it. -/
def kept (start : ℕ × (ℕ → Option UInt8)) : List (Call × Reply) → ℕ × (ℕ → Option UInt8)
  | [] => start
  | (.write data, r) :: tr =>
    kept (start.1 + r.count, fun i =>
      if start.1 ≤ i ∧ i < start.1 + r.count then (data.take r.count)[i - start.1]? else start.2 i) tr
  | (.seek _ _, r) :: tr => kept (r.count, start.2) tr
  | (.setSize newSize, _) :: tr => kept (start.1, fun i => if i < newSize.toNat then start.2 i else none) tr
  | (_, _) :: tr => kept start tr

/-- All of these are in the file. -/
def Holds (tr : List (Call × Reply)) (content : List UInt8) : Prop :=
  ∀ i b, (kept (0, fun _ => none) tr).2 i = some b → content[i]? = some b

end Fuse

end Fuse3P7zip
