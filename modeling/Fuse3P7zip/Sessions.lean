/-
# What the kernel sees of a mount over time

A `Session` is a run of requests with the responses to them. Two things
follow from it alone, however the requests on different files are mixed.

* `handles_exact`: the temporary files there are those that were opened and
  not released, each under a handle of its own, and a read or a release
  comes back exactly for these.
* `sequential_reads`: a reader that goes through a handle from the start,
  each read where the one before ended, gets the front of what the decoder
  left in the file at the open, and all of it once a read comes back empty.
-/
import Fuse3P7zip.Handles
import Fuse3P7zip.Lib.Chunks

namespace Fuse3P7zip

namespace Fuse

open Extractor

/-- A request that came back, and its response. -/
abbrev Exchange := Request × Response

/-- The requests the kernel has made of the mounted tree, and where they lead. -/
inductive Session (env : Env) (tree : FileTree) : List Exchange → Mount → View → Prop
  | start : Session env tree [] (.fresh tree) fun _ => none
  | step {hist : List Exchange} {m m' : Mount} {view : View} {req : Request} {resp : Response} :
      Session env tree hist m view → Legal m.tree view req → serve env m req = .ok (resp, m') →
      Session env tree (hist ++ [(req, resp)]) m' (view.after env m req resp)

theorem Session.run {env : Env} {tree : FileTree} {hist : List Exchange} {m : Mount} {view : View}
    (h : Session env tree hist m view) : Run env tree m view := by
  induction h with
  | start => exact .start
  | step _ hlegal hs ih => exact .step ih hlegal hs

/-- What a request that comes back was. -/
theorem serve_cases {env : Env} {m m' : Mount} {req : Request} {resp : Response}
    (h : serve env m req = .ok (resp, m')) :
    (∃ path ret fi, req = .open path ∧ resp = .opened ret fi ∧ cbOpen env m path {} = .ok (ret, fi, m')) ∨
    (∃ fh size offset ret bytes, req = .read fh size offset ∧ resp = .data ret bytes ∧
      cbRead env m size offset { fh := fh } = .ok (ret, bytes, m')) ∨
    (∃ fh ret, req = .release fh ∧ resp = .released ret ∧ cbRelease m { fh := fh } = .ok (ret, m')) := by
  cases req with
  | «open» path =>
    obtain ⟨⟨ret, fi, m''⟩, hopen, hs⟩ := bind_eq_ok.mp h
    cases hs
    exact .inl ⟨path, ret, fi, rfl, rfl, hopen⟩
  | read fh size offset =>
    obtain ⟨⟨ret, bytes, m''⟩, hread, hs⟩ := bind_eq_ok.mp h
    cases hs
    exact .inr (.inl ⟨fh, size, offset, ret, bytes, rfl, rfl, hread⟩)
  | release fh =>
    obtain ⟨⟨ret, m''⟩, hrel, hs⟩ := bind_eq_ok.mp h
    cases hs
    exact .inr (.inr ⟨fh, ret, rfl, rfl, hrel⟩)

/-! ### Handles -/

/-- An open that returned 0. -/
def isOpened : Exchange → Bool
  | (.open _, .opened ret _) => ret = 0
  | _ => false

def isReleased : Exchange → Bool
  | (.release _, _) => true
  | _ => false

/-- The handles given out and not taken back, after one more exchange. -/
def liveAfter (l : List ℕ) : Exchange → List ℕ
  | (.open _, .opened ret fi) => if ret = 0 then fi.fh :: l else l
  | (.release fh, _) => l.erase fh
  | _ => l

def live (hist : List Exchange) : List ℕ := hist.foldl liveAfter []

theorem live_concat (hist : List Exchange) (x : Exchange) : live (hist ++ [x]) = liveAfter (live hist) x := by
  rw [live, List.foldl_append]
  rfl

/-- The live handles are those of the view, and as many as were opened and not
released. -/
structure Counted (hist : List Exchange) (view : View) : Prop where
  nodup : (live hist).Nodup
  mem : ∀ fh, fh ∈ live hist ↔ view fh ≠ none
  count : (live hist).length + hist.countP isReleased = hist.countP isOpened

theorem mem_keys_iff (m : Mount) (fh : ℕ) :
    fh ∈ m.handles.entries.map Prod.fst ↔ m.handles.find? fh ≠ none := by
  constructor
  · intro hmem
    obtain ⟨⟨k, f⟩, he, rfl⟩ := List.mem_map.mp hmem
    have hat : m.handles.find? k = some f := m.handles.at_of_mem he
    rw [hat]
    exact Option.some_ne_none f
  · intro hne
    obtain ⟨f, hf⟩ := Option.ne_none_iff_exists'.mp hne
    obtain ⟨k, hk, he⟩ := StdMap.exists_mem_of_at hf
    exact List.mem_map.mpr ⟨(k, f), he, hk⟩

/-- The handle of an open is that of no file, and has bytes in the view. -/
theorem opened_fresh {env : Env} {m m' : Mount} {view : View} {path : Str} {fi : FuseFileInfo}
    (h : Tracks m view) (hopen : cbOpen env m path {} = .ok (0, fi, m')) :
    view fi.fh = none ∧ view.after env m (.open path) (.opened 0 fi) fi.fh ≠ none := by
  obtain ⟨el, f, c, -, -, -, -, hfi, hm⟩ := cbOpen_eq_zero hopen
  have hfresh : fi.fh ∉ m.handles.entries.map Prod.fst := by
    rw [hfi]
    exact env.malloc_fresh _
  constructor
  · rw [mem_keys_iff, h.find_ne_none, not_not] at hfresh
    exact hfresh
  · have hr := (h.step (serve_open hopen)).2
    rw [← hr.find_ne_none, hm, hfi, find_insert, if_pos rfl]
    exact Option.some_ne_none f

/-- A request that comes back keeps the count. -/
theorem Counted.step {env : Env} {hist : List Exchange} {m m' : Mount} {view : View} {req : Request}
    {resp : Response} (h : Counted hist view) (htracks : Tracks m view) (hlegal : Legal m.tree view req)
    (hs : serve env m req = .ok (resp, m')) : Counted (hist ++ [(req, resp)]) (view.after env m req resp) := by
  rcases serve_cases hs with ⟨path, ret, fi, rfl, rfl, hopen⟩ | ⟨fh, size, offset, ret, bytes, rfl, rfl, -⟩ |
    ⟨fh, ret, rfl, rfl, -⟩
  · by_cases hret : ret = 0
    · subst hret
      obtain ⟨hnone, hsome⟩ := opened_fresh htracks hopen
      have hlive : live (hist ++ [(.open path, .opened 0 fi)]) = fi.fh :: live hist := by
        rw [live_concat]
        rfl
      constructor
      · rw [hlive]
        exact List.nodup_cons.mpr ⟨fun hmem => (h.mem _).mp hmem hnone, h.nodup⟩
      · intro fh
        rw [hlive, List.mem_cons]
        by_cases hfh : fh = fi.fh
        · exact iff_of_true (.inl hfh) (hfh ▸ hsome)
        · have hsame : view.after env m (.open path) (.opened 0 fi) fh = view fh := by
            rw [View.after, if_pos rfl, Function.update_of_ne hfh]
          rw [hsame, ← h.mem fh, or_iff_right hfh]
      · have hcount := h.count
        rw [hlive, List.length_cons, List.countP_append, List.countP_append]
        show (live hist).length + 1 + (hist.countP isReleased + 0) = hist.countP isOpened + 1
        omega
    · have hlive : live (hist ++ [(.open path, .opened ret fi)]) = live hist := by
        rw [live_concat, liveAfter, if_neg hret]
      have hview : view.after env m (.open path) (.opened ret fi) = view := by
        rw [View.after, if_neg hret]
      have hno : isOpened (.open path, .opened ret fi) = false := by
        rw [isOpened, decide_eq_false hret]
      constructor
      · rw [hlive]
        exact h.nodup
      · intro fh
        rw [hlive, hview]
        exact h.mem fh
      · rw [hlive, List.countP_append, List.countP_append, List.countP_singleton, List.countP_singleton, hno]
        exact h.count
  · have hlive : live (hist ++ [(.read fh size offset, .data ret bytes)]) = live hist := live_concat hist _
    refine ⟨by rw [hlive]; exact h.nodup, fun k => by rw [hlive]; exact h.mem k, ?_⟩
    rw [hlive, List.countP_append, List.countP_append]
    exact h.count
  · have hlive : live (hist ++ [(.release fh, .released ret)]) = (live hist).erase fh := live_concat hist _
    have hmem : fh ∈ live hist := (h.mem fh).mpr hlegal
    constructor
    · rw [hlive]
      exact h.nodup.erase fh
    · intro k
      rw [hlive, h.nodup.mem_erase_iff, h.mem k]
      show _ ↔ Function.update view fh none k ≠ none
      by_cases hk : k = fh
      · rw [hk, Function.update_self]
        exact iff_of_false (fun hne => hne.1 rfl) (not_not.mpr rfl)
      · rw [Function.update_of_ne hk]
        exact and_iff_right hk
    · have hcount := h.count
      have hlen := List.length_erase_of_mem hmem
      have hpos := List.length_pos_of_mem hmem
      rw [hlive, List.countP_append, List.countP_append]
      show ((live hist).erase fh).length + (hist.countP isReleased + 1) = hist.countP isOpened + 0
      omega

theorem Session.counted {env : Env} {tree : FileTree} {hist : List Exchange} {m : Mount} {view : View}
    (h : Session env tree hist m view) : Counted hist view := by
  induction h with
  | start => exact ⟨List.nodup_nil, fun fh => iff_of_false List.not_mem_nil (not_not.mpr rfl), rfl⟩
  | step hsession hlegal hs ih => exact ih.step hsession.run.tracks.2 hlegal hs

/-- A read and a release come back where the handle is open, and else go to a
handle that is not. -/
theorem comes_back_iff (env : Env) (m : Mount) (fh : ℕ) :
    (m.handles.find? fh ≠ none → ∃ m', cbRelease m { fh := fh } = .ok (0, m')) ∧
    (m.handles.find? fh = none → cbRelease m { fh := fh } = .error (.ub .badHandle)) ∧
    ∀ size offset, (m.handles.find? fh ≠ none →
        ∃ ret bytes m', cbRead env m size offset { fh := fh } = .ok (ret, bytes, m')) ∧
      (m.handles.find? fh = none → cbRead env m size offset { fh := fh } = .error (.ub .badHandle)) := by
  cases hf : m.handles.find? fh with
  | none =>
    have hrel : cbRelease m { fh := fh } = .error (.ub .badHandle) := by
      unfold cbRelease
      rw [hf]
    have hread : ∀ size offset, cbRead env m size offset { fh := fh } = .error (.ub .badHandle) := by
      intro size offset
      unfold cbRead
      rw [hf]
    exact ⟨fun h => absurd rfl h, fun _ => hrel,
      fun size offset => ⟨fun h => absurd rfl h, fun _ => hread size offset⟩⟩
  | some f =>
    have hrel : cbRelease m { fh := fh } = .ok (0, { m with handles := m.handles.erase fh }) := by
      unfold cbRelease
      rw [hf]
    have hread : ∀ size offset, ∃ ret bytes m', cbRead env m size offset { fh := fh } = .ok (ret, bytes, m') := by
      intro size offset
      unfold cbRead
      rw [hf]
      exact ⟨_, _, _, rfl⟩
    have hsome : some f ≠ none := Option.some_ne_none f
    exact ⟨fun _ => ⟨_, hrel⟩, fun h => absurd h hsome,
      fun size offset => ⟨fun _ => hread size offset, fun h => absurd h hsome⟩⟩

/-- **The files of a mount are its open handles.** After any requests: the tree
is the one that was mounted; there is one temporary file for each handle that
was given out and not taken back, and no other; there are as many as opens
less releases; the next open gives out none of these handles; and a read or a
release comes back exactly for these, and else goes to a file that is not there. -/
theorem handles_exact {env : Env} {tree : FileTree} {hist : List Exchange} {m : Mount} {view : View}
    (h : Session env tree hist m view) :
    m.tree = tree ∧ (m.handles.entries.map Prod.fst).Perm (live hist) ∧ (live hist).Nodup ∧
    (live hist).length + hist.countP isReleased = hist.countP isOpened ∧
    (∀ path fi m', cbOpen env m path {} = .ok (0, fi, m') → fi.fh ∉ live hist) ∧
    ∀ fh, if fh ∈ live hist then
        (∃ m', cbRelease m { fh := fh } = .ok (0, m')) ∧
        ∀ size offset, ∃ ret bytes m', cbRead env m size offset { fh := fh } = .ok (ret, bytes, m')
      else
        cbRelease m { fh := fh } = .error (.ub .badHandle) ∧
        ∀ size offset, cbRead env m size offset { fh := fh } = .error (.ub .badHandle) := by
  obtain ⟨htree, htracks⟩ := h.run.tracks
  have hcounted := h.counted
  have hmem : ∀ fh, fh ∈ live hist ↔ m.handles.find? fh ≠ none := fun fh =>
    (hcounted.mem fh).trans (htracks.find_ne_none fh).symm
  have hperm : (m.handles.entries.map Prod.fst).Perm (live hist) := by
    apply (List.perm_ext_iff_of_nodup m.handles.images_nodup hcounted.nodup).mpr
    intro fh
    exact (mem_keys_iff m fh).trans (hmem fh).symm
  refine ⟨htree, hperm, hcounted.nodup, hcounted.count, fun path fi m' hopen hlive => ?_, fun fh => ?_⟩
  · exact (hcounted.mem _).mp hlive (opened_fresh htracks hopen).1
  · obtain ⟨hrel, hnorel, hread⟩ := comes_back_iff env m fh
    split_ifs with hlive
    · have hne := (hmem fh).mp hlive
      exact ⟨hrel hne, fun size offset => (hread size offset).1 hne⟩
    · have hnone : m.handles.find? fh = none := by
        rw [hmem fh, not_not] at hlive
        exact hlive
      exact ⟨hnorel hnone, fun size offset => (hread size offset).2 hnone⟩

/-- A file of three bytes, read in chunks of two until a read comes back empty,
after an open of the one file `a`. -/
theorem session_of_three : ∃ m view, Session (Env.plain (writing 0 [1, 2, 3] kOK)) (Mount.single (.file ['a'] 3)).tree
    [(.open ['/', 'a'], .opened 0 { fh := 1 }), (.read 1 2 0, .data 2 [1, 2]), (.read 1 2 2, .data 1 [3]),
      (.read 1 2 3, .data 0 [])] m view ∧ view 1 = some [1, 2, 3] := by
  have hlim : ¬ overLimit (Env.plain (writing 0 [1, 2, 3] kOK)) (fileStat zeroStat (.file ['a'] 3)) := by
    decide +kernel
  have hopen := cbOpen_of_extract {} (find_single 3) hlim rfl
  have hlegal : Legal (Mount.single (.file ['a'] 3)).tree (fun _ => none) (.open ['/', 'a']) := by
    rw [Legal, cbGetattr_of_find _ (find_single 3)]
    decide
  have hview : (View.after (Env.plain (writing 0 [1, 2, 3] kOK)) (Mount.single (.file ['a'] 3)) (fun _ => none)
      (.open ['/', 'a']) (.opened 0 { fh := 1 })) 1 = some [1, 2, 3] := by
    rw [View.after, if_pos rfl, find_single 3]
    exact Function.update_self _ _ _
  have hread : ∀ offset : Int64, 0 ≤ offset.toInt → Legal (Mount.single (.file ['a'] 3)).tree
      (View.after (Env.plain (writing 0 [1, 2, 3] kOK)) (Mount.single (.file ['a'] 3)) (fun _ => none)
      (.open ['/', 'a']) (.opened 0 { fh := 1 })) (.read 1 2 offset) := by
    intro offset ho
    exact ⟨by rw [hview]; exact Option.some_ne_none _, ho, by decide⟩
  have h1 := Session.step .start hlegal (serve_open hopen)
  have h2 := Session.step h1 (hread 0 (by decide)) rfl
  have h3 := Session.step h2 (hread 2 (by decide)) rfl
  have h4 := Session.step h3 (hread 3 (by decide)) rfl
  exact ⟨_, _, h4, hview⟩

/-- The file opened twice, read through the first handle, which is then released: there
is the second, and a read of the first goes to a file that is not there. -/
theorem handles_exact_of_three : ∃ m view,
    Session (Env.plain (writing 0 [1, 2, 3] kOK)) (Mount.single (.file ['a'] 3)).tree
      [(.open ['/', 'a'], .opened 0 { fh := 1 }), (.open ['/', 'a'], .opened 0 { fh := 2 }),
        (.read 1 2 0, .data 2 [1, 2]), (.release 1, .released 0)] m view ∧
    (m.handles.entries.map Prod.fst).Perm [2] ∧
    (∃ ret bytes m', cbRead (Env.plain (writing 0 [1, 2, 3] kOK)) m 2 0 { fh := 2 } = .ok (ret, bytes, m')) ∧
    cbRead (Env.plain (writing 0 [1, 2, 3] kOK)) m 2 0 { fh := 1 } = .error (.ub .badHandle) := by
  have hlim : ¬ overLimit (Env.plain (writing 0 [1, 2, 3] kOK)) (fileStat zeroStat (.file ['a'] 3)) := by
    decide +kernel
  have hlegal : ∀ view, Legal (Mount.single (.file ['a'] 3)).tree view (.open ['/', 'a']) := by
    intro view
    rw [Legal, cbGetattr_of_find _ (find_single 3)]
    decide
  have h1 := Session.step .start (hlegal _) (serve_open (cbOpen_of_extract {} (find_single 3) hlim rfl))
  have h2 := Session.step h1 (hlegal _) (serve_open (cbOpen_of_extract {} (find_single 3) hlim rfl))
  have htracks := h2.run.tracks.2
  have hfirst := (htracks.find_ne_none 1).mp (Option.some_ne_none _)
  have h3 := Session.step h2 (show Legal _ _ (.read 1 2 0) from ⟨hfirst, by decide, by decide⟩) rfl
  have h4 := Session.step h3 (show Legal _ _ (.release 1) from hfirst) rfl
  obtain ⟨-, hperm, -, -, -, hback⟩ := handles_exact h4
  exact ⟨_, _, h4, hperm, (hback 2).2 2 0, (hback 1).2 2 0⟩

/-! ### Reading a file from the start to the end -/

/-- What was read from a handle since it was given out. -/
def chunkAfter (fh : ℕ) (l : List (Chunk UInt8)) : Exchange → List (Chunk UInt8)
  | (.open _, .opened ret fi) => if ret = 0 ∧ fi.fh = fh then [] else l
  | (.read k size offset, .data _ bytes) => if k = fh then l ++ [⟨offset.toInt.toNat, size.toNat, bytes⟩] else l
  | _ => l

def chunks (fh : ℕ) (hist : List Exchange) : List (Chunk UInt8) := hist.foldl (chunkAfter fh) []

theorem chunks_concat (fh : ℕ) (hist : List Exchange) (x : Exchange) :
    chunks fh (hist ++ [x]) = chunkAfter fh (chunks fh hist) x := by
  rw [chunks, List.foldl_append]
  rfl

/-- The bytes of an open handle are those that the extraction of the item `index` left
at `clock`, at an open of a path of the tree that gave the handle out. -/
def Origin (env : Env) (tree : FileTree) (hist : List Exchange) (fh : ℕ) (bytes : List UInt8) (clock : ℕ)
    (index : UInt32) : Prop :=
  ∃ path fi el, (Request.open path, Response.opened 0 fi) ∈ hist ∧ fi.fh = fh ∧ (cbGetattr tree path).2.isReg ∧
    tree.find? ⟨path⟩ = some el ∧ el.1.index = index ∧ decoded env clock index = some bytes

/-- Every open handle has an origin, and what was read from it are slices, if its
extraction set no size. -/
def Told (env : Env) (tree : FileTree) (hist : List Exchange) (m : Mount) (view : View) : Prop :=
  ∀ fh bytes, view fh = some bytes → ∃ clock index, OpenedAt env tree fh clock index m view ∧
    Origin env tree hist fh bytes clock index ∧ (Uncut env clock index → ∀ c ∈ chunks fh hist, c.Of bytes)

theorem Origin.mono {env : Env} {tree : FileTree} {hist : List Exchange} {fh : ℕ} {bytes : List UInt8} {clock : ℕ}
    {index : UInt32} (h : Origin env tree hist fh bytes clock index) (x : Exchange) :
    Origin env tree (hist ++ [x]) fh bytes clock index := by
  obtain ⟨path, fi, el, hmem, rest⟩ := h
  exact ⟨path, fi, el, List.mem_append_left _ hmem, rest⟩

/-- A read that comes back has the slice that was asked for. -/
theorem read_of {env : Env} (libc : LibcReads env) {m m' : Mount} {view : View} {fh : ℕ} {size : UInt64}
    {offset : Int64} {ret : Int32} {data : List UInt8} {f : FileWriteStream} (hf : m.handles.find? fh = some f)
    (hfresh : f.file.Fresh) (hlegal : Legal m.tree view (.read fh size offset))
    (hread : cbRead env m size offset { fh := fh } = .ok (ret, data, m')) :
    Chunk.Of f.file.content ⟨offset.toInt.toNat, size.toNat, data⟩ := by
  obtain ⟨-, ho, hs⟩ := hlegal
  obtain ⟨n, m'', hread', hn⟩ := cbRead_eq libc hf hfresh ho hs
  rw [hread] at hread'
  cases hread'
  show Bytes.slice _ _ ret.toInt.toNat = Bytes.slice _ _ size.toNat
  rw [Bytes.slice, Bytes.slice, List.take_eq_take_iff, List.length_drop, hn]
  omega

/-- A request that comes back keeps the story. -/
theorem Told.step {env : Env} (libc : LibcReads env) {tree : FileTree} {hist : List Exchange} {m m' : Mount}
    {view : View} {req : Request} {resp : Response} (h : Told env tree hist m view) (hrun : Run env tree m view)
    (hlegal : Legal m.tree view req) (hs : serve env m req = .ok (resp, m')) :
    Told env tree (hist ++ [(req, resp)]) m' (view.after env m req resp) := by
  obtain ⟨rfl, -⟩ := hrun.tracks
  intro fh bytes hv
  rcases serve_cases hs with ⟨path, ret, fi, rfl, rfl, hopen⟩ | ⟨k, size, offset, ret, data, rfl, rfl, hread⟩ |
    ⟨k, ret, rfl, rfl, -⟩
  · rw [chunks_concat, chunkAfter]
    by_cases hnew : ret = 0 ∧ fi.fh = fh
    · -- the handle is new: its bytes are what the decoder leaves now
      rw [if_pos hnew]
      obtain ⟨rfl, rfl⟩ := hnew
      have hbytes := hv
      rw [View.after, if_pos rfl, Function.update_self] at hbytes
      obtain ⟨el, hel, hdec⟩ := Option.bind_eq_some_iff.mp hbytes
      exact ⟨m.clock, el.1.index, .open hrun hlegal hs rfl rfl hel rfl,
        ⟨path, fi, el, List.mem_append_right _ (List.mem_singleton_self _), rfl, hlegal.2, hel, rfl, hdec⟩,
        fun _ c hc => absurd hc List.not_mem_nil⟩
    · rw [if_neg hnew]
      have hold : view fh = some bytes := by
        rw [View.after] at hv
        split_ifs at hv with hret
        · rwa [Function.update_of_ne fun he => hnew ⟨hret, he.symm⟩] at hv
        · exact hv
      obtain ⟨clock, index, hopened, horigin, hof⟩ := h fh bytes hold
      exact ⟨clock, index, hopened.later hlegal Request.noConfusion hs, horigin.mono _, hof⟩
  · obtain ⟨clock, index, hopened, horigin, hof⟩ := h fh bytes hv
    refine ⟨clock, index, hopened.later hlegal Request.noConfusion hs, horigin.mono _, fun hcut c hc => ?_⟩
    rw [chunks_concat, chunkAfter] at hc
    split_ifs at hc with hk
    · subst hk
      rcases List.mem_append.mp hc with hc | hc
      · exact hof hcut c hc
      · obtain ⟨f, hf, hdec, hfresh⟩ := hopened.find libc
        obtain ⟨-, -, -, -, -, -, -, -, hdec'⟩ := horigin
        rw [hdec] at hdec'
        cases hdec'
        rw [List.mem_singleton.mp hc]
        exact read_of libc hf (hfresh hcut) hlegal hread
    · exact hof hcut c hc
  · have hv : Function.update view k none fh = some bytes := hv
    by_cases hk : fh = k
    · rw [hk, Function.update_self] at hv
      cases hv
    · rw [Function.update_of_ne hk] at hv
      rw [chunks_concat]
      obtain ⟨clock, index, hopened, horigin, hof⟩ := h fh bytes hv
      refine ⟨clock, index, hopened.later hlegal (fun he => hk ?_) hs, horigin.mono _, hof⟩
      cases he
      rfl

theorem Session.told {env : Env} (libc : LibcReads env) {tree : FileTree} {hist : List Exchange} {m : Mount}
    {view : View} (h : Session env tree hist m view) : Told env tree hist m view := by
  induction h with
  | start => intro fh bytes hv; cases hv
  | step hsession hlegal hs ih => exact ih.step libc hsession.run hlegal hs

/-- **Reading a file from the start to the end.** In the mount of an archive,
after any requests: an open handle was given out by an open of a regular
file's path, that of an item, and has what the item's decoder left in the file
at that open. If that set no size, and the reads of the handle since then each
start where the one before ended, then what they got, put together, is the
front of it. It is all of it as soon as a read that asked for something came
back empty; and until then there were at most as many reads as it has bytes. -/
theorem sequential_reads {loc : Locale} {arc : ImplArchive} {allowOther : Bool} {tree : FileTree} {env : Env}
    {hist : List Exchange} {m : Mount} {view : View} {fh : ℕ} {bytes : List UInt8}
    (h : execute loc arc allowOther = .ok tree) (libc : LibcReads env) (hsession : Session env tree hist m view)
    (hv : view fh = some bytes) :
    ∃ clock i, (∃ path fi item it, (Request.open path, Response.opened 0 fi) ∈ hist ∧ fi.fh = fh ∧
        arc.items[i]? = some item ∧ decode loc arc item = .ok it ∧ cbGetattr tree path = (0, fileStat arc.stat it) ∧
        OpenedAt env tree fh clock (UInt32.ofNat i) m view ∧ decoded env clock (UInt32.ofNat i) = some bytes) ∧
      (Uncut env clock (UInt32.ofNat i) → Chunk.InOrder (chunks fh hist) →
        Chunk.flatten (chunks fh hist) = bytes.take (Chunk.total (chunks fh hist)) ∧
        (∀ c ∈ chunks fh hist, c.size ≠ 0 → c.data = [] → Chunk.flatten (chunks fh hist) = bytes) ∧
        ((∀ c ∈ chunks fh hist, c.data ≠ []) → (chunks fh hist).length ≤ bytes.length)) := by
  obtain ⟨clock, index, hopened, ⟨path, fi, el, hmem, hfi, hreg, hel, rfl, hdec⟩, hof⟩ := hsession.told libc fh bytes hv
  rcases entry_cases h hel with ⟨i, it, item, hi, hitem, rfl, -⟩ | ⟨-, hdir⟩
  · refine ⟨clock, i, ⟨path, fi, item, it, hmem, hfi, hi, hitem, cbGetattr_of_find path hel, hopened, hdec⟩,
      fun hcut hord => ?_⟩
    have hof := hof hcut
    exact ⟨Chunk.flatten_eq_take hof hord, fun c hc hsize hempty => Chunk.flatten_of_empty hof hord hc hsize hempty,
      fun hdata => Chunk.count_le hof hord hdata⟩
  · rw [cbGetattr_of_find path hel] at hreg
    exact absurd hreg (not_isReg_of_isDir hdir)

/-- The chunks of the three bytes are all of them. -/
theorem sequential_reads_of_three : ∃ m view hist,
    Session (Env.plain (writing 0 [1, 2, 3] kOK)) (Mount.single (.file ['a'] 3)).tree hist m view ∧
    Chunk.flatten (chunks 1 hist) = [1, 2, 3] := by
  obtain ⟨m, view, h, hv⟩ := session_of_three
  have hord : Chunk.InOrder (chunks 1 [(.open ['/', 'a'], .opened 0 { fh := 1 }), (.read 1 2 0, .data 2 [1, 2]),
      (.read 1 2 2, .data 1 [3]), (.read 1 2 3, .data 0 [])]) := by
    show Chunk.InOrder ([] ++ [_] ++ [_] ++ [_])
    simp only [Chunk.inOrder_concat]
    exact ⟨⟨⟨Chunk.inOrder_nil, rfl⟩, rfl⟩, rfl⟩
  obtain ⟨clock, i, -, hreads⟩ := sequential_reads (shownAt_single (sOk, .ui8 3)).mounted
    ⟨fun _ => rfl, fun _ => rfl⟩ h hv
  have hcut : Uncut (Env.plain (writing 0 [1, 2, 3] kOK)) clock (UInt32.ofNat i) :=
    uncut_of_only (only_writing 0 [1, 2, 3] kOK)
  have hlast : (⟨3, 2, []⟩ : Chunk UInt8) ∈ chunks 1 [(.open ['/', 'a'], .opened 0 { fh := 1 }),
      (.read 1 2 0, .data 2 [1, 2]), (.read 1 2 2, .data 1 [3]), (.read 1 2 3, .data 0 [])] :=
    List.mem_cons_of_mem _ (List.mem_cons_of_mem _ (List.mem_singleton_self _))
  exact ⟨m, view, _, h, (hreads hcut hord).2.1 _ hlast (by decide) rfl⟩

end Fuse

end Fuse3P7zip
