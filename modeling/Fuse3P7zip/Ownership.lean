/-
# Who deletes the stream

`execute` keeps the stream in a `unique_ptr` and adds one reference for the
decoder. `GetStream` gives the stream out without adding one, as often as it
is asked to extract, and a decoder that follows COM gives every pointer back
with a `Release`. So the one reference is for one `GetStream`: with a second
one, the last `Release` deletes a stream that `execute` still owns
(`owned_iff`).

The stream's counter is a counter in the sense of `RefCount`
(`streamCounter_point`), so what counts is what the decoder added and gave back.
-/
import Fuse3P7zip.Opening
import Fuse3P7zip.Lib.RefCount

namespace Fuse3P7zip

open RefCount (Op adds drops Live Balanced)
open Fuse (Mount FuseFileInfo cbOpen cbRelease overLimit)

namespace Extractor

/-! ### The counter -/

/-- What an answered call does to the stream's counter. -/
def opOf : Call × Reply → Option Op
  | (.streamAddRef, _) => some .add
  | (.streamQueryInterface _, r) => if r.object then some .add else none
  | (.streamRelease, _) => some .drop
  | _ => none

def ops (tr : List (Call × Reply)) : List Op := tr.filterMap opOf

/-- The stream's counter, while there is a stream. -/
def streamCounter (s : Extractor) : Option UInt32 := s.file.map fun f => f.refCounter

theorem ops_concat (tr : List (Call × Reply)) (x : Call × Reply) :
    ops (tr ++ [x]) = ops tr ++ (opOf x).toList := by
  rw [ops, List.filterMap_append]
  cases h : opOf x <;> simp [ops, h]

theorem opOf_onExtractor {c : Call} (h : onExtractor c = true) (r : Reply) : opOf (c, r) = none := by
  cases c <;> first | rfl | cases h

/-- An answered call is an operation of the counter. -/
theorem streamCounter_answered {env : Env} {s s' : Extractor} {c : Call} {r : Reply}
    (h : Answered env s c r s') :
    s'.streamCounter = RefCount.run s.streamCounter (opOf (c, r)).toList := by
  cases h with
  | extractor hon hfile =>
    rw [opOf_onExtractor hon, streamCounter, hfile]
    rfl
  | streamAddRef hs =>
    rw [streamCounter, streamCounter, hs]
    rfl
  | @streamRelease f hs =>
    have hrun : RefCount.run s.streamCounter [.drop] =
        if f.refCounter - 1 = 0 then none else some (f.refCounter - 1) := by
      rw [streamCounter, hs]
      rfl
    refine Eq.trans ?_ hrun.symm
    by_cases h0 : f.refCounter - 1 = 0
    · rw [if_pos h0]
      exact congrArg (Option.map _) (if_pos h0)
    · rw [if_neg h0]
      exact congrArg (Option.map _) (if_neg h0)
  | @streamQueryInterface f riid hs =>
    rw [streamCounter, streamCounter, hs]
    cases riid <;> rfl
  | write hs =>
    rw [streamCounter, streamCounter, hs]
    rfl
  | seek hs _ =>
    rw [streamCounter, streamCounter, hs]
    rfl
  | setSize hs hset =>
    rw [streamCounter, streamCounter, hs, Option.map_some, FileWriteStream.setSize_refCounter hset]
    rfl

/-- The counter starts at 2 and counts what the decoder did to the stream. -/
theorem streamCounter_point {env : Env} {clock : ℕ} {index : UInt32} {tr : List (Call × Reply)}
    {d : Decoder} {s : Extractor} (h : Point env clock index tr d s) :
    s.streamCounter = RefCount.run (some (UInt32.ofNat 2)) (ops tr) := by
  refine h.invariant
    (I := fun tr s => s.streamCounter = RefCount.run (some (UInt32.ofNat 2)) (ops tr)) rfl ?_
  intro tr c s r s' ih hc
  rw [streamCounter_answered (callback_answered hc), ih, ops_concat, RefCount.run, RefCount.run,
    RefCount.run, List.foldl_append]

/-- There is a stream while its counter lives. -/
theorem file_ne_none_of_live {s : Extractor} (h : Live s.streamCounter) : s.file ≠ none := by
  obtain ⟨n, hn, -⟩ := h
  intro hs
  rw [streamCounter, hs] at hn
  cases hn

/-- The part of an exchange that did the first part of the operations. -/
theorem exists_prefix_of_ops {tr : List (Call × Reply)} {p : List Op} (h : p <+: ops tr) :
    ∃ tr1 tr2, tr = tr1 ++ tr2 ∧ ops tr1 = p := by
  obtain ⟨q, hq⟩ := h
  obtain ⟨tr1, tr2, rfl, h1, -⟩ := List.filterMap_eq_append_iff.mp hq.symm
  exact ⟨tr1, tr2, rfl, h1⟩

/-- **The counter stays positive at every point exactly when the decoder never
gave back more than it added and one more**, and the true count fits. -/
theorem live_points_iff (env : Env) (clock : ℕ) (index : UInt32) :
    (∀ tr d s, Point env clock index tr d s → Live s.streamCounter) ↔
      ∀ tr d s, Point env clock index tr d s → Balanced 2 (ops tr) := by
  constructor
  · intro h tr d s hp
    refine (RefCount.live_iff_balanced (n := 2) (by decide) (by decide) (ops tr)).mp ?_ _ (List.prefix_refl _)
    intro p hpre
    obtain ⟨tr1, tr2, rfl, rfl⟩ := exists_prefix_of_ops hpre
    obtain ⟨d', s', hp', -⟩ := hp.split
    rw [← streamCounter_point hp']
    exact h tr1 d' s' hp'
  · intro h tr d s hp
    rw [streamCounter_point hp]
    refine (RefCount.live_iff_balanced (n := 2) (by decide) (by decide) (ops tr)).mpr ?_ _ (List.prefix_refl _)
    intro p hpre
    obtain ⟨tr1, tr2, rfl, rfl⟩ := exists_prefix_of_ops hpre
    obtain ⟨d', s', hp', -⟩ := hp.split
    exact h tr1 d' s' hp'

/-! ### The owners -/

/-- What can delete the stream. -/
inductive Deleter where
  | release
  | uniquePtr
  | cbRelease
  deriving DecidableEq

/-- The call was the `Release` that deletes. -/
def deletes : Call × Reply → Bool
  | (.streamRelease, r) => r.count = 0
  | _ => false

/-- Who deletes the file of a handle in `n` requests to release it: each that comes
back does. -/
def released : ℕ → Mount → FuseFileInfo → List Deleter
  | 0, _, _ => []
  | n + 1, m, fi =>
    match cbRelease m fi with
    | .ok (_, m') => .cbRelease :: released n m' fi
    | .error _ => []

/-- Who deletes the stream of an open with the exchange `tr`, in order. When `CheckCom`
throws the `unique_ptr` does, and else the releases of the handle. -/
def deleters (env : Env) (m : Mount) (path : Str) (fi : FuseFileInfo) (n : ℕ) (tr : List (Call × Reply)) :
    List Deleter :=
  (tr.filter deletes).map (fun _ => Deleter.release) ++
    match cbOpen env m path fi with
    | .error _ => [.uniquePtr]
    | .ok (_, fi', m') => released n m' fi'

/-- The stream that `execute` makes lives through `Extract`, and in every open that
makes it is then deleted once, by its owner, however often the handle is released. -/
structure Owned (env : Env) (clock : ℕ) (index : UInt32) : Prop where
  live : (env.libc clock).tmpfile = true → ∀ tr d s, Point env clock index tr d s →
    Live s.streamCounter
  once : ∀ tr hr s, Extracts env clock index tr hr s → (tr.filter deletes) = [] ∧
    ∀ (m : Mount) path fi el n, m.clock = clock → m.tree.find? ⟨path⟩ = some el → ¬ overLimit env el.2 →
      el.1.seq = true → el.1.index = index →
      deleters env m path fi (n + 1) tr = [if failed hr then .uniquePtr else .cbRelease]

/-- The stream that an open hands over is deleted by the release of its handle,
once: the handle is not open after that. -/
theorem cbRelease_once {env : Env} {m m' : Mount} {path : Str} {fi fi' : FuseFileInfo}
    (h : cbOpen env m path fi = .ok (0, fi', m')) (n : ℕ) : released (n + 1) m' fi' = [.cbRelease] := by
  obtain ⟨-, f, clock, -, -, -, -, hfi, hm⟩ := Fuse.cbOpen_eq_zero h
  have hopen : m'.handles.find? fi'.fh = some f := by
    rw [hm, hfi, Fuse.find_insert, if_pos rfl]
  have hgone : (m'.handles.erase fi'.fh).find? fi'.fh = none := by
    rw [Fuse.find_erase, if_pos rfl]
  have hfirst : cbRelease m' fi' = .ok (0, { m' with handles := m'.handles.erase fi'.fh }) := by
    unfold cbRelease
    rw [hopen]
  have hsecond : cbRelease { m' with handles := m'.handles.erase fi'.fh } fi' = .error (.ub .badHandle) := by
    unfold cbRelease
    rw [hgone]
  rw [released, hfirst]
  cases n with
  | zero => rfl
  | succ n => simp only [released, hsecond]

/-- After a `Release` that deletes, there is no stream. -/
theorem file_eq_none_of_deletes {env : Env} {clock : ℕ} {index : UInt32} {tr : List (Call × Reply)}
    {d : Decoder} {s : Extractor} (h : Point env clock index tr d s) {x : Call × Reply}
    (hx : x ∈ tr) (hdel : deletes x = true) : s.file = none := by
  suffices ∀ x ∈ tr, deletes x = true → s.file = none from this x hx hdel
  clear hx hdel
  refine h.invariant (I := fun tr s => ∀ x ∈ tr, deletes x = true → s.file = none)
    (fun _ hx => absurd hx List.not_mem_nil) ?_
  intro tr c s r s' ih hc x hx hdel
  rcases List.mem_append.mp hx with hx | hx
  · -- without a stream, only a call on the extractor is answered
    have hs := ih x hx hdel
    cases callback_answered hc with
    | extractor _ hfile => rw [hfile, hs]
    | streamAddRef h => rw [hs] at h; cases h
    | streamRelease h => rw [hs] at h; cases h
    | streamQueryInterface h => rw [hs] at h; cases h
    | write h => rw [hs] at h; cases h
    | seek h _ => rw [hs] at h; cases h
    | setSize h _ => rw [hs] at h; cases h
  · obtain rfl := List.mem_singleton.mp hx
    cases callback_answered hc with
    | extractor hon _ => cases c <;> first | cases hdel | cases hon
    | @streamRelease f _ =>
      have h0 : f.release.1 = 0 := UInt32.toNat_inj.mp (of_decide_eq_true hdel)
      exact if_pos h0
    | streamAddRef _ => cases hdel
    | streamQueryInterface _ => cases hdel
    | write _ => cases hdel
    | seek _ _ => cases hdel
    | setSize _ _ => cases hdel

/-- The counter is all there is to it. -/
theorem owned_of_live {env : Env} {clock : ℕ} {index : UInt32}
    (h : (env.libc clock).tmpfile = true → ∀ tr d s, Point env clock index tr d s →
      Live s.streamCounter) : Owned env clock index := by
  refine ⟨h, ?_⟩
  rintro tr hr s ⟨htmp, hp⟩
  have hs := file_ne_none_of_live (h htmp _ _ _ hp)
  have hnone : tr.filter deletes = [] := List.filter_eq_nil_iff.mpr fun x hx hdel =>
    hs (file_eq_none_of_deletes hp hx hdel)
  refine ⟨hnone, fun m path fi el n hclock hel hlim hseq hindex => ?_⟩
  subst hclock hindex
  rw [deleters, hnone]
  by_cases hf : failed hr
  · -- `CheckCom` throws
    have hx : execute env m.clock el.1.index = .error (.exn "Extract") := by
      unfold execute
      rw [FileWriteStream.new_eq_ok.mpr ⟨htmp, rfl⟩]
      show (Client.run (callback env) (env.extract m.clock el.1.index) _ >>= _) = _
      rw [hp.run_eq.1]
      show (checkCom hr "Extract" >>= _) = _
      rw [checkCom_failed hf]
      rfl
    have hopen := Fuse.cbOpen_eq_error fi hel hlim (by rw [CiIterator.extract, if_pos hseq, hx])
    rw [hopen, if_pos hf]
    rfl
  · obtain ⟨file, hs⟩ := Option.ne_none_iff_exists'.mp hs
    have hopen := Fuse.cbOpen_of_extracts fi hel hlim hseq ⟨htmp, hp⟩ hf hs
    have honce := cbRelease_once hopen n
    rw [hopen, if_neg hf]
    exact honce

/-! ### Decoders that follow COM -/

/-- The pointers to the stream that `GetStream` gave out. -/
def gets (tr : List (Call × Reply)) : ℕ :=
  tr.countP fun x => match x with
    | (.getStream _ _, r) => r.object
    | _ => false

/-- How often the stream was asked for, to extract. -/
def asks (tr : List (Call × Reply)) : ℕ :=
  tr.countP fun x => match x with
    | (.getStream _ askExtractMode, _) => askExtractMode = kExtract
    | _ => false

/-- In the extraction, the decoder releases no pointer twice, and has released
every one when it returns. -/
def FollowsCom (env : Env) (clock : ℕ) (index : UInt32) : Prop :=
  ∀ tr d s, Point env clock index tr d s → drops (ops tr) ≤ gets tr + adds (ops tr) ∧
    ∀ hr, d = .ret hr → drops (ops tr) = gets tr + adds (ops tr)

/-- Every `GetStream` that asks to extract gets the stream. -/
theorem gets_eq_asks {env : Env} {clock : ℕ} {index : UInt32} {tr : List (Call × Reply)}
    {d : Decoder} {s : Extractor} (h : Point env clock index tr d s) : gets tr = asks tr := by
  refine h.invariant (I := fun tr _ => gets tr = asks tr) rfl ?_
  intro tr c s r s' ih hc
  rw [gets, asks, List.countP_append, List.countP_append]
  refine congrArg₂ (· + ·) ih ?_
  cases c with
  | getStream i mode => cases hc; rfl
  | _ => rfl

/-- **When the stream keeps its owner.** With a decoder that follows COM: when
at every point it has given back at most one pointer more than it added; and
so, when `Extract` returns, if it asked for the stream at most once. In both
cases the references have to fit in 32 bits. -/
theorem owned_iff (env : Env) (clock : ℕ) (index : UInt32) (com : FollowsCom env clock index) :
    (Owned env clock index ↔ ((env.libc clock).tmpfile = true →
      ∀ tr d s, Point env clock index tr d s → Balanced 2 (ops tr))) ∧
    ∀ tr hr s, Extracts env clock index tr hr s → (Owned env clock index ↔
      asks tr ≤ 1 ∧ ∀ tr' d' s', Point env clock index tr' d' s' →
        2 + adds (ops tr') < drops (ops tr') + 2 ^ 32) := by
  have hpoints : Owned env clock index ↔ ((env.libc clock).tmpfile = true →
      ∀ tr d s, Point env clock index tr d s → Balanced 2 (ops tr)) := by
    rw [← live_points_iff]
    exact ⟨Owned.live, owned_of_live⟩
  refine ⟨hpoints, ?_⟩
  rintro tr hr s ⟨htmp, hp⟩
  rw [hpoints]
  constructor
  · intro h
    refine ⟨?_, fun tr' d' s' hp' => (h htmp tr' d' s' hp').2⟩
    have hback := (com tr _ s hp).2 hr rfl
    have hlt := (h htmp tr _ s hp).1
    rw [gets_eq_asks hp] at hback
    omega
  · rintro ⟨hask, hfit⟩ - tr' d' s' hp'
    refine ⟨?_, hfit tr' d' s' hp'⟩
    -- up to here it has asked at most as often as in all
    have hle : asks tr' ≤ asks tr := (hp'.prefix_ret hp).sublist.countP_le
    have hback := (com tr' d' s' hp').1
    rw [gets_eq_asks hp'] at hback
    omega

/-- A decoder that has `n` pointers to the stream and releases them. -/
def releasing : ℕ → Decoder
  | 0 => .ret sOk
  | n + 1 => .call .streamRelease fun _ => releasing n

/-- A decoder that has `n` pointers, asks `k` times for the entry's stream, and
then releases what it has. -/
def asking (index : UInt32) : ℕ → ℕ → Decoder
  | 0, n => releasing n
  | k + 1, n => .call (.getStream index kExtract) fun r =>
    asking index k (if r.object then n + 1 else n)

theorem releasing_com (n : ℕ) : ∀ tr d, Client.Follows (releasing n) tr d →
    gets tr = 0 ∧ adds (ops tr) = 0 ∧ drops (ops tr) ≤ n ∧
      ∀ hr, d = .ret hr → drops (ops tr) = n := by
  induction n with
  | zero =>
    rintro tr d (_ | _)
    exact ⟨rfl, rfl, Nat.le_refl 0, fun _ _ => rfl⟩
  | succ n ih =>
    rintro tr d (_ | @⟨_, _, r, tr, _, h⟩)
    · exact ⟨rfl, rfl, Nat.zero_le _, fun _ h => by cases h⟩
    · obtain ⟨hg, ha, hd, hret⟩ := ih tr d h
      have hops : ops ((.streamRelease, r) :: tr) = .drop :: ops tr := rfl
      have hdrops : drops (ops ((.streamRelease, r) :: tr)) = drops (ops tr) + 1 := by
        rw [hops, drops, List.count_cons_self]
        rfl
      refine ⟨?_, ?_, by omega, fun hr he => by rw [hdrops, hret hr he]⟩
      · rw [gets, List.countP_cons]
        exact hg
      · rw [hops, adds, List.count_cons_of_ne (by decide)]
        exact ha

theorem asking_com (index : UInt32) (k : ℕ) : ∀ n tr d, Client.Follows (asking index k n) tr d →
    adds (ops tr) = 0 ∧ drops (ops tr) ≤ n + gets tr ∧
      ∀ hr, d = .ret hr → drops (ops tr) = n + gets tr := by
  induction k with
  | zero =>
    intro n tr d h
    obtain ⟨hg, ha, hd, hret⟩ := releasing_com n tr d h
    rw [hg]
    exact ⟨ha, hd, hret⟩
  | succ k ih =>
    rintro n tr d (_ | @⟨_, _, r, tr, _, h⟩)
    · exact ⟨rfl, Nat.zero_le _, fun _ h => by cases h⟩
    · have hops : ops ((.getStream index kExtract, r) :: tr) = ops tr := rfl
      have hgets : gets ((.getStream index kExtract, r) :: tr) =
          gets tr + if r.object then 1 else 0 := by
        rw [gets, List.countP_cons]
        rfl
      obtain ⟨ha, hd, hret⟩ := ih _ tr d h
      rw [hops, hgets]
      cases hr : r.object with
      | true =>
        simp only [hr, if_true] at hd hret ⊢
        exact ⟨ha, by omega, fun hr he => by rw [hret hr he]; omega⟩
      | false =>
        simp only [hr, Bool.false_eq_true, if_false] at hd hret ⊢
        exact ⟨ha, hd, hret⟩

theorem followsCom_asking (index : UInt32) (k clock : ℕ) (i : UInt32) :
    FollowsCom (Env.plain (asking index k 0)) clock i := by
  intro tr d s h
  obtain ⟨ha, hd, hret⟩ := asking_com index k 0 tr d h.follows
  exact ⟨by omega, fun hr he => by have := hret hr he; omega⟩

/-- A decoder that asks once. -/
theorem owned_asking_once : Owned (Env.plain (asking 0 1 0)) 0 0 := by
  have hext : Extracts (Env.plain (asking 0 1 0)) 0 0 _ _ _ :=
    ⟨rfl, .call rfl (.call rfl (.here _ _))⟩
  refine ((owned_iff _ _ _ (followsCom_asking 0 1 0 0)).2 _ _ _ hext).mpr ⟨by decide, ?_⟩
  intro tr d s hp
  have := (asking_com 0 1 0 tr d hp.follows).1
  omega

/-- A decoder that asks twice, and releases both pointers it got: `execute` has
lost its stream. -/
theorem second_stream_deletes :
    FollowsCom (Env.plain (asking 0 2 0)) 0 0 ∧ ¬ Owned (Env.plain (asking 0 2 0)) 0 0 ∧
    execute (Env.plain (asking 0 2 0)) 0 0 = .error (.ub .freedStream) := by
  refine ⟨followsCom_asking 0 2 0 0, fun h => ?_, rfl⟩
  have hp : Point (Env.plain (asking 0 2 0)) 0 0 _ _ _ :=
    .call rfl (.call rfl (.call rfl (.call rfl (.here _ _))))
  exact file_ne_none_of_live (h.live rfl _ _ _ hp) rfl

end Extractor

end Fuse3P7zip
