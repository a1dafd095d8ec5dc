/-
# The loop over the items

`ci_iterator`. An iterator has its `Impl` behind a `unique_ptr`: a copy
makes an `Impl` of its own, and `operator++` writes into that of the
iterator alone. The loop `for (it = begin(); it != end(); ++it)` ends, and
visits every index once and in order (`iteration`): `operator++` sets the
end flag at the size, before the 32-bit index can wrap.
-/
import Fuse3P7zip.Tree

namespace Fuse3P7zip

namespace CiIterator

/-- `operator==`: two iterators at the end, or the same archive and index. -/
def eq (it rhs : CiIterator) : Bool :=
  if it.atEnd && rhs.atEnd then true else it.seq == rhs.seq && it.index == rhs.index

end CiIterator

namespace ImplArchive

def size (arc : ImplArchive) : ℕ := arc.items.length

/-- `begin` -/
def begin (arc : ImplArchive) : CiIterator := ⟨true, 0, arc.size == 0⟩

/-- `Impl(seq, index)` -/
def implAt (arc : ImplArchive) (index : UInt32) : CiIterator :=
  ⟨true, index, arc.size == 0 || decide (arc.size ≤ index.toNat)⟩

/-- `at`, whose index is a `size_t`. -/
def itemAt (arc : ImplArchive) (index : UInt64) : Except Escape CiIterator := do
  if arc.size ≤ index.toNat then
    let _ ← checkCom 1 "out of bounds"
  return arc.implAt index.toUInt32

/-- `operator++` of an iterator of this archive. -/
def next (arc : ImplArchive) (it : CiIterator) : Except Escape CiIterator :=
  if it.seq then
    let index := it.index + 1
    .ok { it with index := index, atEnd := if arc.size ≤ index.toNat then true else it.atEnd }
  else .error (.ub .nullArchive)

/-- The iterator that was advanced `i` times. -/
def position (arc : ImplArchive) (i : ℕ) : CiIterator := ⟨true, UInt32.ofNat i, decide (arc.size ≤ i)⟩

end ImplArchive

/-- The iterators of the loop: the `Impl`s by their addresses, the address the
iterator `it` has, which is no other's, and those its copies have. -/
structure Iterators where
  heap : List CiIterator
  it : ℕ
  copies : List ℕ
  it_lt : it < heap.length
  copies_lt : ∀ c ∈ copies, c < heap.length
  it_not_mem : it ∉ copies

namespace Iterators

/-- `it = arc->begin()` -/
def start (arc : ImplArchive) : Iterators where
  heap := [arc.begin]
  it := 0
  copies := []
  it_lt := Nat.one_pos
  copies_lt := fun _ h => nomatch h
  it_not_mem := List.not_mem_nil

/-- The `Impl` of `it`. -/
def current (s : Iterators) : CiIterator := s.heap.get ⟨s.it, s.it_lt⟩

/-- A copy of `it`, which gets an `Impl` of its own. -/
def copy (s : Iterators) : Iterators where
  heap := s.heap ++ [s.current]
  it := s.it
  copies := s.copies ++ [s.heap.length]
  it_lt := by
    rw [List.length_append]
    exact Nat.lt_add_right _ s.it_lt
  copies_lt := by
    intro c hc
    rw [List.length_append, List.length_singleton]
    rcases List.mem_append.mp hc with hc | hc
    · exact Nat.lt_succ_of_lt (s.copies_lt c hc)
    · rw [List.mem_singleton.mp hc]
      exact Nat.lt_succ_self _
  it_not_mem := by
    intro hm
    rcases List.mem_append.mp hm with hm | hm
    · exact s.it_not_mem hm
    · exact absurd s.it_lt (by rw [List.mem_singleton.mp hm]; exact Nat.lt_irrefl _)

/-- `++it` -/
def advance (arc : ImplArchive) (s : Iterators) : Except Escape Iterators := do
  let impl ← arc.next s.current
  return { s with
    heap := s.heap.set s.it impl
    it_lt := by rw [List.length_set]; exact s.it_lt
    copies_lt := fun c h => by rw [List.length_set]; exact s.copies_lt c h }

/-- Any number of `++it`. -/
def advances (arc : ImplArchive) : ℕ → Iterators → Except Escape Iterators
  | 0, s => .ok s
  | m + 1, s => do advances arc m (← s.advance arc)

variable {σ : Type}

/-- At most `k` rounds of the loop. Its body reads where the iterator is, and
copies it. -/
def loop (arc : ImplArchive) (body : σ → CiIterator → Except Escape σ) : ℕ → Iterators → σ →
    Except Escape (Iterators × σ)
  | 0, s, acc => .ok (s, acc)
  | k + 1, s, acc =>
    if s.current.eq .ending then .ok (s, acc)
    else do
      let acc ← body acc s.current
      let s ← s.copy.advance arc
      loop arc body k s acc

/-! ### Positions -/

end Iterators

namespace ImplArchive

theorem begin_eq (arc : ImplArchive) : arc.begin = arc.position 0 := by
  simp only [begin, position, Nat.le_zero]
  rfl

/-- The index of an item does not wrap when it is incremented: the size has 32 bits. -/
theorem toNat_ofNat_of_le {arc : ImplArchive} {i : ℕ} (hi : i ≤ arc.size) : (UInt32.ofNat i).toNat = i := by
  rw [UInt32.toNat_ofNat', Nat.mod_eq_of_lt (Nat.lt_of_le_of_lt hi arc.size_lt)]

theorem position_of_lt {arc : ImplArchive} {i : ℕ} (hi : i < arc.size) : arc.position i = .item i := by
  rw [position, CiIterator.item, decide_eq_false (Nat.not_le.mpr hi)]

theorem next_position {arc : ImplArchive} {i : ℕ} (hi : i < arc.size) :
    arc.next (arc.position i) = .ok (arc.position (i + 1)) := by
  have hindex : UInt32.ofNat i + 1 = UInt32.ofNat (i + 1) := (UInt32.ofNat_add i 1).symm
  have hnat : (UInt32.ofNat (i + 1)).toNat = i + 1 := toNat_ofNat_of_le hi
  have hflag : decide (arc.size ≤ i) = false := decide_eq_false (Nat.not_le.mpr hi)
  simp only [next, position, if_true, hindex, hnat, hflag]
  by_cases hs : arc.size ≤ i + 1
  · rw [if_pos hs, decide_eq_true hs]
  · rw [if_neg hs, decide_eq_false hs]

/-- Two positions are equal iterators exactly when they are the same. -/
theorem eq_position_iff {arc : ImplArchive} {i j : ℕ} (hi : i ≤ arc.size) (hj : j ≤ arc.size) :
    (arc.position i).eq (arc.position j) = true ↔ i = j := by
  have hindex : UInt32.ofNat i = UInt32.ofNat j ↔ i = j := by
    rw [← UInt32.toNat_inj, toNat_ofNat_of_le hi, toNat_ofNat_of_le hj]
  by_cases hend : arc.size ≤ i ∧ arc.size ≤ j
  · have hij : i = j := Nat.le_antisymm (hi.trans hend.2) (hj.trans hend.1)
    simp [CiIterator.eq, position, hij]
  · have hflags : (decide (arc.size ≤ i) && decide (arc.size ≤ j)) = false := by
      simpa using not_and.mp hend
    rw [CiIterator.eq]
    simp only [position, hflags]
    simpa using hindex

theorem eq_ending_iff {arc : ImplArchive} {i : ℕ} :
    (arc.position i).eq .ending = true ↔ arc.size ≤ i := by
  simp [CiIterator.eq, position, CiIterator.ending]

/-- `operator++` does not fail on an iterator of an archive, and gives one. -/
theorem next_ok (arc : ImplArchive) {it : CiIterator} (h : it.seq = true) :
    ∃ it', arc.next it = .ok it' ∧ it'.seq = true := by
  rw [next, if_pos h]
  exact ⟨_, rfl, h⟩

end ImplArchive

namespace Iterators

/-- The `Impl` of the `j`-th copy. -/
def impl? (s : Iterators) (j : ℕ) : Option CiIterator := s.copies[j]?.bind fun c => s.heap[c]?

theorem current_copy (s : Iterators) : s.copy.current = s.current := by
  simp only [current, copy, List.get_eq_getElem]
  exact List.getElem_append_left s.it_lt

/-- The copies there are keep their `Impl`s, and the new one has that of `it`. -/
theorem impl?_copy (s : Iterators) (j : ℕ) :
    s.copy.impl? j = if j = s.copies.length then some s.current else s.impl? j := by
  simp only [impl?, copy]
  rcases Nat.lt_trichotomy j s.copies.length with hlt | rfl | hgt
  · have hc : s.copies[j]? = some s.copies[j] := List.getElem?_eq_getElem hlt
    rw [if_neg (Nat.ne_of_lt hlt), List.getElem?_append_left hlt, hc, Option.bind_some, Option.bind_some]
    exact List.getElem?_append_left (s.copies_lt _ (List.getElem_mem hlt))
  · rw [if_pos rfl, List.getElem?_concat_length, Option.bind_some, List.getElem?_concat_length]
  · rw [if_neg (Nat.ne_of_gt hgt), List.getElem?_eq_none (by rw [List.length_append]; exact hgt),
      List.getElem?_eq_none (Nat.le_of_lt hgt)]
    rfl

/-- **`++it` writes into the `Impl` of `it` alone.** -/
theorem advance_eq {arc : ImplArchive} {s : Iterators} {p : CiIterator} (h : arc.next s.current = .ok p) :
    ∃ s', s.advance arc = .ok s' ∧ s'.current = p ∧ s'.copies = s.copies ∧ ∀ j, s'.impl? j = s.impl? j := by
  unfold advance
  rw [h]
  refine ⟨_, rfl, ?_, rfl, fun j => ?_⟩
  · simp [current]
  · cases hc : s.copies[j]? with
    | none => simp [impl?, hc]
    | some c =>
      have hne : s.it ≠ c := fun he => s.it_not_mem (he ▸ List.mem_of_getElem? hc)
      simp [impl?, hc, List.getElem?_set_ne hne]

theorem advances_ok (arc : ImplArchive) : ∀ (m : ℕ) {s : Iterators}, s.current.seq = true →
    ∃ s', advances arc m s = .ok s' ∧ ∀ j, s'.impl? j = s.impl? j
  | 0, s, _ => ⟨s, rfl, fun _ => rfl⟩
  | m + 1, s, h => by
    obtain ⟨p, hp, hseq⟩ := ImplArchive.next_ok arc h
    obtain ⟨s1, hs1, hcur, -, himpl⟩ := advance_eq hp
    obtain ⟨s2, hs2, himpl2⟩ := advances_ok arc m (hcur ▸ hseq)
    refine ⟨s2, ?_, fun j => (himpl2 j).trans (himpl j)⟩
    rw [advances, hs1]
    exact hs2

/-- `begin` advanced `i` times is at position `i`. -/
theorem advances_start {arc : ImplArchive} : ∀ {m i : ℕ} {s : Iterators}, s.current = arc.position i →
    i + m ≤ arc.size → ∃ s', advances arc m s = .ok s' ∧ s'.current = arc.position (i + m)
  | 0, i, s, h, _ => ⟨s, rfl, h⟩
  | m + 1, i, s, h, hle => by
    have hi : i < arc.size := by omega
    obtain ⟨s1, hs1, hcur, -, -⟩ := advance_eq (by rw [h]; exact ImplArchive.next_position hi)
    obtain ⟨s2, hs2, hcur2⟩ := advances_start (m := m) hcur (by omega)
    refine ⟨s2, ?_, by rw [hcur2, Nat.add_right_comm, Nat.add_assoc]⟩
    rw [advances, hs1]
    exact hs2

/-! ### The loop -/

/-- After `i` rounds: `it` is at position `i`, and copies are left at all
positions before it. -/
structure Round (arc : ImplArchive) (i : ℕ) (s : Iterators) : Prop where
  le : i ≤ arc.size
  current : s.current = arc.position i
  length : s.copies.length = i
  impl : ∀ j < i, s.impl? j = some (arc.position j)

theorem round_start (arc : ImplArchive) : Round arc 0 (start arc) :=
  ⟨Nat.zero_le _, arc.begin_eq, rfl, fun _ h => absurd h (Nat.not_lt_zero _)⟩

/-- A round before the end. -/
theorem Round.succ {arc : ImplArchive} {i : ℕ} {s : Iterators} (h : Round arc i s) (hi : i < arc.size) :
    ∃ s', s.copy.advance arc = .ok s' ∧ Round arc (i + 1) s' := by
  have hnext : arc.next s.copy.current = .ok (arc.position (i + 1)) := by
    rw [current_copy, h.current, ImplArchive.next_position hi]
  obtain ⟨s', hs', hcur, hcopies, himpl⟩ := advance_eq hnext
  refine ⟨s', hs', hi, hcur, ?_, fun j hj => ?_⟩
  · rw [hcopies, copy, List.length_append, h.length, List.length_singleton]
  · rw [himpl, impl?_copy, h.length]
    rcases Nat.lt_succ_iff_lt_or_eq.mp hj with hlt | rfl
    · rw [if_neg (Nat.ne_of_lt hlt), h.impl j hlt]
    · rw [if_pos rfl, h.current]

/-- The loop goes on from position `i` as a fold over the positions that are
left, for as many of them as there are rounds. -/
theorem Round.loop {arc : ImplArchive} (body : σ → CiIterator → Except Escape σ) : ∀ (k : ℕ) {i : ℕ}
    {s : Iterators} (acc : σ), Round arc i s →
    (Iterators.loop arc body k s acc).map Prod.snd =
        ((List.range' i (min k (arc.size - i))).map arc.position).foldlM body acc ∧
      ∀ s' acc', Iterators.loop arc body k s acc = .ok (s', acc') → Round arc (min (i + k) arc.size) s'
  | 0, i, s, _, h => by
    refine ⟨by rw [Nat.zero_min]; rfl, fun s' acc' he => ?_⟩
    cases he
    rwa [Nat.add_zero, Nat.min_eq_left h.le]
  | k + 1, i, s, acc, h => by
    rw [Iterators.loop]
    by_cases hend : arc.size ≤ i
    · have hi : i = arc.size := Nat.le_antisymm h.le hend
      rw [if_pos (by rw [h.current]; exact ImplArchive.eq_ending_iff.mpr hend), Nat.sub_eq_zero_of_le hend, Nat.min_zero]
      refine ⟨rfl, fun s' acc' he => ?_⟩
      cases he
      rwa [Nat.min_eq_right (Nat.le_trans hend (Nat.le_add_right _ _)), ← hi]
    · have hi : i < arc.size := Nat.not_le.mp hend
      rw [if_neg (by rw [h.current, ImplArchive.eq_ending_iff]; exact hend), h.current]
      have hmin : min (k + 1) (arc.size - i) = min k (arc.size - (i + 1)) + 1 := by omega
      rw [hmin, List.range'_succ, List.map_cons, List.foldlM_cons]
      cases body acc (arc.position i) with
      | error e => exact ⟨rfl, fun _ _ he => nomatch he⟩
      | ok acc1 =>
        obtain ⟨s1, hs1, hr⟩ := h.succ hi
        have ih := Round.loop body k acc1 hr
        have hround : (Except.ok acc1 >>= fun acc => s.copy.advance arc >>= fun s => Iterators.loop arc body k s acc) =
            Iterators.loop arc body k s1 acc1 := by
          rw [hs1]
          rfl
        rw [hround]
        rwa [Nat.add_assoc, Nat.add_comm 1 k] at ih

/-- As many rounds as there are items, or more, go through all of them. -/
theorem loop_start {arc : ImplArchive} (body : σ → CiIterator → Except Escape σ) (acc : σ) {k : ℕ}
    (hk : arc.size ≤ k) : (loop arc body k (start arc) acc).map Prod.snd =
      ((List.range arc.size).map CiIterator.item).foldlM body acc := by
  have hpos : (List.range arc.size).map CiIterator.item = (List.range arc.size).map arc.position :=
    List.map_congr_left fun i hi => (ImplArchive.position_of_lt (List.mem_range.mp hi)).symm
  rw [((round_start arc).loop body k acc).1, hpos, Nat.sub_zero, Nat.min_eq_right hk, List.range_eq_range']

/-- **The loop over the items.** It ends within as many rounds as there are
items, and its body is run at the indices 0, 1, ... below the size, once each
and in this order, unless it throws. The index counts the rounds, up to the
size. A copy stays at the position where it was made, in the loop and however
often `it` is advanced after it. -/
theorem iteration (arc : ImplArchive) (body : σ → CiIterator → Except Escape σ) (acc : σ) :
    (∀ k, arc.size ≤ k → (loop arc body k (start arc) acc).map Prod.snd =
      ((List.range arc.size).map CiIterator.item).foldlM body acc) ∧
    ∀ k s acc', loop arc body k (start arc) acc = .ok (s, acc') →
      (s.current.eq .ending = true ↔ arc.size ≤ k) ∧ s.current.index.toNat = min k arc.size ∧
      s.copies.length = min k arc.size ∧
      ∀ m, ∃ s', advances arc m s = .ok s' ∧ ∀ j < min k arc.size, s'.impl? j = some (.item j) ∧
        ∀ i ≤ arc.size, ∃ t, advances arc i (start arc) = .ok t ∧
          ((CiIterator.item j).eq t.current = true ↔ i = j) := by
  refine ⟨fun k hk => loop_start body acc hk, fun k s acc' h => ?_⟩
  have hr := ((round_start arc).loop body k acc).2 s acc' h
  rw [Nat.zero_add] at hr
  have hindex : s.current.index.toNat = min k arc.size := by
    rw [hr.current]
    exact ImplArchive.toNat_ofNat_of_le hr.le
  refine ⟨?_, hindex, hr.length, fun m => ?_⟩
  · rw [hr.current, ImplArchive.eq_ending_iff]
    omega
  · obtain ⟨s', hs', himpl⟩ := advances_ok arc m (s := s) (by rw [hr.current]; rfl)
    refine ⟨s', hs', fun j hj => ⟨?_, fun i hi => ?_⟩⟩
    · rw [himpl, hr.impl j hj, ImplArchive.position_of_lt (Nat.lt_of_lt_of_le hj hr.le)]
    · obtain ⟨t, ht, hcur⟩ := advances_start (m := i) (round_start arc).current (by omega)
      rw [Nat.zero_add] at hcur
      have hj' : j < arc.size := Nat.lt_of_lt_of_le hj hr.le
      refine ⟨t, ht, ?_⟩
      rw [hcur, ← ImplArchive.position_of_lt hj', ImplArchive.eq_position_iff (Nat.le_of_lt hj') hi]
      exact eq_comm

end Iterators

namespace Fuse

/-- The body of the loop of `execute`, where an iterator is. -/
def visit (loc : Locale) (arc : ImplArchive) (tree : FileTree) (it : CiIterator) : Except Escape FileTree :=
  match arc.items[it.index.toNat]? with
  | none => .error (.ub .badIndex)
  | some item => do
    let item ← decode loc arc item
    return addItem arc.stat arc.proposed it.index.toNat item tree

theorem executeFrom_eq_foldlM {loc : Locale} {arc : ImplArchive} : ∀ {items : List ItemProps} {i : ℕ} {tree : FileTree},
    arc.items.drop i = items → executeFrom loc arc i items tree =
      ((List.range' i items.length).map CiIterator.item).foldlM (visit loc arc) tree
  | [], _, _, _ => rfl
  | item :: items, i, tree, h => by
    have hitem : arc.items[i]? = some item := by
      rw [← List.head?_drop, h, List.head?_cons]
    have hdrop : arc.items.drop (i + 1) = items := by
      rw [← List.tail_drop, h, List.tail_cons]
    have hi : i ≤ arc.size := Nat.le_of_lt (List.getElem?_eq_some_iff.mp hitem).1
    have hindex : (CiIterator.item i).index.toNat = i := ImplArchive.toNat_ofNat_of_le hi
    have hvisit : visit loc arc tree (.item i) = (decode loc arc item).map fun it =>
        addItem arc.stat arc.proposed i it tree := by
      rw [visit, hindex, hitem]
      rfl
    rw [executeFrom, List.length_cons, List.range'_succ, List.map_cons, List.foldlM_cons, hvisit]
    cases decode loc arc item with
    | error e => rfl
    | ok it => exact executeFrom_eq_foldlM hdrop

/-- `execute` is the loop with iterators: any number of rounds that is enough
gives the same. -/
theorem execute_eq_loop (loc : Locale) (arc : ImplArchive) (allowOther : Bool) {k : ℕ} (hk : arc.size ≤ k) :
    execute loc arc allowOther = (Iterators.loop arc (visit loc arc) k (.start arc)
      (rootTree arc.stat allowOther)).map Prod.snd := by
  rw [Iterators.loop_start (visit loc arc) _ hk, execute, executeFrom_eq_foldlM (List.drop_zero), List.range_eq_range']
  rfl

end Fuse

end Fuse3P7zip
