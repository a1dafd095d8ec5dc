/-
# An ordered map, as `std::map` keeps it

The entries in ascending order of their keys. The comparison orders two
keys as `f` orders their images in a linear order, so keys with one image
are equivalent without being equal: `insertOrAssign` into an equivalent key
replaces the value and keeps the key that was there first, `emplace` keeps
both. What a look-up finds depends on the image of the key only (`at`).

Key theorems: `StdMap.at_insertOrAssign`, `StdMap.at_emplace`,
`StdMap.at_erase`, `StdMap.at_of_mem`, `StdMap.exists_mem_of_at`.
-/
import Mathlib.Order.Lattice
import Mathlib.Data.List.Pairwise

/-- The entries of a map whose comparison is `f`'s, in ascending order. -/
structure StdMap {κ α : Type} [LinearOrder α] (f : κ → α) (ν : Type) where
  entries : List (κ × ν)
  sorted : entries.Pairwise fun a b => f a.1 < f b.1

namespace StdMap

variable {κ α ν : Type} [LinearOrder α] {f : κ → α}

/-! ### On lists of entries -/

/-- The value at the first key whose image is `a`. -/
def lookup (f : κ → α) (a : α) : List (κ × ν) → Option ν
  | [] => none
  | e :: es => if f e.1 = a then some e.2 else lookup f a es

/-- `k` goes in with the value `v`, or the value under the equivalent key
that is there already goes through `upd`. -/
def insertWith (f : κ → α) (k : κ) (v : ν) (upd : ν → ν) : List (κ × ν) → List (κ × ν)
  | [] => [(k, v)]
  | e :: es =>
    if f k < f e.1 then (k, v) :: e :: es
    else if f k = f e.1 then (e.1, upd e.2) :: es
    else e :: insertWith f k v upd es

theorem mem_insertWith {k : κ} {v : ν} {upd : ν → ν} {e : κ × ν} : ∀ {es : List (κ × ν)},
    e ∈ insertWith f k v upd es → f e.1 = f k ∨ ∃ e' ∈ es, f e.1 = f e'.1
  | [], h => by
    rw [insertWith, List.mem_singleton] at h
    exact Or.inl (by rw [h])
  | e' :: es, h => by
    unfold insertWith at h
    split_ifs at h with h1 h2
    · rcases List.mem_cons.mp h with rfl | h
      · exact Or.inl rfl
      · exact Or.inr ⟨e, h, rfl⟩
    · rcases List.mem_cons.mp h with rfl | h
      · exact Or.inl h2.symm
      · exact Or.inr ⟨e, List.mem_cons_of_mem _ h, rfl⟩
    · rcases List.mem_cons.mp h with rfl | h
      · exact Or.inr ⟨e, List.mem_cons_self, rfl⟩
      · rcases mem_insertWith h with h | ⟨e'', h, he⟩
        · exact Or.inl h
        · exact Or.inr ⟨e'', List.mem_cons_of_mem _ h, he⟩

theorem insertWith_sorted (k : κ) (v : ν) (upd : ν → ν) : ∀ {es : List (κ × ν)},
    es.Pairwise (fun a b => f a.1 < f b.1) →
    (insertWith f k v upd es).Pairwise fun a b => f a.1 < f b.1
  | [], _ => List.pairwise_singleton _ _
  | e :: es, h => by
    obtain ⟨h1, h2⟩ := List.pairwise_cons.mp h
    unfold insertWith
    split_ifs with hlt heq
    · refine List.pairwise_cons.mpr ⟨fun e' he' => ?_, h⟩
      rcases List.mem_cons.mp he' with rfl | he'
      · exact hlt
      · exact hlt.trans (h1 e' he')
    · exact List.pairwise_cons.mpr ⟨h1, h2⟩
    · refine List.pairwise_cons.mpr ⟨fun e' he' => ?_, insertWith_sorted k v upd h2⟩
      rcases mem_insertWith he' with he | ⟨e'', he'', he⟩
      · rw [he]; exact lt_of_le_of_ne (not_lt.mp hlt) (Ne.symm heq)
      · rw [he]; exact h1 e'' he''

theorem lookup_eq_none_of_lt {a : α} : ∀ {es : List (κ × ν)}, (∀ e ∈ es, a < f e.1) →
    lookup f a es = none
  | [], _ => rfl
  | e :: es, h => by
    rw [lookup, if_neg (h e List.mem_cons_self).ne']
    exact lookup_eq_none_of_lt fun e' he' => h e' (List.mem_cons_of_mem _ he')

theorem lookup_insertWith (k : κ) (v : ν) (upd : ν → ν) (a : α) : ∀ {es : List (κ × ν)},
    es.Pairwise (fun a b => f a.1 < f b.1) →
    lookup f a (insertWith f k v upd es) =
      if a = f k then some ((lookup f a es).elim v upd) else lookup f a es
  | [], _ => by
    simp only [insertWith, lookup, eq_comm, Option.elim_none]
  | e :: es, h => by
    obtain ⟨h1, h2⟩ := List.pairwise_cons.mp h
    unfold insertWith
    by_cases hlt : f k < f e.1
    · rw [if_pos hlt, lookup]
      by_cases hak : a = f k
      · -- before every entry: none of them has the key's image
        have hall : ∀ e' ∈ e :: es, f k < f e'.1 := by
          intro e' he'
          rcases List.mem_cons.mp he' with rfl | he'
          · exact hlt
          · exact hlt.trans (h1 e' he')
        rw [if_pos hak.symm, if_pos hak, hak, lookup_eq_none_of_lt hall, Option.elim_none]
      · rw [if_neg (Ne.symm hak), if_neg hak]
    · rw [if_neg hlt]
      by_cases heq : f k = f e.1
      · rw [if_pos heq, lookup, lookup]
        by_cases hak : a = f k
        · rw [if_pos (heq.symm.trans hak.symm), if_pos hak, if_pos (heq.symm.trans hak.symm),
            Option.elim_some]
        · rw [if_neg fun h => hak (h.symm.trans heq.symm), if_neg hak,
            if_neg fun h => hak (h.symm.trans heq.symm)]
      · rw [if_neg heq, lookup, lookup, lookup_insertWith k v upd a h2]
        by_cases hak : a = f k
        · rw [if_pos hak, if_neg fun h => heq (hak.symm.trans h.symm), if_pos hak,
            if_neg fun h => heq (hak.symm.trans h.symm)]
        · rw [if_neg hak, if_neg hak]

/-! ### The map -/

def empty : StdMap f ν := ⟨[], List.Pairwise.nil⟩

/-- The value under a key with the image `a`. -/
def «at» (m : StdMap f ν) (a : α) : Option ν := lookup f a m.entries

def find? (m : StdMap f ν) (k : κ) : Option ν := m.at (f k)

def contains (m : StdMap f ν) (k : κ) : Bool := (m.find? k).isSome

/-- `emplace`: an equivalent key keeps its value. -/
def emplace (m : StdMap f ν) (k : κ) (v : ν) : StdMap f ν :=
  ⟨insertWith f k v id m.entries, insertWith_sorted k v id m.sorted⟩

/-- `insert_or_assign`: an equivalent key gets the new value. -/
def insertOrAssign (m : StdMap f ν) (k : κ) (v : ν) : StdMap f ν :=
  ⟨insertWith f k v (fun _ => v) m.entries, insertWith_sorted k v _ m.sorted⟩

def erase (m : StdMap f ν) (k : κ) : StdMap f ν :=
  ⟨m.entries.filter fun e => f e.1 ≠ f k, m.sorted.filter _⟩

@[simp] theorem at_empty (a : α) : (empty : StdMap f ν).at a = none := rfl

theorem at_emplace (m : StdMap f ν) (k : κ) (v : ν) (a : α) :
    (m.emplace k v).at a = if a = f k then some ((m.at a).getD v) else m.at a := by
  have h := lookup_insertWith (f := f) k v id a m.sorted
  rw [show (m.emplace k v).at a = _ from h]
  cases hm : lookup f a m.entries <;> simp [«at», hm]

theorem at_insertOrAssign (m : StdMap f ν) (k : κ) (v : ν) (a : α) :
    (m.insertOrAssign k v).at a = if a = f k then some v else m.at a := by
  have h := lookup_insertWith (f := f) k v (fun _ => v) a m.sorted
  rw [show (m.insertOrAssign k v).at a = _ from h]
  cases hm : lookup f a m.entries <;> simp [«at», hm]

theorem lookup_filter_ne (a b : α) : ∀ es : List (κ × ν),
    lookup f a (es.filter fun e => f e.1 ≠ b) = if a = b then none else lookup f a es
  | [] => by simp [lookup]
  | e :: es => by
    have ih := lookup_filter_ne a b es
    by_cases hb : f e.1 = b
    · rw [List.filter_cons_of_neg (by simpa using hb), ih]
      split_ifs with hab
      · rfl
      · rw [lookup, if_neg fun h => hab (h.symm.trans hb)]
    · rw [List.filter_cons_of_pos (by simpa using hb), lookup, ih, lookup]
      split_ifs with ha hab <;> simp_all

theorem at_erase (m : StdMap f ν) (k : κ) (a : α) :
    (m.erase k).at a = if a = f k then none else m.at a :=
  lookup_filter_ne a (f k) m.entries

/-! ### Entries and look-ups -/

theorem lookup_of_mem {e : κ × ν} : ∀ {es : List (κ × ν)},
    es.Pairwise (fun a b => f a.1 < f b.1) → e ∈ es → lookup f (f e.1) es = some e.2
  | e' :: es, h, he => by
    obtain ⟨h1, h2⟩ := List.pairwise_cons.mp h
    rcases List.mem_cons.mp he with rfl | he
    · rw [lookup, if_pos rfl]
    · rw [lookup, if_neg (h1 e he).ne]
      exact lookup_of_mem h2 he

theorem exists_mem_of_lookup {a : α} {v : ν} : ∀ {es : List (κ × ν)}, lookup f a es = some v →
    ∃ k, f k = a ∧ (k, v) ∈ es
  | e :: es, h => by
    rw [lookup] at h
    split_ifs at h with ha
    · obtain ⟨rfl⟩ := h
      exact ⟨e.1, ha, List.mem_cons_self⟩
    · obtain ⟨k, hk, hm⟩ := exists_mem_of_lookup h
      exact ⟨k, hk, List.mem_cons_of_mem _ hm⟩

theorem at_of_mem (m : StdMap f ν) {e : κ × ν} (h : e ∈ m.entries) : m.at (f e.1) = some e.2 :=
  lookup_of_mem m.sorted h

theorem exists_mem_of_at {m : StdMap f ν} {a : α} {v : ν} (h : m.at a = some v) :
    ∃ k, f k = a ∧ (k, v) ∈ m.entries :=
  exists_mem_of_lookup h

/-- The images of the keys are pairwise distinct. -/
theorem images_nodup (m : StdMap f ν) : (m.entries.map fun e => f e.1).Nodup :=
  List.pairwise_map.mpr (m.sorted.imp fun h => h.ne)

theorem contains_iff (m : StdMap f ν) (k : κ) : m.contains k = true ↔ m.at (f k) ≠ none := by
  rw [contains, find?, Option.isSome_iff_ne_none]

end StdMap
