/-
# Texts in UTF-8

A text of code points (`Char`) and its bytes, each a `Char` below 256. A code
that goes up at a byte both have when the code point goes up keeps the order
of texts (`flatMap_lt`), and UTF-8 is one (`below_encodeChar`); so it keeps
texts apart. A byte below 128 stands for itself and for nothing else, and so
cutting at one is the same before and after (`splitOn_encode`).
-/
import Mathlib.Data.List.Lex
import Mathlib.Data.Char
import Mathlib.Order.Monotone.Basic
import Mathlib.Data.Nat.Notation
import Mathlib.Order.Lattice

namespace Utf8

/-! ### Codes that keep the order -/

section below

variable {α β : Type} [LinearOrder α] [LinearOrder β]

/-- The first difference is at an element both have, and is smaller in the first. -/
def Below : List α → List α → Prop
  | x :: u, y :: v => x < y ∨ (x = y ∧ Below u v)
  | _, _ => False

/-- Whatever goes behind. -/
theorem Below.lt_append {u v : List α} (h : Below u v) (s t : List α) : u ++ s < v ++ t := by
  induction u generalizing v with
  | nil => exact h.elim
  | cons x u ih =>
    cases v with
    | nil => exact h.elim
    | cons y v =>
      rw [List.cons_append, List.cons_append, List.cons_lt_cons_iff]
      rcases h with h | ⟨rfl, h⟩
      · exact .inl h
      · exact .inr ⟨rfl, ih h⟩

theorem Below.map {f : α → β} {u v : List α} (hf : ∀ x y, x < y → y ∈ v → f x < f y) (h : Below u v) :
    Below (u.map f) (v.map f) := by
  induction u generalizing v with
  | nil => exact h.elim
  | cons x u ih =>
    cases v with
    | nil => exact h.elim
    | cons y v =>
      rcases h with h | ⟨rfl, h⟩
      · exact .inl (hf x y h List.mem_cons_self)
      · exact .inr ⟨rfl, ih (fun a b hab hb => hf a b hab (List.mem_cons_of_mem _ hb)) h⟩

/-- A code whose words are not empty, and below each other when what they stand
for is, keeps the order of texts. -/
theorem flatMap_lt {f : α → List β} (h0 : ∀ c, f c ≠ []) (h : ∀ c d, c < d → Below (f c) (f d)) :
    ∀ {s t : List α}, s < t → s.flatMap f < t.flatMap f
  | [], [], hlt => absurd hlt (lt_irrefl _)
  | [], d :: t, _ => by
    rw [List.flatMap_nil, List.flatMap_cons]
    obtain ⟨b, l, hl⟩ := List.exists_cons_of_ne_nil (h0 d)
    rw [hl, List.cons_append]
    exact List.nil_lt_cons _ _
  | c :: s, [], hlt => absurd hlt (List.not_lt_nil _)
  | c :: s, d :: t, hlt => by
    rw [List.flatMap_cons, List.flatMap_cons]
    rcases List.cons_lt_cons_iff.mp hlt with hcd | ⟨rfl, hst⟩
    · exact (h c d hcd).lt_append _ _
    · exact List.append_left_lt (flatMap_lt h0 h hst)

end below

/-! ### The code of a character -/

/-- A byte of a `std::string`. -/
def byte (b : UInt8) : Char := Char.ofNat b.toNat

def encodeChar (c : Char) : List Char := (String.utf8EncodeChar c).map byte

/-- The bytes of a code point, as numbers. -/
def units (v : ℕ) : List ℕ :=
  if v < 0x80 then [v]
  else if v < 0x800 then [0xC0 + v / 64, 0x80 + v % 64]
  else if v < 0x10000 then [0xE0 + v / 4096, 0x80 + v / 64 % 64, 0x80 + v % 64]
  else [0xF0 + v / 262144, 0x80 + v / 4096 % 64, 0x80 + v / 64 % 64, 0x80 + v % 64]

theorem toNat_lt (c : Char) : c.toNat < 0x110000 := by
  have h : c.toNat.isValidChar := c.valid
  unfold Nat.isValidChar at h
  omega

theorem byte_ofNat {n m : ℕ} (h : n = m) (hm : m < 256) : byte (UInt8.ofNat n) = Char.ofNat m := by
  rw [byte, h, UInt8.toNat_ofNat_of_lt' (by simpa using hm)]

/-- The encoding by these numbers. -/
theorem encodeChar_eq_units (c : Char) : encodeChar c = (units c.toNat).map Char.ofNat := by
  have hlt := toNat_lt c
  have hval : c.val.toNat = c.toNat := rfl
  unfold encodeChar String.utf8EncodeChar units
  simp only [hval]
  split_ifs
  any_goals omega
  all_goals simp only [List.map_cons, List.map_nil, List.cons.injEq, and_true]
  · exact byte_ofNat rfl (by omega)
  · exact ⟨byte_ofNat (by omega) (by omega), byte_ofNat (by omega) (by omega)⟩
  · exact ⟨byte_ofNat (by omega) (by omega), byte_ofNat (by omega) (by omega), byte_ofNat (by omega) (by omega)⟩
  · exact ⟨byte_ofNat (by omega) (by omega), byte_ofNat (by omega) (by omega), byte_ofNat (by omega) (by omega),
      byte_ofNat (by omega) (by omega)⟩

theorem units_lt {v : ℕ} (hv : v < 0x110000) : ∀ b ∈ units v, b < 256 := by
  unfold units
  split_ifs
  all_goals
    simp only [List.mem_cons, List.not_mem_nil, or_false, forall_eq_or_imp, forall_eq]
    omega

/-- By the lengths of the two, and then by the first digit that is not the same. -/
theorem below_units {v w : ℕ} (h : v < w) (hw : w < 0x110000) : Below (units v) (units w) := by
  unfold units
  split_ifs
  all_goals
    simp only [Below, or_false, and_false]
    omega

theorem toNat_ofNat {n : ℕ} (hn : n < 0xD800) : (Char.ofNat n).toNat = n := by
  rw [Char.ofNat, dif_pos (show n.isValidChar from .inl hn)]
  rfl

theorem ofNat_lt {x y : ℕ} (h : x < y) (hy : y < 256) : Char.ofNat x < Char.ofNat y := by
  rw [Char.lt_def, UInt32.lt_iff_toNat_lt]
  show (Char.ofNat x).toNat < (Char.ofNat y).toNat
  rw [toNat_ofNat (by omega), toNat_ofNat (by omega)]
  exact h

theorem below_encodeChar {c d : Char} (h : c < d) : Below (encodeChar c) (encodeChar d) := by
  have hnat : c.toNat < d.toNat := h
  rw [encodeChar_eq_units, encodeChar_eq_units]
  refine (below_units hnat (toNat_lt d)).map fun x y hxy hy => ?_
  exact ofNat_lt hxy (units_lt (toNat_lt d) y hy)

theorem encodeChar_ne_nil (c : Char) : encodeChar c ≠ [] := by
  rw [encodeChar, Ne, List.map_eq_nil_iff]
  exact String.utf8EncodeChar_ne_nil

/-! ### The code of a text -/

def encode (s : List Char) : List Char := s.flatMap encodeChar

@[simp] theorem encode_nil : encode [] = [] := rfl

@[simp] theorem encode_append (s t : List Char) : encode (s ++ t) = encode s ++ encode t := List.flatMap_append

theorem encode_cons (c : Char) (s : List Char) : encode (c :: s) = encodeChar c ++ encode s := List.flatMap_cons

/-- The order of texts is that of their bytes. -/
theorem encode_strictMono : StrictMono encode := fun _ _ h => flatMap_lt encodeChar_ne_nil (fun _ _ => below_encodeChar) h

theorem encode_injective : Function.Injective encode := encode_strictMono.injective

@[simp] theorem encode_eq_nil_iff {s : List Char} : encode s = [] ↔ s = [] := by
  rw [← encode_nil, encode_injective.eq_iff]
  rfl

theorem length_encode_le (s : List Char) : (encode s).length ≤ s.length * 4 := by
  induction s with
  | nil => exact Nat.le_refl 0
  | cons c s ih =>
    have hc : (encodeChar c).length ≤ 4 := by
      rw [encodeChar, List.length_map, String.length_utf8EncodeChar]
      exact Char.utf8Size_le_four c
    rw [encode_cons, List.length_append, List.length_cons]
    omega

theorem length_le_encode (s : List Char) : s.length ≤ (encode s).length := by
  induction s with
  | nil => exact Nat.le_refl 0
  | cons c s ih =>
    have hc : 0 < (encodeChar c).length := List.length_pos_iff.mpr (encodeChar_ne_nil c)
    rw [encode_cons, List.length_append, List.length_cons]
    omega

/-- The text that these bytes are the code of. -/
def decode (b : List Char) : Option (List Char) :=
  (b.map fun c => UInt8.ofNat c.toNat).toByteArray.utf8Decode?.map Array.toList

theorem bytes_encode (s : List Char) : (encode s).map (fun c => UInt8.ofNat c.toNat) = s.flatMap String.utf8EncodeChar := by
  have hbyte : ∀ b : UInt8, UInt8.ofNat (byte b).toNat = b := fun b => by
    have hlt := b.toNat_lt
    rw [byte, toNat_ofNat (by omega), UInt8.ofNat_toNat]
  rw [encode, List.map_flatMap]
  refine congrArg (fun f => s.flatMap f) (funext fun c => ?_)
  rw [encodeChar, List.map_map]
  exact (List.map_congr_left fun b _ => hbyte b).trans (List.map_id _)

theorem decode_encode (s : List Char) : decode (encode s) = some s := by
  rw [decode, bytes_encode]
  show s.utf8Encode.utf8Decode?.map Array.toList = some s
  rw [List.utf8Decode?_utf8Encode]
  rfl

/-! ### Bytes that stand for themselves -/

theorem encodeChar_of_ascii {a : Char} (ha : a.val < 128) : encodeChar a = [a] := by
  have hlt : a.toNat < 128 := ha
  rw [encodeChar_eq_units, units, if_pos hlt, List.map_singleton, Char.ofNat_toNat]

/-- The bytes of any other are from 128 on. -/
theorem not_ascii_of_mem {c b : Char} (hc : ¬ c.val < 128) (hb : b ∈ encodeChar c) : ¬ b.val < 128 := by
  have hge : ¬ c.toNat < 128 := hc
  rw [encodeChar_eq_units] at hb
  obtain ⟨n, hn, rfl⟩ := List.mem_map.mp hb
  have hlt := units_lt (toNat_lt c) n hn
  have hn128 : 128 ≤ n := by
    unfold units at hn
    rw [if_neg hge] at hn
    split_ifs at hn
    all_goals
      simp only [List.mem_cons, List.not_mem_nil, or_false] at hn
      omega
  show ¬ (Char.ofNat n).toNat < 128
  rw [toNat_ofNat (by omega)]
  omega

theorem mem_encode_iff {a : Char} (ha : a.val < 128) {s : List Char} : a ∈ encode s ↔ a ∈ s := by
  rw [encode, List.mem_flatMap]
  constructor
  · rintro ⟨c, hc, hac⟩
    by_cases h : c.val < 128
    · rw [encodeChar_of_ascii h, List.mem_singleton] at hac
      rwa [hac]
    · exact absurd ha (not_ascii_of_mem h hac)
  · intro h
    exact ⟨a, h, by rw [encodeChar_of_ascii ha]; exact List.mem_singleton_self a⟩

theorem encode_cons_of_ascii {a : Char} (ha : a.val < 128) (s : List Char) : encode (a :: s) = a :: encode s := by
  rw [encode_cons, encodeChar_of_ascii ha]
  rfl

/-- A text starts with it when its bytes do. -/
theorem head?_encode_iff {a : Char} (ha : a.val < 128) (s : List Char) : (encode s).head? = some a ↔ s.head? = some a := by
  cases s with
  | nil => rfl
  | cons c s =>
    by_cases h : c.val < 128
    · rw [encode_cons_of_ascii h]
      rfl
    · refine iff_of_false (fun hb => ?_) fun hc => ?_
      · rw [encode_cons, List.head?_append_of_ne_nil _ (encodeChar_ne_nil c)] at hb
        exact not_ascii_of_mem h (List.mem_of_mem_head? hb) ha
      · rw [List.head?_cons, Option.some.injEq] at hc
        exact h (hc ▸ ha)

theorem getLast?_encode_iff {a : Char} (ha : a.val < 128) (s : List Char) :
    (encode s).getLast? = some a ↔ s.getLast? = some a := by
  rcases List.eq_nil_or_concat s with rfl | ⟨t, c, rfl⟩
  · rfl
  · rw [List.concat_eq_append, encode_append, List.getLast?_concat, Option.some.injEq]
    have hc : encode [c] = encodeChar c := List.append_nil _
    rw [hc, List.getLast?_append_of_ne_nil _ (encodeChar_ne_nil c)]
    by_cases h : c.val < 128
    · rw [encodeChar_of_ascii h]
      exact Option.some.injEq c a ▸ Iff.rfl
    · refine iff_of_false (fun hb => ?_) fun hca => ?_
      · exact not_ascii_of_mem h (List.mem_of_getLast? hb) ha
      · exact h (hca ▸ ha)

/-- Cutting at a byte that stands for itself, by the first one in the text. -/
theorem splitOn_encode {a : Char} (ha : a.val < 128) (s : List Char) :
    (encode s).splitOn a = (s.splitOn a).map encode := by
  induction hs : s.length using Nat.strong_induction_on generalizing s with
  | _ l ih =>
    by_cases h : a ∈ s
    · obtain ⟨before, behind, rfl, -⟩ := List.eq_append_cons_of_mem h
      rw [List.length_append, List.length_cons] at hs
      rw [encode_append, encode_cons_of_ascii ha, List.splitOn_append_cons_self, List.splitOn_append_cons_self,
        List.map_append, ih before.length (by omega) before rfl, ih behind.length (by omega) behind rfl]
    · rw [List.splitOn_eq_singleton h, List.splitOn_eq_singleton fun hm => h ((mem_encode_iff ha).mp hm)]
      rfl

/-! ### Code points -/

/-- A code point as a character; there is none for a surrogate, and from
0x110000 on. -/
def scalar? (w : UInt32) : Option Char := if h : w.isValidChar then some ⟨w, h⟩ else none

def scalars (w : List UInt32) : Option (List Char) := w.mapM scalar?

theorem scalar?_eq_some_iff {w : UInt32} {c : Char} : scalar? w = some c ↔ w = c.val := by
  unfold scalar?
  split_ifs with h
  · rw [Option.some.injEq]
    exact ⟨fun hc => congrArg Char.val hc, fun hw => Char.ext hw⟩
  · exact iff_of_false (fun hc => nomatch hc) fun hw => h (hw ▸ c.valid)

theorem scalars_eq_some_iff {w : List UInt32} {s : List Char} : scalars w = some s ↔ w = s.map Char.val := by
  unfold scalars
  induction w generalizing s with
  | nil =>
    rw [List.mapM_nil]
    exact ⟨fun h => by cases h; rfl, fun h => by rw [List.map_eq_nil_iff.mp h.symm]; rfl⟩
  | cons v w ih =>
    rw [List.mapM_cons]
    constructor
    · intro h
      obtain ⟨c, hc, hrest⟩ := Option.bind_eq_some_iff.mp h
      obtain ⟨t, ht, hret⟩ := Option.bind_eq_some_iff.mp hrest
      cases hret
      rw [List.map_cons, ← scalar?_eq_some_iff.mp hc, ← ih.mp ht]
    · intro h
      obtain ⟨c, t, rfl, hc, ht⟩ := List.map_eq_cons_iff.mp h.symm
      refine Option.bind_eq_some_iff.mpr ⟨c, scalar?_eq_some_iff.mpr hc.symm, ?_⟩
      exact Option.bind_eq_some_iff.mpr ⟨t, ih.mpr ht.symm, rfl⟩

end Utf8
