/-
# A reference counter of 32 bits

An object with `n` references at the start, some added and some dropped,
lives as long as its counter does not come to 0. The counter is exact as
long as the true count, `n + adds - drops`, is a positive number of 32 bits
(`Balanced`); once it is not, the object is gone or its counter is 0.

`live_iff_balanced` is this for every sequence of operations.
-/
import Mathlib.Data.List.Infix
import Mathlib.Algebra.Group.Nat.Defs

namespace RefCount

inductive Op where
  | add
  | drop
  deriving DecidableEq

/-- An operation on the counter, or on an object that is gone. -/
def step : Option UInt32 → Op → Option UInt32
  | none, _ => none
  | some n, .add => some (n + 1)
  | some n, .drop => if n - 1 = 0 then none else some (n - 1)

def run (s : Option UInt32) (ops : List Op) : Option UInt32 := ops.foldl step s

def adds (ops : List Op) : ℕ := ops.count .add
def drops (ops : List Op) : ℕ := ops.count .drop

/-- The object is there and has a reference. -/
def Live (s : Option UInt32) : Prop := ∃ n, s = some n ∧ n ≠ 0

/-- The true count is positive and fits. -/
def Balanced (n : ℕ) (ops : List Op) : Prop :=
  drops ops < n + adds ops ∧ n + adds ops < drops ops + 2 ^ 32

/-- The counter is the true count. -/
def Counted (n : ℕ) (ops : List Op) (s : Option UInt32) : Prop :=
  ∃ k : UInt32, s = some k ∧ k.toNat + drops ops = n + adds ops

theorem run_concat (s : Option UInt32) (ops : List Op) (o : Op) :
    run s (ops ++ [o]) = step (run s ops) o := by
  rw [run, List.foldl_append]
  rfl

/-- References that are given back only while there are some are no more than
those that were taken. -/
theorem drops_le_adds_concat {ops : List Op} {o : Op} (h : drops ops ≤ adds ops) (ho : o = .drop → drops ops < adds ops) :
    drops (ops ++ [o]) ≤ adds (ops ++ [o]) := by
  cases o with
  | add =>
    have ha : adds (ops ++ [.add]) = adds ops + 1 := by simp [adds]
    have hd : drops (ops ++ [.add]) = drops ops := by simp [drops]
    omega
  | drop =>
    have ha : adds (ops ++ [.drop]) = adds ops := by simp [adds]
    have hd : drops (ops ++ [.drop]) = drops ops + 1 := by simp [drops]
    have hlt := ho rfl
    omega

theorem toNat_ne_zero {k : UInt32} : k ≠ 0 ↔ k.toNat ≠ 0 := by
  rw [ne_eq, ne_eq, ← UInt32.toNat_inj]
  rfl

theorem Counted.live_iff {n : ℕ} {ops : List Op} {s : Option UInt32} (h : Counted n ops s) :
    Live s ↔ Balanced n ops := by
  obtain ⟨k, rfl, hk⟩ := h
  have hlt := k.toNat_lt
  constructor
  · rintro ⟨k', hk', h0⟩
    cases hk'
    rw [toNat_ne_zero] at h0
    constructor <;> omega
  · rintro ⟨h1, -⟩
    exact ⟨k, rfl, toNat_ne_zero.mpr (by omega)⟩

/-- From an exact counter, an operation keeps the object exactly when the true
count stays in range, and then the counter stays exact. -/
theorem Counted.step {n : ℕ} {ops : List Op} {s : Option UInt32} (h : Counted n ops s) (hs : Live s)
    (o : Op) : (Live (step s o) ↔ Balanced n (ops ++ [o])) ∧
      (Live (step s o) → Counted n (ops ++ [o]) (step s o)) := by
  obtain ⟨k, rfl, hk⟩ := h
  obtain ⟨k', hk', h0⟩ := hs
  cases hk'
  have hlt := k.toNat_lt
  rw [toNat_ne_zero] at h0
  cases o with
  | add =>
    have ha : adds (ops ++ [.add]) = adds ops + 1 := by simp [adds]
    have hd : drops (ops ++ [.add]) = drops ops := by simp [drops]
    have hn : (k + 1).toNat = (k.toNat + 1) % 2 ^ 32 := UInt32.toNat_add k 1
    unfold Balanced Counted
    rw [ha, hd]
    by_cases hmax : k.toNat + 1 < 2 ^ 32
    · rw [Nat.mod_eq_of_lt hmax] at hn
      exact ⟨iff_of_true ⟨_, rfl, toNat_ne_zero.mpr (by omega)⟩ (by omega),
        fun _ => ⟨_, rfl, by omega⟩⟩
    · have hz : (k + 1).toNat = 0 := by omega
      have hdead : ¬ Live (RefCount.step (some k) .add) := by
        rintro ⟨j, hj, hj0⟩
        cases hj
        exact toNat_ne_zero.mp hj0 hz
      exact ⟨iff_of_false hdead (by omega), fun h => absurd h hdead⟩
  | drop =>
    have ha : adds (ops ++ [.drop]) = adds ops := by simp [adds]
    have hd : drops (ops ++ [.drop]) = drops ops + 1 := by simp [drops]
    have hn : (k - 1).toNat = k.toNat - 1 := by
      rw [UInt32.toNat_sub_of_le]
      · rfl
      · rw [UInt32.le_iff_toNat_le, UInt32.toNat_one]; omega
    unfold Balanced Counted
    rw [ha, hd]
    by_cases hone : k - 1 = 0
    · have hdead : ¬ Live (RefCount.step (some k) .drop) := by
        rw [RefCount.step, if_pos hone]
        rintro ⟨j, hj, -⟩
        cases hj
      rw [hone, UInt32.toNat_zero] at hn
      exact ⟨iff_of_false hdead (by omega), fun h => absurd h hdead⟩
    · have hlive : RefCount.step (some k) .drop = some (k - 1) := if_neg hone
      have h1 := toNat_ne_zero.mp hone
      rw [hlive]
      exact ⟨iff_of_true ⟨_, rfl, hone⟩ (by omega), fun _ => ⟨_, rfl, by omega⟩⟩

theorem counted_of {n : ℕ} (h0 : 0 < n) (hn : n < 2 ^ 32) {P : List Op → Prop}
    (hP : ∀ ops, P ops → Live (run (some (UInt32.ofNat n)) ops) ∨ Balanced n ops) :
    ∀ ops, (∀ p, p <+: ops → P p) → Counted n ops (run (some (UInt32.ofNat n)) ops) ∧
      Live (run (some (UInt32.ofNat n)) ops) := by
  have hof : (UInt32.ofNat n).toNat = n := by
    rw [UInt32.toNat_ofNat']
    exact Nat.mod_eq_of_lt hn
  intro ops
  induction ops using List.reverseRecOn with
  | nil => intro _; exact ⟨⟨_, rfl, by rw [hof]; rfl⟩, ⟨_, rfl, toNat_ne_zero.mpr (by omega)⟩⟩
  | append_singleton ops o ih =>
    intro hall
    obtain ⟨hc, hl⟩ := ih fun p hp => hall p (hp.trans (List.prefix_append _ _))
    obtain ⟨h1, h2⟩ := hc.step hl o
    rw [run_concat]
    have hlive : Live (step (run (some (UInt32.ofNat n)) ops) o) := by
      rcases hP _ (hall _ (List.prefix_refl _)) with h | h
      · rwa [run_concat] at h
      · exact h1.mpr h
    exact ⟨h2 hlive, hlive⟩

/-- **The object lives through a sequence of operations exactly when the true
count stays positive and below 2^32.** -/
theorem live_iff_balanced {n : ℕ} (h0 : 0 < n) (hn : n < 2 ^ 32) (ops : List Op) :
    (∀ p, p <+: ops → Live (run (some (UInt32.ofNat n)) p)) ↔ ∀ p, p <+: ops → Balanced n p := by
  constructor
  · intro h p hp
    obtain ⟨hc, hl⟩ := counted_of h0 hn (fun _ h => Or.inl h) p fun q hq => h q (hq.trans hp)
    exact hc.live_iff.mp hl
  · intro h p hp
    exact (counted_of h0 hn (fun _ h => Or.inr h) p fun q hq => h q (hq.trans hp)).2

end RefCount
