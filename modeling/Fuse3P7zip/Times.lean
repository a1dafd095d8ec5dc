/-
# The times of the items

A file time counts 100 ns ticks from 1601 on, a `timespec` seconds and
nanoseconds from 1970 on. `_to_time` gives the seconds, and for the
nanoseconds all the ticks: `exact_iff` has the few times for which the two
come to the same, for the accessors and for the stat that the mount shows.
-/
import Mathlib.Algebra.Group.Int.Defs
import Mathlib.Algebra.Group.Nat.Defs
import Fuse3P7zip.Sizes

namespace Fuse3P7zip
namespace Fuse

/-- The ticks of a file time. -/
def ticks (dwLowDateTime dwHighDateTime : UInt32) : ℕ :=
  dwHighDateTime.toNat * 2 ^ 32 + dwLowDateTime.toNat

/-- The ticks from 1601 to 1970. -/
def epoch : ℕ := 116444736000000000

/-- `t` is the time `v`, and its nanoseconds are below a second. -/
def Exact (v : ℕ) (t : Timespec) : Prop :=
  0 ≤ t.tvNsec.toInt ∧ t.tvNsec.toInt < 10 ^ 9 ∧
    t.tvSec.toInt * 10 ^ 7 + t.tvNsec.toInt / 100 = (v : ℤ) - epoch

/-- The ticks since 1970 are fewer than 10^9, and those of the last second are
their hundredth. -/
def HundredfoldSecond (v : ℕ) : Prop :=
  epoch ≤ v ∧ v - epoch < 10 ^ 9 ∧ (v - epoch) % 10 ^ 7 = (v - epoch) / 100

instance (v : ℕ) (t : Timespec) : Decidable (Exact v t) := inferInstanceAs (Decidable (_ ∧ _ ∧ _))

instance (v : ℕ) : Decidable (HundredfoldSecond v) := inferInstanceAs (Decidable (_ ∧ _ ∧ _))

/-- Exact times are in the order of their ticks. -/
theorem Exact.lt {v w : ℕ} {t u : Timespec} (ht : Exact v t) (hu : Exact w u) (h : v < w) :
    t.tvSec.toInt < u.tvSec.toInt ∨
      t.tvSec.toInt = u.tvSec.toInt ∧ t.tvNsec.toInt < u.tvNsec.toInt := by
  obtain ⟨ht0, ht1, ht⟩ := ht
  obtain ⟨hu0, hu1, hu⟩ := hu
  omega

/-! ### The three times -/

/-- The times an item has. -/
inductive TimeField where
  | atime
  | mtime
  | ctime
  deriving DecidableEq

namespace TimeField

/-- The property it is stored in. -/
def prop : TimeField → ItemProps → PropResult
  | .atime => ItemProps.kpidATime
  | .mtime => ItemProps.kpidMTime
  | .ctime => ItemProps.kpidCTime

/-- Its accessor. -/
def read : TimeField → ItemProps → Timespec
  | .atime => ItemProps.atime
  | .mtime => ItemProps.mtime
  | .ctime => ItemProps.ctime

/-- Its place in a stat. -/
def inStat : TimeField → Stat → Timespec
  | .atime => Stat.stAtim
  | .mtime => Stat.stMtim
  | .ctime => Stat.stCtim

theorem read_eq (field : TimeField) (item : ItemProps) :
    field.read item = ItemProps.time (field.prop item) := by
  cases field <;> rfl

end TimeField

/-- The time that is shown is the accessor's. -/
theorem ShownAt.time_eq {loc : Locale} {arc : ImplArchive} {allowOther : Bool} {m : Mount}
    {path : Str} {el : CiIterator × Stat} {item : ItemProps}
    (h : ShownAt loc arc allowOther m path el item) (field : TimeField) :
    field.inStat el.2 = field.read item := by
  obtain ⟨it, hdec, hst⟩ := h.stat_eq
  obtain ⟨-, -, hatime, hmtime, hctime⟩ := decode_ok hdec
  rw [hst]
  cases field with
  | atime => exact hatime
  | mtime => exact hmtime
  | ctime => exact hctime

/-! ### The conversion -/

theorem toNat_date (lo hi : UInt32) :
    (hi.toUInt64 <<< 32 ||| lo.toUInt64).toNat = ticks lo hi := by
  have hlo := lo.toNat_lt
  have hhi := hi.toNat_lt
  have hshift : (hi.toUInt64 <<< 32).toNat = hi.toNat <<< 32 := by
    rw [UInt64.toNat_shiftLeft, UInt32.toNat_toUInt64]
    show hi.toNat <<< 32 % 2 ^ 64 = _
    rw [Nat.shiftLeft_eq]
    omega
  calc (hi.toUInt64 <<< 32 ||| lo.toUInt64).toNat = hi.toNat <<< 32 ||| lo.toNat := by
        rw [UInt64.toNat_or, hshift, UInt32.toNat_toUInt64]
    _ = hi.toNat <<< 32 + lo.toNat := (Nat.shiftLeft_add_eq_or_of_lt hlo _).symm
    _ = ticks lo hi := by rw [Nat.shiftLeft_eq, ticks]

/-- The ticks since 1970, in 64 bits; a time before 1970 wraps around. -/
theorem toTime_eq (lo hi : UInt32) : ∃ date : UInt64,
    (date.toNat : ℤ) = (ticks lo hi : ℤ) - epoch + (if epoch ≤ ticks lo hi then 0 else 2 ^ 64) ∧
      toTime lo hi = ⟨(date / 10000000).toInt64, date.toInt64⟩ := by
  have hlt : ticks lo hi < 2 ^ 64 := by
    rw [← toNat_date]
    exact UInt64.toNat_lt _
  have he : epoch < 2 ^ 64 := by decide
  refine ⟨(hi.toUInt64 <<< 32 ||| lo.toUInt64) - 11644473600000 * 10000, ?_, rfl⟩
  rw [UInt64.toNat_sub, toNat_date]
  show (((2 ^ 64 - epoch + ticks lo hi) % 2 ^ 64 : ℕ) : ℤ) = _
  generalize epoch = e at *
  split_ifs
  · omega
  · omega

theorem exact_toTime_iff (lo hi : UInt32) :
    Exact (ticks lo hi) (toTime lo hi) ↔ HundredfoldSecond (ticks lo hi) := by
  obtain ⟨date, hdate, h⟩ := toTime_eq lo hi
  have hsec : (date / 10000000).toNat = date.toNat / 10000000 := UInt64.toNat_div _ _
  have hd := date.toNat_lt
  rw [h]
  unfold Exact HundredfoldSecond
  simp only [toInt_toInt64, hsec]
  generalize ticks lo hi = v at *
  generalize date.toNat = d at *
  unfold epoch at *
  rw [if_pos (show d / 10000000 < 2 ^ 63 by omega)]
  by_cases hle : 116444736000000000 ≤ v
  · rw [if_pos hle] at hdate
    have hv : v - 116444736000000000 = d := by omega
    rw [hv]
    split_ifs
    · omega
    · omega
  · rw [if_neg hle] at hdate
    split_ifs
    · omega
    · omega

/-- The accessors' times, and those in the stat of the item, are exact only for
times in the first hundred seconds of 1970 whose ticks happen to fit. -/
theorem exact_iff {field : TimeField} {item : ItemProps} {lo hi : UInt32}
    (hp : field.prop item = (sOk, .filetime lo hi)) (hv : ticks lo hi ≠ 0) :
    (Exact (ticks lo hi) (field.read item) ↔ HundredfoldSecond (ticks lo hi)) ∧
    ∀ {loc : Locale} {arc : ImplArchive} {allowOther : Bool} {m : Mount} {path : Str}
      {el : CiIterator × Stat}, ShownAt loc arc allowOther m path el item →
      (Exact (ticks lo hi) (field.inStat el.2) ↔ HundredfoldSecond (ticks lo hi)) := by
  have hread : field.read item = toTime lo hi := by
    have h0 : lo ≠ 0 ∨ hi ≠ 0 := by
      by_contra h
      rw [not_or, not_not, not_not] at h
      rw [h.1, h.2] at hv
      exact hv rfl
    rw [field.read_eq, hp, ItemProps.time, if_pos ⟨rfl, h0⟩]
  refine ⟨?_, fun hat => ?_⟩
  · rw [hread]
    exact exact_toTime_iff lo hi
  · rw [hat.time_eq, hread]
    exact exact_toTime_iff lo hi

theorem exact_at_epoch :
    Exact (ticks 3577643008 27111902) (ItemProps.atime { ItemProps.file [97] (sOk, .empty) with
      kpidATime := (sOk, .filetime 3577643008 27111902) }) :=
  (@exact_iff .atime _ _ _ rfl (by decide)).1.mpr (by decide)

/-- The first second of 2020: its nanoseconds are the ticks of fifty years. -/
theorem new_year_2020_not_exact :
    ticks 1761935360 30785590 = 132223104000000000 ∧
      ¬ Exact (ticks 1761935360 30785590) (ItemProps.time (sOk, .filetime 1761935360 30785590)) := by
  refine ⟨rfl, ?_⟩
  decide

end Fuse

end Fuse3P7zip
