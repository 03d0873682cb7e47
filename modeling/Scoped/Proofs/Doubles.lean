import Mathlib.Algebra.CharP.Defs
import Mathlib.Algebra.Field.Rat
import Mathlib.Algebra.Order.Group.Int
import Mathlib.Algebra.Order.Ring.Rat
import Mathlib.Algebra.Ring.CharZero
import Mathlib.Data.Int.ConditionallyCompleteOrder
import Mathlib.Order.ConditionallyCompleteLattice.Basic
import Mathlib.Order.Monotone.Odd
import Scoped.Number.Binary64

/-!
# The values of doubles

A finite double has an exact value (`value?`). The position of a double, which is read off its bits,
grows with the value (`strictMono_valueAt`), so that to compare positions is to compare values :
`compare?_of_value?`.
-/

namespace Scoped.Binary64

/-- The exact value of a finite double. -/
def Parts.value? : Parts → Option ℚ
  | finite negative m e => some ((if negative then -1 else 1) * (m * 2 ^ e))
  | _ => none

/-- The exact value of a double. Infinities and NaN have none. -/
def value? (x : Float) : Option ℚ := (parts x).value?

theorem parts_eq (x : Float) : parts x =
    if infinity < magnitude x then .nan
    else if magnitude x = infinity then .infinite (isNegative x)
    else if magnitude x / 2 ^ 52 = 0 then .finite (isNegative x) (magnitude x % 2 ^ 52) (-1074)
    else .finite (isNegative x) (magnitude x % 2 ^ 52 + 2 ^ 52)
      (((magnitude x / 2 ^ 52 : Nat) : Int) - 1075) :=
  rfl

/-- A value has at most 53 significant bits. -/
theorem exists_eq_of_value? {x : Float} {v : ℚ} (h : value? x = some v) :
    ∃ m e : Int, m.natAbs < 2 ^ 53 ∧ v = m * 2 ^ e := by
  have hfinite : ∀ (b : Bool) (m : Nat) (e : Int), m < 2 ^ 53 →
      (Parts.finite b m e).value? = some v → ∃ m e : Int, m.natAbs < 2 ^ 53 ∧ v = m * 2 ^ e := by
    intro b m e hm hv
    obtain rfl := Option.some.inj hv
    cases b with
    | false => exact ⟨m, e, by omega, by simp⟩
    | true => exact ⟨-m, e, by omega, by simp⟩
  rw [value?, parts_eq] at h
  split at h
  · cases h
  · split at h
    · cases h
    · split at h
      · exact hfinite _ _ _ (by omega) h
      · exact hfinite _ _ _ (by omega) h

/-! ## Positions -/

/-- The magnitude with the sign of the double. -/
def signed (x : Float) : Int := if isNegative x then -(magnitude x : Int) else magnitude x

theorem natAbs_signed (x : Float) : (signed x).natAbs = magnitude x := by
  unfold signed
  split <;> simp

theorem position_eq (x : Float) :
    position x = if infinity < magnitude x then none else some (signed x) := rfl

/-- A magnitude as a multiple of the least positive double. -/
def units (k : Nat) : Nat :=
  if k / 2 ^ 52 = 0 then k % 2 ^ 52 else (k % 2 ^ 52 + 2 ^ 52) * 2 ^ (k / 2 ^ 52 - 1)

theorem units_lt_succ (k : Nat) : units k < units (k + 1) := by
  obtain hlast | hlast : k % 2 ^ 52 + 1 < 2 ^ 52 ∨ k % 2 ^ 52 = 2 ^ 52 - 1 := by omega
  · have hfield : (k + 1) / 2 ^ 52 = k / 2 ^ 52 := by omega
    have hfraction : (k + 1) % 2 ^ 52 = k % 2 ^ 52 + 1 := by omega
    rw [units, units, hfield, hfraction]
    split
    · omega
    · exact Nat.mul_lt_mul_of_pos_right (by omega) (Nat.two_pow_pos _)
  · have hfield : (k + 1) / 2 ^ 52 = k / 2 ^ 52 + 1 := by omega
    have hfraction : (k + 1) % 2 ^ 52 = 0 := by omega
    rw [units, units, hfield, hfraction, if_neg (Nat.succ_ne_zero _), Nat.add_sub_cancel]
    split
    · next hzero => rw [hzero]; omega
    · next hne =>
      obtain ⟨j, hj⟩ := Nat.exists_eq_add_one_of_ne_zero hne
      have hdouble : 2 ^ (j + 1) = 2 * 2 ^ j := by rw [Nat.pow_succ, Nat.mul_comm]
      rw [hj, Nat.add_sub_cancel, hdouble, ← Nat.mul_assoc]
      exact Nat.mul_lt_mul_of_pos_right (by omega) (Nat.two_pow_pos _)

theorem strictMono_units : StrictMono units := strictMono_nat_of_lt_succ units_lt_succ

/-- The value of the double at a position. -/
def valueAt (a : Int) : ℚ := a.sign * units a.natAbs * 2 ^ (-1074 : Int)

theorem valueAt_natCast (k : Nat) : valueAt k = units k * 2 ^ (-1074 : Int) := by
  obtain rfl | hk := Nat.eq_zero_or_pos k
  · simp [valueAt, units]
  · have hsign : (k : Int).sign = 1 := Int.sign_eq_one_of_pos (Int.natCast_pos.2 hk)
    rw [valueAt, hsign, Int.natAbs_natCast, Int.cast_one, one_mul]

theorem valueAt_neg (a : Int) : valueAt (-a) = -valueAt a := by
  simp [valueAt]

theorem strictMono_valueAt : StrictMono valueAt := by
  refine strictMono_of_odd_strictMonoOn_nonneg valueAt_neg fun a ha b hb hab => ?_
  obtain ⟨k, rfl⟩ := Int.eq_ofNat_of_zero_le ha
  obtain ⟨l, rfl⟩ := Int.eq_ofNat_of_zero_le hb
  rw [valueAt_natCast, valueAt_natCast]
  exact mul_lt_mul_of_pos_right (Nat.cast_lt.2 (strictMono_units (Int.ofNat_lt.1 hab)))
    (zpow_pos zero_lt_two _)

theorem value?_of_lt {x : Float} (h : magnitude x < infinity) :
    value? x = some (valueAt (signed x)) := by
  have hunits : ∀ (m : Nat) (e : Int), (m : ℚ) * 2 ^ e = units (magnitude x) * 2 ^ (-1074 : Int) →
      (Parts.finite (isNegative x) m e).value? = some (valueAt (signed x)) := by
    intro m e hvalue
    rw [Parts.value?, hvalue, signed]
    cases isNegative x with
    | false => simp [valueAt_natCast]
    | true => simp [valueAt_neg, valueAt_natCast]
  rw [value?, parts_eq, if_neg (Nat.lt_asymm h), if_neg (Nat.ne_of_lt h)]
  split
  · next hfield =>
    refine hunits _ _ ?_
    rw [units, if_pos hfield]
  · next hfield =>
    refine hunits _ _ ?_
    obtain ⟨j, hj⟩ := Nat.exists_eq_add_one_of_ne_zero hfield
    have hexponent : ((j + 1 : Nat) : Int) - 1075 = j + -1074 := by omega
    rw [units, if_neg hfield, hj, Nat.add_sub_cancel, hexponent, zpow_add₀ two_ne_zero,
      zpow_natCast, Nat.cast_mul, Nat.cast_pow, Nat.cast_ofNat, mul_assoc]

theorem value?_of_le {x : Float} (h : infinity ≤ magnitude x) : value? x = none := by
  rw [value?, parts_eq]
  split
  · rfl
  · rw [if_pos (by omega)]
    rfl

/-- The value of a double is that at its position. -/
theorem value?_eq_some_iff {x : Float} {v : ℚ} :
    value? x = some v ↔ ∃ a, position x = some a ∧ a.natAbs < infinity ∧ valueAt a = v := by
  rw [position_eq]
  by_cases h : magnitude x < infinity
  · rw [value?_of_lt h, if_neg (Nat.lt_asymm h)]
    simp [natAbs_signed, h]
  · rw [value?_of_le (Nat.le_of_not_lt h)]
    split <;> simp [natAbs_signed, h]

/-- Finite doubles are ordered by their values. -/
theorem compare?_of_value? {x y : Float} {v w : ℚ} (hx : value? x = some v)
    (hy : value? y = some w) : compare? x y = some (compare v w) := by
  obtain ⟨a, ha, -, rfl⟩ := value?_eq_some_iff.1 hx
  obtain ⟨b, hb, -, rfl⟩ := value?_eq_some_iff.1 hy
  rw [compare?, ha, hb, ← cmp_eq_compare, strictMono_valueAt.cmp_map_eq, cmp_eq_compare]

end Scoped.Binary64
