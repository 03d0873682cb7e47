import Mathlib.Algebra.Order.Field.Power
import Mathlib.Algebra.Order.Ring.Star
import Mathlib.Algebra.Ring.IsFormallyReal
import Mathlib.Data.Int.Star
import Mathlib.Data.Rat.Star
import Mathlib.Tactic.Linarith
import Mathlib.Tactic.Positivity
import Mathlib.Tactic.Ring
import Scoped.Number.Basic
import Scoped.Proofs.Doubles

/-!
# Integers as doubles

An integer that becomes a double is rounded to 53 significant bits (`rounded`), and to the even one
of two multiples that are equally near : `value?_ofInt`. The result is a double nearest to the
integer (`abs_rounded_sub_le`), so that an integer which is a double keeps its value.

The conversion is followed through the model of doubles : the shift of a mantissa and the bits that
leave it, the rounding, a carry, and the packing into bits. The doubles on the way are normal, that
is, their mantissas have exactly 53 bits (`Normal`).
-/

namespace Scoped.Binary64

open Float.Model Float.Model.UnpackedFloat

/-! ## Rounding to a number of bits -/

/-- `m / 2 ^ k` rounded to an integer, and to the even one of two that are equally near. -/
def roundShift (m k : Nat) : Nat :=
  if 2 * (m % 2 ^ k) < 2 ^ k then m / 2 ^ k
  else if 2 * (m % 2 ^ k) = 2 ^ k then m / 2 ^ k + m / 2 ^ k % 2
  else m / 2 ^ k + 1

/-- An integer rounded to 53 significant bits. -/
def rounded (n : Int) : Int :=
  n.sign * (roundShift n.natAbs (n.natAbs.log2 - 52) * 2 ^ (n.natAbs.log2 - 52) : Nat)

theorem roundShift_zero (m : Nat) : roundShift m 0 = m := by
  simp [roundShift, Nat.mod_one]

/-- Zeros at the end are shifted out first. -/
theorem roundShift_mul (m k j : Nat) : roundShift (m * 2 ^ j) (k + j) = roundShift m k := by
  have hpos : 0 < 2 ^ j := Nat.two_pow_pos j
  have hhalf : 2 * (m % 2 ^ k * 2 ^ j) = 2 * (m % 2 ^ k) * 2 ^ j := by rw [Nat.mul_assoc]
  simp only [roundShift, Nat.pow_add, Nat.mul_mod_mul_right, Nat.mul_div_mul_right _ _ hpos, hhalf,
    Nat.mul_lt_mul_right hpos, Nat.mul_left_inj (Nat.ne_of_gt hpos)]

theorem roundShift_cases (m k : Nat) :
    (roundShift m k = m / 2 ^ k ∧ 2 * (m % 2 ^ k) ≤ 2 ^ k) ∨
      (roundShift m k = m / 2 ^ k + 1 ∧ 2 ^ k ≤ 2 * (m % 2 ^ k)) := by
  unfold roundShift
  split
  · omega
  · split <;> omega

/-- The rounded number is as near as the multiples of `2 ^ k` below and above. -/
theorem abs_roundShift_sub_le (m k : Nat) :
    |((roundShift m k * 2 ^ k : Nat) : Int) - m| ≤ (m % 2 ^ k : Nat) ∧
      |((roundShift m k * 2 ^ k : Nat) : Int) - m| ≤ 2 ^ k - (m % 2 ^ k : Nat) := by
  have hsum : m / 2 ^ k * 2 ^ k + m % 2 ^ k = m := Nat.div_add_mod' m (2 ^ k)
  have hlt : m % 2 ^ k < 2 ^ k := Nat.mod_lt m (Nat.two_pow_pos k)
  have hcast : ((2 ^ k : Nat) : Int) = 2 ^ k := by simp
  rw [abs_le, abs_le, ← hcast]
  obtain ⟨hround, hhalf⟩ | ⟨hround, hhalf⟩ := roundShift_cases m k
  · rw [hround]
    omega
  · rw [hround, Nat.succ_mul]
    omega

/-- No multiple of `2 ^ k` is nearer. -/
theorem abs_roundShift_sub_le_of_multiple (n k : Nat) (c : Int) :
    |((roundShift n k * 2 ^ k : Nat) : Int) - n| ≤ |c * 2 ^ k - n| := by
  obtain ⟨hbelow, habove⟩ := abs_roundShift_sub_le n k
  have hsum : (n / 2 ^ k : Nat) * (2 : Int) ^ k + (n % 2 ^ k : Nat) = n := by
    exact_mod_cast Nat.div_add_mod' n (2 ^ k)
  have hpos : (0 : Int) ≤ 2 ^ k := by positivity
  obtain hc | hc := Int.lt_or_le (n / 2 ^ k : Nat) c
  · refine habove.trans (le_abs.2 (.inl ?_))
    have hmul := Int.mul_le_mul_of_nonneg_right (Int.add_one_le_of_lt hc) hpos
    rw [Int.add_mul, Int.one_mul] at hmul
    linarith
  · refine hbelow.trans (le_abs.2 (.inr ?_))
    have hmul := Int.mul_le_mul_of_nonneg_right hc hpos
    linarith

/-- What 53 bits keep of a longer number has 53 bits. -/
theorem two_pow_le_div {n : Nat} (h : 52 ≤ n.log2) : 2 ^ 52 ≤ n / 2 ^ (n.log2 - 52) := by
  have hne : n ≠ 0 := by
    rintro rfl
    exact absurd h (by decide)
  rw [Nat.le_div_iff_mul_le (Nat.two_pow_pos _), ← Nat.pow_add, Nat.add_sub_cancel' h]
  exact Nat.log2_self_le hne

/-- No number of at most 53 significant bits is nearer. -/
theorem abs_roundShift_sub_le_of_bits (n : Nat) {m e : Int} (hm : m.natAbs < 2 ^ 53) :
    |((roundShift n (n.log2 - 52) * 2 ^ (n.log2 - 52) : Nat) : ℚ) - n| ≤
      |(m : ℚ) * 2 ^ e - n| := by
  obtain ⟨k, hk⟩ : ∃ k, k = n.log2 - 52 := ⟨_, rfl⟩
  rw [← hk]
  by_cases he : (k : Int) ≤ e
  · obtain ⟨j, rfl⟩ := Int.le.dest he
    have hmultiple := abs_roundShift_sub_le_of_multiple n k (m * 2 ^ j)
    have hvalue : (m : ℚ) * 2 ^ ((k : Int) + j) = (m * 2 ^ j * 2 ^ k : Int) := by
      rw [zpow_add₀ two_ne_zero, zpow_natCast, zpow_natCast]
      push_cast
      ring
    rw [hvalue]
    exact_mod_cast hmultiple
  · obtain rfl | hpos := Nat.eq_zero_or_pos k
    · simp [roundShift_zero]
    · -- with a smaller exponent 53 bits do not reach the multiple of `2 ^ k` below
      have hbelow : |((roundShift n k * 2 ^ k : Nat) : ℚ) - n| ≤ (n % 2 ^ k : Nat) := by
        have hinteger := (Int.cast_le (R := ℚ)).2 (abs_roundShift_sub_le n k).1
        push_cast at hinteger ⊢
        exact hinteger
      have hsum : ((n / 2 ^ k : Nat) : ℚ) * 2 ^ k + (n % 2 ^ k : Nat) = n := by
        exact_mod_cast Nat.div_add_mod' n (2 ^ k)
      have hquotient : (2 : ℚ) ^ 52 ≤ (n / 2 ^ k : Nat) := by
        exact_mod_cast hk ▸ two_pow_le_div (by omega)
      have hmantissa : (m : ℚ) ≤ 2 ^ 53 := by
        exact_mod_cast (by omega : m ≤ 2 ^ 53)
      have hexponent : (2 : ℚ) ^ e * 2 ≤ 2 ^ k := by
        rw [← zpow_natCast, ← zpow_add_one₀ two_ne_zero]
        exact zpow_le_zpow_right₀ one_le_two (by omega)
      have hvalue : (m : ℚ) * 2 ^ e ≤ (n / 2 ^ k : Nat) * 2 ^ k :=
        calc (m : ℚ) * 2 ^ e ≤ 2 ^ 53 * 2 ^ e := by gcongr
          _ = 2 ^ 52 * (2 ^ e * 2) := by ring
          _ ≤ 2 ^ 52 * 2 ^ k := by gcongr
          _ ≤ (n / 2 ^ k : Nat) * 2 ^ k := by gcongr
      refine hbelow.trans (le_abs.2 (.inr ?_))
      linarith

theorem rounded_neg (n : Int) : rounded (-n) = -rounded n := by
  simp [rounded]

theorem rounded_natCast (n : Nat) :
    rounded n = (roundShift n (n.log2 - 52) * 2 ^ (n.log2 - 52) : Nat) := by
  obtain rfl | hn := Nat.eq_zero_or_pos n
  · rfl
  · have hsign : (n : Int).sign = 1 := Int.sign_eq_one_of_pos (Int.natCast_pos.2 hn)
    rw [rounded, hsign, Int.one_mul, Int.natAbs_natCast]

/-- A rounded integer is a double nearest to the integer. -/
theorem abs_rounded_sub_le (n : Int) {x : Float} {v : ℚ} (h : value? x = some v) :
    |(rounded n : ℚ) - n| ≤ |v - n| := by
  obtain ⟨m, e, hm, rfl⟩ := exists_eq_of_value? h
  obtain ⟨a, rfl | rfl⟩ := n.eq_nat_or_neg
  · rw [rounded_natCast]
    exact_mod_cast abs_roundShift_sub_le_of_bits a hm
  · have hneg := abs_roundShift_sub_le_of_bits a (m := -m) (e := e) (by omega)
    rw [rounded_neg, rounded_natCast]
    push_cast at hneg ⊢
    rw [neg_mul, ← neg_add', abs_neg] at hneg
    rwa [← neg_add', abs_neg, sub_neg_eq_add, ← sub_eq_add_neg]

/-- An integer that is a double is not changed. -/
theorem rounded_of_value? {n : Int} {x : Float} (h : value? x = some (n : ℚ)) : rounded n = n := by
  have hnear := abs_rounded_sub_le n h
  rw [sub_self, abs_zero, abs_nonpos_iff, sub_eq_zero] at hnear
  exact_mod_cast hnear

theorem rounded_of_natAbs_lt {n : Int} (h : n.natAbs < 2 ^ 53) : rounded n = n := by
  have hlog : n.natAbs.log2 - 52 = 0 := by
    by_cases hn : n.natAbs = 0
    · rw [hn]
      rfl
    · have hlt : n.natAbs.log2 < 53 := (Nat.log2_lt hn).2 h
      omega
  rw [rounded, hlog, roundShift_zero, Nat.pow_zero, Nat.mul_one, Int.sign_mul_natAbs]

theorem rounded_of_natAbs_le {n : Int} (h : n.natAbs ≤ 2 ^ 53) : rounded n = n := by
  obtain hlt | heq := Nat.lt_or_eq_of_le h
  · exact rounded_of_natAbs_lt hlt
  · obtain rfl | rfl : n = 2 ^ 53 ∨ n = -2 ^ 53 := by omega
    · decide
    · decide

/-! ## Mantissas -/

theorem shiftRight_exact (m k : Nat) : (⟨m, false, false⟩ : ExtendedMantissa) >>> k =
    ⟨m / 2 ^ k, decide (2 ^ k ≤ 2 * (m % 2 ^ k)), decide (2 * (m % 2 ^ k) % 2 ^ k ≠ 0)⟩ := by
  induction k with
  | zero => simp [HShiftRight.hShiftRight, Nat.repeat, Nat.mod_one]
  | succ k ih =>
    have hstep : (⟨m, false, false⟩ : ExtendedMantissa) >>> (k + 1) =
        ((⟨m, false, false⟩ : ExtendedMantissa) >>> k).shiftRightOne := rfl
    have hpos : 0 < 2 ^ k := Nat.two_pow_pos k
    have hlt : m % 2 ^ k < 2 ^ k := Nat.mod_lt m hpos
    have hmod : m % 2 ^ (k + 1) = m % 2 ^ k + 2 ^ k * (m / 2 ^ k % 2) := by
      rw [Nat.pow_succ, Nat.mod_mul]
    have hrest : 2 * (m % 2 ^ (k + 1)) % 2 ^ (k + 1) = 2 * (m % 2 ^ k) := by
      rw [hmod, Nat.pow_succ, Nat.mul_comm (2 ^ k) 2, Nat.mul_mod_mul_left,
        Nat.add_mul_mod_self_left, Nat.mod_eq_of_lt hlt]
    have hround : (m / 2 ^ k % 2 != 0) = decide (2 ^ (k + 1) ≤ 2 * (m % 2 ^ (k + 1))) := by
      rw [hmod, Nat.pow_succ]
      obtain h | h := Nat.mod_two_eq_zero_or_one (m / 2 ^ k)
      · simp only [h, Nat.mul_zero, Nat.add_zero]
        exact (decide_eq_false (by omega)).symm
      · simp only [h, Nat.mul_one]
        exact (decide_eq_true (by omega)).symm
    have hsticky : (decide (2 ^ k ≤ 2 * (m % 2 ^ k)) || decide (2 * (m % 2 ^ k) % 2 ^ k ≠ 0)) =
        decide (2 * (m % 2 ^ (k + 1)) % 2 ^ (k + 1) ≠ 0) := by
      rw [hrest, ← Bool.decide_or, decide_eq_decide]
      constructor
      · rintro (h | h) hzero
        · omega
        · exact h (by rw [hzero, Nat.zero_mod])
      · intro h
        by_cases hle : 2 ^ k ≤ 2 * (m % 2 ^ k)
        · exact .inl hle
        · exact .inr (by rwa [Nat.mod_eq_of_lt (by omega)])
    rw [hstep, ih, ExtendedMantissa.shiftRightOne, hround, hsticky, Nat.div_div_eq_div_mul,
      ← Nat.pow_succ]

theorem roundedMantissa_shiftRight (m k : Nat) :
    ((⟨m, false, false⟩ : ExtendedMantissa) >>> k).roundedMantissa = roundShift m k := by
  have hlt : m % 2 ^ k < 2 ^ k := Nat.mod_lt m (Nat.two_pow_pos k)
  rw [shiftRight_exact, roundShift]
  by_cases hround : 2 ^ k ≤ 2 * (m % 2 ^ k)
  · have hrest : 2 * (m % 2 ^ k) % 2 ^ k = 2 * (m % 2 ^ k) - 2 ^ k := by
      rw [Nat.mod_eq_sub_mod hround, Nat.mod_eq_of_lt (by omega)]
    rw [if_neg (Nat.not_lt.2 hround), hrest, decide_eq_true hround]
    by_cases htie : 2 * (m % 2 ^ k) = 2 ^ k
    · rw [if_pos htie, decide_eq_false (by omega)]
      rfl
    · rw [if_neg htie, decide_eq_true (by omega)]
      rfl
  · rw [if_pos (Nat.lt_of_not_le hround), decide_eq_false hround]
    cases decide (2 * (m % 2 ^ k) % 2 ^ k ≠ 0) <;> rfl

theorem shiftToTargetExponent_exact {M : Nat} {E : Int} (hM : 2 ^ 52 ≤ M)
    (hE : -1074 ≤ E + (M.log2 - 52 : Nat)) :
    shiftToTargetExponent .binary64 M E .exact =
      ((⟨M, false, false⟩ : ExtendedMantissa) >>> (M.log2 - 52), E + (M.log2 - 52 : Nat)) := by
  have hlog : 52 ≤ M.log2 := (Nat.le_log2 (by omega)).2 hM
  have htarget : Format.binary64.targetExponent (totalExponent M E) = M.log2 + 1 + E - 53 := by
    show max ((M.log2 : Int) + 1 + E - 53) (-1074) = _
    omega
  have hshift : (Format.binary64.targetExponent (totalExponent M E) - E).toNat = M.log2 - 52 := by
    rw [htarget]
    omega
  rw [shiftToTargetExponent, shiftToExponent, hshift]
  rfl

/-- A carry out of the highest of 53 bits goes into the exponent. -/
theorem shiftToTargetExponent_carry {q : Nat} {e : Int} (hlow : 2 ^ 52 ≤ q) (hhigh : q ≤ 2 ^ 53)
    (he : -1074 ≤ e) : ∃ (m : Nat) (e' : Int),
      shiftToTargetExponent .binary64 q e .exact = (⟨m, false, false⟩, e') ∧
      2 ^ 52 ≤ m ∧ m < 2 ^ 53 ∧ e ≤ e' ∧ e' ≤ e + 1 ∧ (m : ℚ) * 2 ^ e' = q * 2 ^ e := by
  rw [shiftToTargetExponent_exact hlow (by omega), shiftRight_exact]
  obtain hq | rfl := Nat.lt_or_eq_of_le hhigh
  · have hlog : q.log2 = 52 := (Nat.log2_eq_iff (by omega)).2 ⟨hlow, hq⟩
    refine ⟨q, e, ?_, hlow, hq, by omega, by omega, rfl⟩
    simp [hlog, Nat.mod_one]
  · refine ⟨2 ^ 52, e + 1, ?_, by decide, by decide, by omega, by omega, ?_⟩
    · rw [Nat.log2_two_pow]
      rfl
    · rw [zpow_add₀ two_ne_zero]
      push_cast
      ring

/-- A mantissa is shifted, rounded, and shifted once more after a carry. -/
theorem roundWithAccuracy_of_shifts {s : Sign} {M m : Nat} {E E' e : Int} {x : ExtendedMantissa}
    (hshift : shiftToTargetExponent .binary64 M E .exact = (x, E'))
    (hcarry : shiftToTargetExponent .binary64 x.roundedMantissa E' .exact =
      (⟨m, false, false⟩, e)) (h : 0 < m) :
    roundWithAccuracy .binary64 s M E .exact = .finite s m e h := by
  rw [roundWithAccuracy, hshift]
  dsimp only
  rw [hcarry]
  exact dif_neg (Nat.ne_of_gt h)

/-- Rounding an exact mantissa to 53 bits. -/
theorem roundWithAccuracy_exact (s : Sign) {M : Nat} {E : Int} (hM : 2 ^ 52 ≤ M)
    (hE : -1074 ≤ E + (M.log2 - 52 : Nat)) :
    ∃ (m : Nat) (e : Int) (h : 0 < m), roundWithAccuracy .binary64 s M E .exact = .finite s m e h ∧
      2 ^ 52 ≤ m ∧ m < 2 ^ 53 ∧ E + (M.log2 - 52 : Nat) ≤ e ∧ e ≤ E + (M.log2 - 52 : Nat) + 1 ∧
      (m : ℚ) * 2 ^ e = roundShift M (M.log2 - 52) * 2 ^ (E + (M.log2 - 52 : Nat)) := by
  have hlog : 52 ≤ M.log2 := (Nat.le_log2 (by omega)).2 hM
  have hlow : 2 ^ 52 ≤ M / 2 ^ (M.log2 - 52) := two_pow_le_div hlog
  have hhigh : M / 2 ^ (M.log2 - 52) < 2 ^ 53 := by
    have hbits : 53 + (M.log2 - 52) = M.log2 + 1 := by omega
    rw [Nat.div_lt_iff_lt_mul (Nat.two_pow_pos _), ← Nat.pow_add, hbits]
    exact Nat.lt_log2_self
  obtain ⟨hfloor, hceil⟩ : M / 2 ^ (M.log2 - 52) ≤ roundShift M (M.log2 - 52) ∧
      roundShift M (M.log2 - 52) ≤ M / 2 ^ (M.log2 - 52) + 1 := by
    obtain ⟨h, -⟩ | ⟨h, -⟩ := roundShift_cases M (M.log2 - 52) <;> omega
  obtain ⟨m, e, hcarry, hm, hm', he, he', hvalue⟩ :=
    shiftToTargetExponent_carry (Nat.le_trans hlow hfloor) (by omega) hE
  rw [← roundedMantissa_shiftRight] at hcarry
  exact ⟨m, e, by omega, roundWithAccuracy_of_shifts (shiftToTargetExponent_exact hM hE) hcarry _,
    hm, hm', he, he', hvalue⟩

/-! ## Normal doubles -/

theorem toNat_packComponents (s : Sign) (ev : BitVec 11) (mv : BitVec 52) :
    (packComponents .binary64 s ev mv).toNat =
      s.toBitVec.toNat * 2 ^ 63 + ev.toNat * 2 ^ 52 + mv.toNat := by
  have hs : s.toBitVec.toNat < 2 := s.toBitVec.isLt
  rw [packComponents, BitVec.toNat_append, BitVec.toNat_append,
    ← Nat.shiftLeft_add_eq_or_of_lt mv.isLt, ← Nat.shiftLeft_add_eq_or_of_lt ev.isLt,
    Nat.shiftLeft_eq, Nat.shiftLeft_eq]
  omega

theorem unpackSign_pack (s : Sign) (ev : BitVec 11) (mv : BitVec 52) :
    unpackSign (packComponents .binary64 s ev mv) = s.toBitVec := by
  have hs : s.toBitVec.toNat < 2 := s.toBitVec.isLt
  have hev : ev.toNat < 2 ^ 11 := ev.isLt
  have hmv : mv.toNat < 2 ^ 52 := mv.isLt
  refine BitVec.eq_of_toNat_eq ?_
  show (packComponents .binary64 s ev mv).toNat >>> 63 % 2 ^ 1 = _
  rw [toNat_packComponents, Nat.shiftRight_eq_div_pow]
  omega

/-- The double has a mantissa of exactly 53 bits. -/
structure Normal (x : Float) (s : Sign) (m : Nat) (e : Int) : Prop where
  low : 2 ^ 52 ≤ m
  high : m < 2 ^ 53
  least : -1074 ≤ e
  greatest : e ≤ 971
  packed : ∃ h, x.toModel = Float.Model.pack (.finite s m e h)

theorem pack_normal {s : Sign} {m : Nat} {e : Int} (h : 0 < m) (low : 2 ^ 52 ≤ m)
    (high : m < 2 ^ 53) (least : -1074 ≤ e) (greatest : e ≤ 971) :
    UnpackedFloat.pack .binary64 (.finite s m e h) =
      packComponents .binary64 s (BitVec.ofNat 11 (e + 1075).toNat) (BitVec.ofNat 52 m) := by
  have hlog : m.log2 = 52 := (Nat.log2_eq_iff (by omega)).2 ⟨low, high⟩
  have hbias : (e + Format.binary64.exponentBias +
      Format.binary64.mantissaBitsWithoutImplicit).toNat = (e + 1075).toNat := by
    show (e + (1023 : Nat) + (52 : Nat)).toNat = _
    omega
  show (if 2 ^ 11 ≤ (e + Format.binary64.exponentBias +
      Format.binary64.mantissaBitsWithoutImplicit).toNat + 1 then packedInfinity .binary64 s
    else if m.log2 + 1 = 53 then packComponents .binary64 s (BitVec.ofNat 11 (e +
      Format.binary64.exponentBias + Format.binary64.mantissaBitsWithoutImplicit).toNat)
      (BitVec.ofNat 52 m)
    else packComponents .binary64 s 0#11 (BitVec.ofNat 52 m)) = _
  rw [hbias, hlog, if_neg (by omega), if_pos rfl]

theorem parts_of_toBits {x : Float} {b f r : Nat} (hb : b < 2) (hf : 0 < f) (hf' : f < 2047)
    (hr : r < 2 ^ 52) (h : x.toBits.toNat = b * 2 ^ 63 + f * 2 ^ 52 + r) :
    parts x = .finite (b = 1) (r + 2 ^ 52) ((f : Int) - 1075) := by
  have hmagnitude : magnitude x = f * 2 ^ 52 + r := by
    show x.toBits.toNat % 2 ^ 63 = _
    omega
  have hnegative : isNegative x = decide (b = 1) := by
    show decide (2 ^ 63 ≤ x.toBits.toNat) = _
    rw [decide_eq_decide]
    omega
  have hfield : (f * 2 ^ 52 + r) / 2 ^ 52 = f := by omega
  have hfraction : (f * 2 ^ 52 + r) % 2 ^ 52 = r := by omega
  have hinfinity : infinity = 2047 * 2 ^ 52 := rfl
  rw [parts_eq, hmagnitude, hnegative, hinfinity, if_neg (by omega), if_neg (by omega), hfield,
    hfraction, if_neg (by omega)]

/-- An exponent field that is neither all ones nor zero stands for a leading bit. -/
theorem unpack_packComponents {s : Sign} {ev : BitVec 11} {v : BitVec 52} (hones : ev ≠ -1#11)
    (hzeros : ev ≠ 0#11) (h : 0 < (1#1 ++ v).toNat) :
    UnpackedFloat.unpack .binary64 (packComponents .binary64 s ev v) =
      .finite s (1#1 ++ v).toNat (ev.toNat - 1075) h := by
  have hsign : Sign.ofBitVec (unpackSign (packComponents .binary64 s ev v)) = s := by
    rw [unpackSign_pack]
    cases s <;> rfl
  rw [← @unpackExponent_packComponents .binary64 s ev v] at hones hzeros
  refine (if_neg hones).trans ((if_neg hzeros).trans ?_)
  rw [finite.injEq, unpackMantissa_packComponents, unpackExponent_packComponents]
  exact ⟨hsign, rfl, rfl⟩

theorem unpack_pack_normal {s : Sign} {m : Nat} {e : Int} (h : 0 < m) (low : 2 ^ 52 ≤ m)
    (high : m < 2 ^ 53) (least : -1074 ≤ e) (greatest : e ≤ 971) :
    UnpackedFloat.unpack .binary64 (UnpackedFloat.pack .binary64 (.finite s m e h)) =
      .finite s m e h := by
  have hexponent : (BitVec.ofNat 11 (e + 1075).toNat).toNat = (e + 1075).toNat := by
    rw [BitVec.toNat_ofNat]
    omega
  have hmantissa : (1#1 ++ BitVec.ofNat 52 m).toNat = m := by
    rw [BitVec.toNat_append, ← Nat.shiftLeft_add_eq_or_of_lt (BitVec.isLt _), BitVec.toNat_ofNat,
      BitVec.toNat_ofNat, Nat.shiftLeft_eq]
    omega
  have hones : BitVec.ofNat 11 (e + 1075).toNat ≠ -1#11 := by
    intro heq
    have := congrArg BitVec.toNat heq
    rw [hexponent] at this
    change _ = 2047 at this
    omega
  have hzeros : BitVec.ofNat 11 (e + 1075).toNat ≠ 0#11 := by
    intro heq
    have := congrArg BitVec.toNat heq
    rw [hexponent] at this
    change _ = 0 at this
    omega
  rw [pack_normal h low high least greatest, unpack_packComponents hones hzeros (by omega),
    finite.injEq, hexponent]
  exact ⟨rfl, hmantissa, by omega⟩

namespace Normal

variable {x : Float} {s : Sign} {m : Nat} {e : Int}

theorem unpack (h : Normal x s m e) : ∃ hm, x.toModel.unpack = .finite s m e hm := by
  obtain ⟨low, high, least, greatest, hm, hx⟩ := h
  refine ⟨hm, ?_⟩
  rw [hx]
  exact unpack_pack_normal hm low high least greatest

theorem parts (h : Normal x s m e) : parts x = .finite (s.toBitVec.toNat = 1) m e := by
  obtain ⟨low, high, least, greatest, hm, hx⟩ := h
  have hbits : x.toBits.toNat =
      s.toBitVec.toNat * 2 ^ 63 + (e + 1075).toNat * 2 ^ 52 + (m - 2 ^ 52) := by
    show x.toModel.toBits.toNat = _
    rw [hx]
    show (UnpackedFloat.pack .binary64 (.finite s m e hm)).toNat = _
    rw [pack_normal hm low high least greatest, toNat_packComponents, BitVec.toNat_ofNat,
      BitVec.toNat_ofNat]
    omega
  rw [parts_of_toBits s.toBitVec.isLt (by omega) (by omega) (by omega) hbits]
  congr
  · omega
  · omega

theorem neg (h : Normal x s m e) : Normal (-x) (-s) m e := by
  obtain ⟨hm, hx⟩ := h.unpack
  refine ⟨h.low, h.high, h.least, h.greatest, hm, ?_⟩
  show Float.Model.pack x.toModel.unpack.neg = _
  rw [hx]
  rfl

end Normal

/-! ## Conversion -/

theorem log2_mul_two_pow {n : Nat} (hn : n ≠ 0) (j : Nat) : (n * 2 ^ j).log2 = n.log2 + j := by
  have hpos : 0 < 2 ^ j := Nat.two_pow_pos j
  rw [Nat.log2_eq_iff (Nat.mul_ne_zero hn (Nat.ne_of_gt hpos)), Nat.pow_add, Nat.add_right_comm,
    Nat.pow_add]
  exact ⟨Nat.mul_le_mul_right _ (Nat.log2_self_le hn),
    Nat.mul_lt_mul_of_pos_right Nat.lt_log2_self hpos⟩

/-- What is rounded to 53 bits is normal. -/
theorem exists_normal {x : Float} {s : Sign} {M : Nat} {E : Int}
    (hx : x.toModel = Float.Model.pack (roundWithAccuracy .binary64 s M E .exact))
    (hM : 2 ^ 52 ≤ M) (hE : -1074 ≤ E + (M.log2 - 52 : Nat))
    (hE' : E + (M.log2 - 52 : Nat) ≤ 970) : ∃ (m : Nat) (e : Int), Normal x s m e ∧
      E + (M.log2 - 52 : Nat) ≤ e ∧ e ≤ E + (M.log2 - 52 : Nat) + 1 ∧
      (m : ℚ) * 2 ^ e = roundShift M (M.log2 - 52) * 2 ^ (E + (M.log2 - 52 : Nat)) := by
  obtain ⟨m, e, hm, hround, low, high, he, he', hvalue⟩ := roundWithAccuracy_exact s hM hE
  exact ⟨m, e, ⟨low, high, by omega, by omega, hm, by rw [hx, hround]⟩, he, he', hvalue⟩

theorem toModel_toFloat {n : Nat} (hpos : 0 < n) (hn : n < 2 ^ 64) :
    n.toUInt64.toFloat.toModel =
      Float.Model.pack (UnpackedFloat.round .binary64 .positive n 0) := by
  have hsmall : n.toUInt64.toNat = n := Nat.mod_eq_of_lt hn
  have hcompare : compare (n : Int) 0 = .gt := Int.compare_eq_gt.2 (by omega)
  show Float.Model.pack (UnpackedFloat.normalize .binary64 (n.toUInt64.toNat : Int) 0 .positive) = _
  rw [hsmall, UnpackedFloat.normalize, hcompare]
  rfl

/-- A positive integer of at most 53 bits is a double. -/
theorem exists_normal_toFloat {n : Nat} (hpos : 0 < n) (hn : n < 2 ^ 53) :
    ∃ (m : Nat) (e : Int), Normal n.toUInt64.toFloat .positive m e ∧ -52 ≤ e ∧ e ≤ 1 ∧
      (m : ℚ) * 2 ^ e = n := by
  have hlog : n.log2 < 53 := (Nat.log2_lt (by omega)).2 hn
  obtain ⟨j, hj⟩ : ∃ j, n.log2 + j = 52 := ⟨52 - n.log2, by omega⟩
  have hlog' : (n * 2 ^ j).log2 = 52 := by rw [log2_mul_two_pow (by omega), hj]
  have hM : 2 ^ 52 ≤ n * 2 ^ j := by
    rw [← hlog']
    exact Nat.log2_self_le (Nat.mul_ne_zero (by omega) (Nat.ne_of_gt (Nat.two_pow_pos j)))
  have htarget : Format.binary64.targetExponent (totalExponent n 0) = -j := by
    show max ((n.log2 : Int) + 1 + 0 - 53) (-1074) = _
    omega
  have hround : UnpackedFloat.round .binary64 .positive n 0 =
      roundWithAccuracy .binary64 .positive (n * 2 ^ j) (-j) .exact := by
    have hshift : ((0 : Int) - -(j : Int)).toNat = j := by omega
    rw [UnpackedFloat.round, htarget, decreaseExponent, Nat.shiftLeft_eq, hshift, Int.zero_sub]
  have hmodel := toModel_toFloat hpos (by omega)
  rw [hround] at hmodel
  obtain ⟨m, e, hnormal, he, he', hvalue⟩ := exists_normal hmodel hM (by omega) (by omega)
  refine ⟨m, e, hnormal, by omega, by omega, ?_⟩
  rw [hvalue, hlog', Nat.sub_self, roundShift_zero]
  simp

/-- The factor with which small integers are converted is one. -/
theorem normal_one : Normal Float.exactlyRepresentablePowersOfTen[0] .positive (2 ^ 52) (-52) :=
  ⟨by decide, by decide, by decide, by decide, by decide, rfl⟩

theorem mul_finite {s s' : Sign} {m m' : Nat} {e e' : Int} (h : 0 < m) (h' : 0 < m') :
    UnpackedFloat.mul .binary64 (.finite s m e h) (.finite s' m' e' h') =
      roundWithAccuracy .binary64 (s * s') (m * m') (e + e') .exact := rfl

theorem Normal.mul_one {x : Float} {s : Sign} {m : Nat} {e : Int} (h : Normal x s m e)
    (he : e ≤ 970) : ∃ (m' : Nat) (e' : Int),
      Normal (x * Float.exactlyRepresentablePowersOfTen[0]) s m' e' ∧
      (m' : ℚ) * 2 ^ e' = m * 2 ^ e := by
  obtain ⟨hm, hx⟩ := h.unpack
  obtain ⟨hm', hone⟩ := normal_one.unpack
  have hlow := h.low
  have hleast := h.least
  have hlog : (m * 2 ^ 52).log2 = 104 := by
    rw [log2_mul_two_pow (by omega), (Nat.log2_eq_iff (by omega)).2 ⟨h.low, h.high⟩]
  have hsign : s * .positive = s := by cases s <;> rfl
  have hmodel : (x * Float.exactlyRepresentablePowersOfTen[0]).toModel =
      Float.Model.pack (roundWithAccuracy .binary64 s (m * 2 ^ 52) (e + -52) .exact) := by
    show Float.Model.pack (UnpackedFloat.mul .binary64 x.toModel.unpack
      (Float.exactlyRepresentablePowersOfTen[0]).toModel.unpack) = _
    rw [hx, hone, mul_finite, hsign]
  obtain ⟨m', e', hnormal, -, -, hvalue⟩ := exists_normal hmodel (by omega) (by omega) (by omega)
  refine ⟨m', e', hnormal, ?_⟩
  have hround : roundShift (m * 2 ^ 52) (104 - 52) = m :=
    (roundShift_mul m 0 52).trans (roundShift_zero m)
  have hexponent : e + -52 + (104 - 52 : Nat) = e := by omega
  rw [hvalue, hlog, hround, hexponent]

/-- A positive integer is rounded to 53 bits. -/
theorem exists_normal_ofNat {n : Nat} (hpos : 0 < n) (hn : n < 2 ^ 64) :
    ∃ (m : Nat) (e : Int), Normal (Float.ofNat n) .positive m e ∧
      (m : ℚ) * 2 ^ e = (roundShift n (n.log2 - 52) * 2 ^ (n.log2 - 52) : Nat) := by
  have hlog : n.log2 < 64 := (Nat.log2_lt (by omega)).2 hn
  by_cases hsmall : n < 2 ^ 53
  · have hlog' : n.log2 < 53 := (Nat.log2_lt (by omega)).2 hsmall
    have hfloat : Float.ofNat n = n.toUInt64.toFloat * Float.exactlyRepresentablePowersOfTen[0] :=
      dif_pos ⟨hsmall, Nat.zero_le _⟩
    obtain ⟨m, e, hnormal, -, he, hvalue⟩ := exists_normal_toFloat hpos hsmall
    obtain ⟨m', e', hnormal', hvalue'⟩ := hnormal.mul_one (by omega)
    have hexact : n.log2 - 52 = 0 := by omega
    refine ⟨m', e', hfloat ▸ hnormal', ?_⟩
    rw [hvalue', hvalue, hexact, roundShift_zero, Nat.pow_zero, Nat.mul_one]
  · have hlow : 53 ≤ n.log2 := (Nat.le_log2 (by omega)).2 (by omega)
    have hM : 2 ^ 52 ≤ n * 2 ^ 53 := by omega
    have hlog' : (n * 2 ^ 53).log2 - 52 = n.log2 - 52 + 53 := by
      rw [log2_mul_two_pow (by omega)]
      omega
    have hmodel : (Float.ofNat n).toModel = Float.Model.pack
        (roundWithAccuracy .binary64 .positive (n * 2 ^ 53) (-53) .exact) := by
      have hfloat : Float.ofNat n = .ofModel (.ofScientific n 0) := dif_neg (by omega)
      have hbits : Format.binary64.mantissaBits = 53 := rfl
      have hpower : 10 ^ (0 : Int).toNat = 1 := rfl
      rw [hfloat]
      show Float.Model.pack (UnpackedFloat.ofScientific .binary64 n 0) = _
      rw [UnpackedFloat.ofScientific, dif_neg (by omega), if_neg (by decide), if_neg ?_,
        if_pos (by decide), mul_finite, Nat.shiftLeft_eq, hbits, hpower, Nat.mul_one]
      · rfl
      · show ¬(0 : Int) < -(2 ^ 11 + (n.log2 : Int))
        omega
    obtain ⟨m, e, hnormal, -, -, hvalue⟩ := exists_normal hmodel hM (by omega) (by omega)
    refine ⟨m, e, hnormal, ?_⟩
    have hexponent : (-53 : Int) + (n.log2 - 52 + 53 : Nat) = (n.log2 - 52 : Nat) := by omega
    rw [hvalue, hlog', roundShift_mul, hexponent]
    push_cast
    rw [zpow_natCast]

theorem Normal.value? {x : Float} {s : Sign} {m : Nat} {e : Int} (h : Normal x s m e) :
    value? x = some ((s.apply 1 : Int) * (m * 2 ^ e) : ℚ) := by
  rw [Binary64.value?, h.parts]
  cases s <;> rfl

theorem parts_zero : parts (Float.ofNat 0) = .finite false 0 (-1074) := by decide

/-- An integer that becomes a double is rounded to 53 bits. -/
theorem value?_ofInt {n : Int} (hn : n.natAbs < 2 ^ 64) :
    value? (Float.ofInt n) = some (rounded n : ℚ) := by
  cases n with
  | ofNat n =>
    obtain rfl | hpos := Nat.eq_zero_or_pos n
    · show (parts (Float.ofNat 0)).value? = _
      rw [parts_zero]
      simp [Parts.value?, rounded]
    · obtain ⟨m, e, hnormal, hvalue⟩ := exists_normal_ofNat hpos hn
      show value? (Float.ofNat n) = some (rounded (n : Int) : ℚ)
      rw [hnormal.value?, hvalue, rounded_natCast]
      simp [Sign.apply]
  | negSucc n =>
    obtain ⟨m, e, hnormal, hvalue⟩ := exists_normal_ofNat n.succ_pos hn
    show value? (-Float.ofNat n.succ) = some (rounded (-(n.succ : Int)) : ℚ)
    rw [hnormal.neg.value?, hvalue, rounded_neg, rounded_natCast, Int.cast_neg]
    simp [Sign.apply]

end Scoped.Binary64
