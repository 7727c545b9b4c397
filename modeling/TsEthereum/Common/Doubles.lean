import Mathlib.Algebra.Order.Ring.Nat
import Mathlib.Data.Nat.Log
import Mathlib.Tactic.Ring

/-!
# Natural numbers as doubles

A natural number rounded to 53 bits, to nearest and of two to the even one
(`toDouble`); infinity is a number above them all. It is exact below `2 ^ 53`, monotone, and a number that is
a double stays one when digits to the base 256 are put behind it: they are lost
(`toDouble_mul_add`).
-/

namespace TsEthereum

/-- A number to 53 bits, with an exponent of its own. -/
def roundToEven (m : ℕ) : ℕ :=
  if m < 2 ^ 53 then m
  else
    let ulp := 2 ^ (Nat.log 2 m - 52)
    if ulp < 2 * (m % ulp) ∨ 2 * (m % ulp) = ulp ∧ m / ulp % 2 = 1 then (m / ulp + 1) * ulp
    else m / ulp * ulp

/-- The first exponent that is too large. -/
def maxExponent : ℕ := 1024

/-- In place of infinity: the least power of two that is no double. -/
def INFINITY : ℕ := 2 ^ maxExponent

/-- **The double nearest to a number.** -/
def toDouble (m : ℕ) : ℕ := min (roundToEven m) INFINITY

/-- A double from `2 ^ 53` on: a multiple of the unit of its last place. -/
def IsDouble (m : ℕ) : Prop := 2 ^ 53 ≤ m ∧ 2 ^ (Nat.log 2 m - 52) ∣ m

variable {m n x : ℕ}

theorem pow_le_INFINITY : 2 ^ 53 ≤ INFINITY :=
  Nat.pow_le_pow_right (by omega) (show 53 ≤ maxExponent by decide)

theorem isDouble_pow {e : ℕ} (h : 53 ≤ e) : IsDouble (2 ^ e) := by
  refine ⟨Nat.pow_le_pow_right (by omega) h, ?_⟩
  rw [Nat.log_pow (by omega)]
  exact pow_dvd_pow 2 (Nat.sub_le _ _)

theorem isDouble_INFINITY : IsDouble INFINITY :=
  isDouble_pow (show 53 ≤ maxExponent by decide)

theorem toDouble_of_lt (h : m < 2 ^ 53) : toDouble m = m := by
  rw [toDouble, roundToEven, if_pos h]
  exact min_eq_left (h.le.trans pow_le_INFINITY)

theorem le_log (h : 2 ^ 53 ≤ m) : 53 ≤ Nat.log 2 m :=
  (Nat.le_log_iff_pow_le (by omega) (by omega)).2 h

theorem roundToEven_cases (h : 2 ^ 53 ≤ m) :
    roundToEven m = m / 2 ^ (Nat.log 2 m - 52) * 2 ^ (Nat.log 2 m - 52) ∨
      roundToEven m = (m / 2 ^ (Nat.log 2 m - 52) + 1) * 2 ^ (Nat.log 2 m - 52) := by
  rw [roundToEven, if_neg (Nat.not_lt.2 h)]
  dsimp only
  split
  · exact .inr rfl
  · exact .inl rfl

theorem quotient_bounds (h : 2 ^ 53 ≤ m) : 2 ^ 52 ≤ m / 2 ^ (Nat.log 2 m - 52) ∧
    m / 2 ^ (Nat.log 2 m - 52) < 2 ^ 53 := by
  have hlog := le_log h
  have hpow : 2 ^ (Nat.log 2 m - 52) * 2 ^ 52 = 2 ^ Nat.log 2 m := by
    rw [← pow_add]
    congr 1
    omega
  have hle := Nat.pow_log_le_self 2 (show m ≠ 0 by omega)
  have hlt := Nat.lt_pow_succ_log_self (b := 2) (by omega) m
  have hpos : 0 < 2 ^ (Nat.log 2 m - 52) := Nat.pow_pos (by omega)
  rw [Nat.le_div_iff_mul_le hpos, Nat.div_lt_iff_lt_mul hpos]
  rw [pow_succ] at hlt
  constructor
  · rwa [mul_comm, hpow]
  · rw [mul_comm, show (2 : ℕ) ^ 53 = 2 ^ 52 * 2 from rfl, ← mul_assoc, hpow]
    exact hlt

theorem roundToEven_bounds (h : 2 ^ 53 ≤ m) :
    2 ^ Nat.log 2 m ≤ roundToEven m ∧ roundToEven m ≤ 2 ^ (Nat.log 2 m + 1) := by
  obtain ⟨hle, hlt⟩ := quotient_bounds h
  have hlog := le_log h
  have hpow : 2 ^ 52 * 2 ^ (Nat.log 2 m - 52) = 2 ^ Nat.log 2 m := by
    rw [← pow_add]
    congr 1
    omega
  have hpow' : 2 ^ 53 * 2 ^ (Nat.log 2 m - 52) = 2 ^ (Nat.log 2 m + 1) := by
    rw [← pow_add]
    congr 1
    omega
  rw [← hpow, ← hpow']
  rcases roundToEven_cases h with heq | heq
  · rw [heq]
    exact ⟨Nat.mul_le_mul_right _ hle, Nat.mul_le_mul_right _ hlt.le⟩
  · rw [heq]
    exact ⟨Nat.mul_le_mul_right _ (hle.trans (Nat.le_succ _)), Nat.mul_le_mul_right _ hlt⟩

theorem roundToEven_mono (h : m ≤ n) : roundToEven m ≤ roundToEven n := by
  rcases Nat.lt_or_ge n (2 ^ 53) with hn | hn
  · rw [roundToEven, if_pos (h.trans_lt hn), roundToEven, if_pos hn]
    exact h
  rcases Nat.lt_or_ge m (2 ^ 53) with hm | hm
  · rw [roundToEven, if_pos hm]
    have hpow : 2 ^ 53 ≤ 2 ^ Nat.log 2 n := Nat.pow_le_pow_right (by omega) (le_log hn)
    exact (hm.le.trans hpow).trans (roundToEven_bounds hn).1
  rcases Nat.eq_or_lt_of_le (Nat.log_mono_right (b := 2) h) with hlog | hlog
  · -- with one unit, the multiples and the remainders are compared
    have hq : m / 2 ^ (Nat.log 2 n - 52) ≤ n / 2 ^ (Nat.log 2 n - 52) := Nat.div_le_div_right h
    rw [roundToEven, if_neg (Nat.not_lt.2 hm), roundToEven, if_neg (Nat.not_lt.2 hn), hlog]
    dsimp only
    generalize 2 ^ (Nat.log 2 n - 52) = ulp at *
    rcases Nat.eq_or_lt_of_le hq with hq | hq
    · have hr : m % ulp ≤ n % ulp := by
        have hmdiv := Nat.div_add_mod m ulp
        have hndiv := Nat.div_add_mod n ulp
        rw [hq] at hmdiv
        omega
      rw [hq]
      split
      · rw [if_pos (by omega)]
      · split
        · exact Nat.mul_le_mul_right _ (Nat.le_succ _)
        · exact le_rfl
    · have hstep : (m / ulp + 1) * ulp ≤ n / ulp * ulp := Nat.mul_le_mul_right _ hq
      have hlow : m / ulp * ulp ≤ (m / ulp + 1) * ulp := Nat.mul_le_mul_right _ (Nat.le_succ _)
      have hhigh : n / ulp * ulp ≤ (n / ulp + 1) * ulp := Nat.mul_le_mul_right _ (Nat.le_succ _)
      split <;> split <;> omega
  · have hpow : 2 ^ (Nat.log 2 m + 1) ≤ 2 ^ Nat.log 2 n := Nat.pow_le_pow_right (by omega) hlog
    exact ((roundToEven_bounds hm).2.trans hpow).trans (roundToEven_bounds hn).1

theorem toDouble_mono (h : m ≤ n) : toDouble m ≤ toDouble n :=
  min_le_min (roundToEven_mono h) le_rfl

theorem le_toDouble (h : 2 ^ 53 ≤ m) : 2 ^ 53 ≤ toDouble m := by
  have hpow : 2 ^ 53 ≤ 2 ^ Nat.log 2 m := Nat.pow_le_pow_right (by omega) (le_log h)
  exact le_min (hpow.trans (roundToEven_bounds h).1) pow_le_INFINITY

theorem isDouble_toDouble (h : 2 ^ 53 ≤ m) : IsDouble (toDouble m) := by
  rcases Nat.lt_or_ge INFINITY (roundToEven m) with hlarge | hsmall
  · rw [toDouble, min_eq_right hlarge.le]
    exact isDouble_INFINITY
  · have hround := le_toDouble h
    rw [toDouble, min_eq_left hsmall] at hround ⊢
    obtain ⟨hlow, hhigh⟩ := roundToEven_bounds h
    rcases Nat.eq_or_lt_of_le hhigh with hpow | hlt
    · rw [hpow]
      have hlog := le_log h
      exact isDouble_pow (by omega)
    · refine ⟨hround, ?_⟩
      rw [Nat.log_eq_of_pow_le_of_lt_pow hlow hlt]
      rcases roundToEven_cases h with heq | heq
      · rw [heq]
        exact Dvd.intro_left _ rfl
      · rw [heq]
        exact Dvd.intro_left _ rfl

theorem toDouble_mul_add (h : IsDouble m) (hx : x < 256) :
    toDouble (m * 256 + x) = min (m * 256) INFINITY := by
  obtain ⟨hle, q, hq⟩ := h
  have hlog := le_log hle
  have hlt := Nat.lt_pow_succ_log_self (b := 2) (by omega) m
  have hlow := Nat.pow_log_le_self 2 (show m ≠ 0 by omega)
  have hlog' : Nat.log 2 (m * 256 + x) = Nat.log 2 m + 8 := by
    refine Nat.log_eq_of_pow_le_of_lt_pow ?_ ?_
    · rw [pow_add]
      omega
    · rw [show Nat.log 2 m + 8 + 1 = Nat.log 2 m + 1 + 8 by omega, pow_add]
      omega
  have hulp : 2 ^ (Nat.log 2 (m * 256 + x) - 52) = 2 ^ (Nat.log 2 m - 52) * 256 := by
    rw [hlog', show Nat.log 2 m + 8 - 52 = Nat.log 2 m - 52 + 8 by omega, pow_add]
    rfl
  have htwo : 2 ≤ 2 ^ (Nat.log 2 m - 52) := by
    calc 2 = 2 ^ 1 := rfl
      _ ≤ 2 ^ (Nat.log 2 m - 52) := Nat.pow_le_pow_right (by omega) (by omega)
  have hsplit : m * 256 + x = 2 ^ (Nat.log 2 m - 52) * 256 * q + x := by
    conv_lhs => rw [hq]
    rw [Nat.mul_right_comm]
  have hround : roundToEven (m * 256 + x) = m * 256 := by
    rw [roundToEven, if_neg (by omega), hulp]
    dsimp only
    generalize 2 ^ (Nat.log 2 m - 52) = ulp at *
    have hmod : (m * 256 + x) % (ulp * 256) = x := by
      rw [hsplit, Nat.mul_add_mod, Nat.mod_eq_of_lt (by omega)]
    have hdiv : (m * 256 + x) / (ulp * 256) = q := by
      rw [hsplit, Nat.mul_add_div (by omega), Nat.div_eq_of_lt (by omega), Nat.add_zero]
    rw [hmod, hdiv, if_neg (by omega), hq, ← Nat.mul_assoc, Nat.mul_comm q, Nat.mul_right_comm]
  rw [toDouble, hround]

end TsEthereum
