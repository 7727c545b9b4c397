import Mathlib.Data.Int.Bitwise
import Mathlib.Data.Nat.Digits.Defs
import Mathlib.Tactic.Ring

/-!
# Words of 256 bits

What the operations of a machine of 256-bit words come to, a word being a number below `2 ^ 256`
and its signed reading that of two's complement. The definitions are those of a specification:
one formula each, over numbers, with what is undefined on numbers set to zero.
-/

namespace TsEthereum

namespace Word

/-- The signed reading of a word. -/
def signed (a : ℕ) : ℤ := if a < 2 ^ 255 then a else (a : ℤ) - 2 ^ 256

/-- The word that an integer is written as. -/
def ofInt (x : ℤ) : ℕ := (x % 2 ^ 256).toNat

/-! ## Arithmetic -/

def add (a b : ℕ) : ℕ := (a + b) % 2 ^ 256

def mul (a b : ℕ) : ℕ := a * b % 2 ^ 256

def sub (a b : ℕ) : ℕ := ofInt (a - b)

def div (a b : ℕ) : ℕ := if b = 0 then 0 else a / b

/-- The quotient is rounded towards zero, and the one that is no signed word wraps. -/
def sdiv (a b : ℕ) : ℕ :=
  if b = 0 then 0
  else if signed a = -2 ^ 255 ∧ signed b = -1 then ofInt (-2 ^ 255)
  else
    ofInt ((signed a).sign * (signed b).sign * ((signed a).natAbs / (signed b).natAbs : ℕ))

def mod (a b : ℕ) : ℕ := if b = 0 then 0 else a % b

/-- The remainder has the sign of the dividend. -/
def smod (a b : ℕ) : ℕ :=
  if b = 0 then 0 else ofInt ((signed a).sign * ((signed a).natAbs % (signed b).natAbs : ℕ))

/-- The sum is not cut off before its remainder is taken. -/
def addmod (a b n : ℕ) : ℕ := if n = 0 then 0 else (a + b) % n

def mulmod (a b n : ℕ) : ℕ := if n = 0 then 0 else a * b % n

def exp (a b : ℕ) : ℕ := a ^ b % 2 ^ 256

/-- The low `k + 1` bytes, read in two's complement. -/
def signextend (k x : ℕ) : ℕ := if k < 31 then ofInt (Int.bmod x (2 ^ (8 * k + 8))) else x

/-! ## Bits -/

def not (a : ℕ) : ℕ := 2 ^ 256 - 1 - a

/-- The byte of a place, from the most significant on. -/
def byte (i x : ℕ) : ℕ := if i < 32 then x / 256 ^ (31 - i) % 256 else 0

def shl (shift value : ℕ) : ℕ := if 256 ≤ shift then 0 else value * 2 ^ shift % 2 ^ 256

def shr (shift value : ℕ) : ℕ := if 256 ≤ shift then 0 else value / 2 ^ shift

/-- The signed quotient, rounded down. -/
def sar (shift value : ℕ) : ℕ :=
  if 256 ≤ shift then if signed value < 0 then 2 ^ 256 - 1 else 0
  else ofInt (signed value / 2 ^ shift)

/-- How many of the most significant bits are zero. -/
def clz (x : ℕ) : ℕ := Nat.findGreatest (fun n => x < 2 ^ (256 - n)) 256

/-! ## Words and integers -/

theorem ofInt_lt (x : ℤ) : ofInt x < 2 ^ 256 := by
  rw [ofInt]
  omega

theorem natCast_ofInt (x : ℤ) : (ofInt x : ℤ) = x % 2 ^ 256 := by
  rw [ofInt]
  omega

theorem mod_lt {x n : ℕ} (hn : n < 2 ^ 256) (h : n ≠ 0) : x % n < 2 ^ 256 :=
  (Nat.mod_lt _ (Nat.pos_of_ne_zero h)).trans hn

theorem or_high {x k n : ℕ} (hx : x < 2 ^ n) (hk : k ≤ n) :
    x ||| (2 ^ n - 2 ^ k) = x % 2 ^ k + (2 ^ n - 2 ^ k) := by
  obtain ⟨d, rfl⟩ := Nat.exists_eq_add_of_le hk
  have hlow : x % 2 ^ k < 2 ^ k := Nat.mod_lt _ (Nat.two_pow_pos k)
  have hquotient : x / 2 ^ k < 2 ^ d := by
    rw [Nat.div_lt_iff_lt_mul (Nat.two_pow_pos k), Nat.mul_comm, ← Nat.pow_add]
    exact hx
  have hhigh : 2 ^ (k + d) - 2 ^ k = 2 ^ k * (2 ^ d - 1) := by
    rw [Nat.pow_add, Nat.mul_sub, Nat.mul_one]
  have hor : x / 2 ^ k ||| (2 ^ d - 1) = 2 ^ d - 1 := by
    apply Nat.eq_of_testBit_eq
    intro i
    rw [Nat.testBit_or, Nat.testBit_two_pow_sub_one]
    by_cases hi : i < d
    · simp [hi]
    · have hzero : (x / 2 ^ k).testBit i = false :=
        Nat.testBit_lt_two_pow (hquotient.trans_le (Nat.pow_le_pow_right (by decide) (by omega)))
      simp [hi, hzero]
  have hsplit : x = 2 ^ k * (x / 2 ^ k) ||| x % 2 ^ k := by
    rw [← Nat.two_pow_add_eq_or_of_lt hlow, Nat.div_add_mod]
  calc x ||| (2 ^ (k + d) - 2 ^ k)
      = 2 ^ k * (x / 2 ^ k) ||| x % 2 ^ k ||| 2 ^ k * (2 ^ d - 1) := by rw [hhigh, ← hsplit]
    _ = 2 ^ k * (x / 2 ^ k ||| (2 ^ d - 1)) ||| x % 2 ^ k := by
      rw [Nat.or_assoc, Nat.or_comm (x % 2 ^ k), ← Nat.or_assoc]
      congr 1
      simp only [Nat.mul_comm (2 ^ k), ← Nat.shiftLeft_eq, Nat.shiftLeft_or_distrib]
    _ = x % 2 ^ k + (2 ^ (k + d) - 2 ^ k) := by
      rw [hor, ← Nat.two_pow_add_eq_or_of_lt hlow, hhigh, Nat.add_comm]

theorem tdiv_eq (x y : ℤ) : x.tdiv y = x.sign * y.sign * (x.natAbs / y.natAbs : ℕ) := by
  rcases Int.eq_nat_or_neg x with ⟨m, rfl | rfl⟩ <;> rcases Int.eq_nat_or_neg y with ⟨n, rfl | rfl⟩
  all_goals
    rcases Nat.eq_zero_or_pos m with rfl | hm
    · simp
    rcases Nat.eq_zero_or_pos n with rfl | hn
    · simp
    have hsm : (m : ℤ).sign = 1 := Int.sign_eq_one_of_pos (by omega)
    have hsn : (n : ℤ).sign = 1 := Int.sign_eq_one_of_pos (by omega)
    simp [hsm, hsn]

theorem tmod_eq (x y : ℤ) : x.tmod y = x.sign * (x.natAbs % y.natAbs : ℕ) := by
  rcases Int.eq_nat_or_neg x with ⟨m, rfl | rfl⟩ <;> rcases Int.eq_nat_or_neg y with ⟨n, rfl | rfl⟩
  all_goals
    rcases Nat.eq_zero_or_pos m with rfl | hm
    · simp
    have hsm : (m : ℤ).sign = 1 := Int.sign_eq_one_of_pos (by omega)
    have hmod : (m : ℤ).tmod n = m % n := Int.tmod_eq_emod_of_nonneg (by omega)
    simp [hsm, hmod]

end Word

end TsEthereum
