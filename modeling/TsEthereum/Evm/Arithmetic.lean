import TsEthereum.Common.Words
import TsEthereum.Evm.Frame

/-!
# The arithmetic and the bitwise instructions

The handlers of `arithmetic.ts` and `bitwise.ts`, over a stack of `bigint`s that are not bounded:
what keeps to 256 bits is a `mod`, an `asUintN` or a mask in the handler. On operands that are
words each pushes the word that the machine's own operation comes to.
-/

namespace TsEthereum.Evm

/-! ## The stack -/

/-- A `Stack`, the top first. -/
abbrev Stack : Type := List ℤ

/-- `_maxHeight`. -/
def stackMaxHeight : ℕ := 1024

def Stack.push (s : Stack) (value : ℤ) : Except EVMErrorMessage Stack :=
  if stackMaxHeight ≤ List.length s then .error .STACK_OVERFLOW else .ok (value :: s)

/-- What runs an instruction. -/
abbrev ExecuteFunc : Type := Stack → Except EVMErrorMessage Stack

/-- `pop` and a `push`. -/
def unary (f : ℤ → ℤ) : ExecuteFunc
  | a :: s => Stack.push s (f a)
  | _ => .error .STACK_UNDERFLOW

/-- `popN(2)` and a `push`. -/
def binary (f : ℤ → ℤ → ℤ) : ExecuteFunc
  | a :: b :: s => Stack.push s (f a b)
  | _ => .error .STACK_UNDERFLOW

/-- `popN(3)` and a `push`. -/
def ternary (f : ℤ → ℤ → ℤ → ℤ) : ExecuteFunc
  | a :: b :: c :: s => Stack.push s (f a b c)
  | _ => .error .STACK_UNDERFLOW

/-! ## The helpers -/

def MAX_INTEGER_BIGINT : ℤ :=
  115792089237316195423570985008687907853269984665640564039457584007913129639935

def TWO_POW256 : ℤ := 0x10000000000000000000000000000000000000000000000000000000000000000

def BIGINT_2EXP96 : ℤ := 79228162514264337593543950336

def BIGINT_2EXP160 : ℤ := 1461501637330902918203684832716283019655932542976

def BIGINT_2EXP224 : ℤ := 26959946667150639794667015087019630673637144422540572481103610249216

/-- `BigInt.asUintN(256, a)`. -/
def asUint256 (a : ℤ) : ℤ := a % 2 ^ 256

/-- `BigInt.asIntN(256, a)`. -/
def asInt256 (a : ℤ) : ℤ := Int.bmod a (2 ^ 256)

/-- **`mod`**: `%` has the sign of the dividend. -/
def mod (a b : ℤ) : ℤ :=
  let r := a.tmod b
  if r < 0 then b + r else r

def fromTwos (a : ℤ) : ℤ := asInt256 a

def toTwos (a : ℤ) : ℤ := asUint256 a

def N : ℤ := 115792089237316195423570985008687907853269984665640564039457584007913129639936

/-- The loop of `exponentiation`. -/
def exponentiationLoop (t bas exp : ℤ) : ℤ :=
  if _h : 0 < exp then
    exponentiationLoop (if exp.tmod 2 ≠ 0 then (t * bas).tmod N else t) ((bas * bas).tmod N)
      (exp.tdiv 2)
  else t
termination_by exp.toNat
decreasing_by
  rw [Int.tdiv_eq_ediv_of_nonneg (by omega)]
  omega

/-- **`exponentiation`**. -/
def exponentiation (bas exp : ℤ) : ℤ := exponentiationLoop 1 bas exp

/-! ## Arithmetic -/

def opAdd : ExecuteFunc := binary fun a b => mod (a + b) TWO_POW256

def opMul : ExecuteFunc := binary fun a b => mod (a * b) TWO_POW256

def opSub : ExecuteFunc := binary fun a b => mod (a - b) TWO_POW256

def opDiv : ExecuteFunc := binary fun a b => if b = 0 then 0 else mod (a.tdiv b) TWO_POW256

def opSdiv : ExecuteFunc :=
  binary fun a b => if b = 0 then 0 else toTwos ((fromTwos a).tdiv (fromTwos b))

def opMod : ExecuteFunc := binary fun a b => if b = 0 then b else mod a b

def opSmod : ExecuteFunc :=
  binary fun a b => toTwos (if b = 0 then b else (fromTwos a).tmod (fromTwos b))

def opAddmod : ExecuteFunc := ternary fun a b c => if c = 0 then 0 else mod (a + b) c

def opMulmod : ExecuteFunc := ternary fun a b c => if c = 0 then 0 else mod (a * b) c

def opExp : ExecuteFunc := binary fun base exponent =>
  if base = 2 ∧ exponent = 96 then BIGINT_2EXP96
  else if base = 2 ∧ exponent = 160 then BIGINT_2EXP160
  else if base = 2 ∧ exponent = 224 then BIGINT_2EXP224
  else if exponent = 0 then 1
  else if base = 0 then base
  else exponentiation base exponent

def opSignextend : ExecuteFunc := binary fun k val =>
  if k < 31 then
    let signBit := k * 8 + 7
    let mask := (1 : ℤ) <<< signBit - 1
    if Int.land (val >>> signBit) 1 ≠ 0 then Int.lor val (asUint256 (Int.lnot mask))
    else Int.land val mask
  else val

/-! ## Bits -/

def opAnd : ExecuteFunc := binary Int.land

def opOr : ExecuteFunc := binary Int.lor

def opXor : ExecuteFunc := binary Int.xor

def opNot : ExecuteFunc := unary fun a => asUint256 (Int.lnot a)

def opByte : ExecuteFunc := binary fun pos word =>
  if 32 < pos then 0 else Int.land (word >>> ((31 - pos) * 8)) 255

def opShl : ExecuteFunc := binary fun a b =>
  if 256 < a then 0 else Int.land (b <<< a) MAX_INTEGER_BIGINT

def opShr : ExecuteFunc := binary fun a b => if 256 < a then 0 else b >>> a

def opSar : ExecuteFunc := binary fun a b =>
  let bComp := asInt256 b
  let isSigned := bComp < 0
  if 256 < a then if isSigned then MAX_INTEGER_BIGINT else 0
  else
    let c := b >>> a
    if isSigned then
      let shiftedOutWidth := 255 - a
      let mask := (MAX_INTEGER_BIGINT >>> shiftedOutWidth) <<< shiftedOutWidth
      Int.lor c mask
    else c

/-- The length of `x.toString(2)`. -/
def binaryLength (x : ℤ) : ℕ := (Nat.digits 2 x.toNat).length

def opClz : ExecuteFunc := unary fun x => if x = 0 then 256 else 256 - binaryLength x

/-! ## What the helpers come to -/

section

variable {a b : ℤ}

theorem TWO_POW256_eq : TWO_POW256 = 2 ^ 256 := by decide

theorem N_eq : N = 2 ^ 256 := by decide

theorem MAX_INTEGER_BIGINT_eq : MAX_INTEGER_BIGINT = ((2 ^ 256 - 1 : ℕ) : ℤ) := by decide

theorem mod_eq_emod (hb : 0 < b) : mod a b = a % b := by
  have hnonneg := Int.emod_nonneg a hb.ne'
  have hlt := Int.emod_lt_of_pos a hb
  rw [mod, Int.tmod_eq_emod]
  split <;> split <;> omega

theorem fromTwos_natCast {x : ℕ} (hx : x < 2 ^ 256) : fromTwos x = Word.signed x := by
  rw [fromTwos, asInt256, Int.bmod, Word.signed]
  split <;> split <;> omega

theorem toTwos_eq (x : ℤ) : toTwos x = (Word.ofInt x : ℤ) := (Word.natCast_ofInt x).symm

theorem exponentiationLoop_eq (exp t bas : ℕ) (ht : t < 2 ^ 256) :
    exponentiationLoop t bas exp = ((t * bas ^ exp % 2 ^ 256 : ℕ) : ℤ) := by
  induction exp using Nat.strong_induction_on generalizing t bas with
  | _ exp ih =>
    rw [exponentiationLoop]
    by_cases hpos : 0 < exp
    · have hodd : (if (exp : ℤ).tmod 2 ≠ 0 then ((t : ℤ) * bas).tmod N else t) =
          ((if exp % 2 = 1 then t * bas % 2 ^ 256 else t : ℕ) : ℤ) := by
        rw [Int.tmod_eq_emod_of_nonneg (by omega), Int.tmod_eq_emod_of_nonneg (by positivity), N_eq]
        by_cases hparity : exp % 2 = 1
        · rw [if_pos (by omega), if_pos hparity]
          push_cast
          rfl
        · rw [if_neg (by omega), if_neg hparity]
      have hsquare : ((bas : ℤ) * bas).tmod N = ((bas * bas % 2 ^ 256 : ℕ) : ℤ) := by
        rw [Int.tmod_eq_emod_of_nonneg (by positivity), N_eq]
        push_cast
        rfl
      have hhalf : (exp : ℤ).tdiv 2 = ((exp / 2 : ℕ) : ℤ) := by
        rw [Int.tdiv_eq_ediv_of_nonneg (by omega)]
        omega
      rw [dif_pos (by omega), hodd, hsquare, hhalf, ih (exp / 2) (by omega)]
      · congr 1
        -- an odd exponent has taken one factor into `t`
        have hpow : (bas * bas % 2 ^ 256) ^ (exp / 2) % 2 ^ 256 = (bas * bas) ^ (exp / 2) % 2 ^ 256 :=
          (Nat.pow_mod _ _ _).symm
        have hdouble : (bas * bas) ^ (exp / 2) = bas ^ (2 * (exp / 2)) := by
          rw [← pow_two, ← pow_mul]
        by_cases hparity : exp % 2 = 1
        · rw [if_pos hparity, Nat.mul_mod, Nat.mod_mod, hpow, ← Nat.mul_mod, hdouble, Nat.mul_assoc,
            ← pow_succ', show 2 * (exp / 2) + 1 = exp by omega]
        · rw [if_neg hparity, Nat.mul_mod, hpow, ← Nat.mul_mod, hdouble,
            show 2 * (exp / 2) = exp by omega]
      · split
        · exact Nat.mod_lt _ (by decide)
        · exact ht
    · obtain rfl : exp = 0 := by omega
      rw [dif_neg (by omega), pow_zero, Nat.mul_one, Nat.mod_eq_of_lt ht]

end

/-! ## What the handlers push -/

section

variable {a b c : ℕ}

theorem mod_two_pow (x : ℤ) : mod x TWO_POW256 = (Word.ofInt x : ℤ) := by
  rw [mod_eq_emod (by rw [TWO_POW256_eq]; norm_num), TWO_POW256_eq, Word.natCast_ofInt]

theorem ofInt_natCast (x : ℕ) : Word.ofInt x = x % 2 ^ 256 := by
  rw [Word.ofInt]
  omega

theorem mod_natCast (hb : b ≠ 0) : mod a b = ((a % b : ℕ) : ℤ) := by
  rw [mod_eq_emod (by omega)]
  push_cast
  rfl

theorem div_eq (ha : a < 2 ^ 256) :
    (if (b : ℤ) = 0 then 0 else mod ((a : ℤ).tdiv b) TWO_POW256) = (Word.div a b : ℤ) := by
  rw [Word.div]
  by_cases hb : b = 0
  · rw [if_pos (by omega), if_pos hb]
    rfl
  · have hquotient : (a : ℤ).tdiv b = ((a / b : ℕ) : ℤ) := by
      rw [Int.tdiv_eq_ediv_of_nonneg (by omega)]
      push_cast
      rfl
    rw [if_neg (by omega), if_neg hb, hquotient, mod_two_pow, ofInt_natCast,
      Nat.mod_eq_of_lt ((Nat.div_le_self a b).trans_lt ha)]

theorem sdiv_eq (ha : a < 2 ^ 256) (hb : b < 2 ^ 256) :
    (if (b : ℤ) = 0 then 0 else toTwos ((fromTwos a).tdiv (fromTwos b))) = (Word.sdiv a b : ℤ) := by
  rw [Word.sdiv]
  by_cases hzero : b = 0
  · rw [if_pos (by omega), if_pos hzero]
    rfl
  · rw [if_neg (by omega), if_neg hzero, fromTwos_natCast ha, fromTwos_natCast hb, toTwos_eq]
    by_cases hwraps : Word.signed a = -2 ^ 255 ∧ Word.signed b = -1
    · rw [if_pos hwraps, hwraps.1, hwraps.2]
      decide
    · rw [if_neg hwraps, Word.tdiv_eq]

theorem mod_eq (a b : ℕ) : (if (b : ℤ) = 0 then (b : ℤ) else mod a b) = (Word.mod a b : ℤ) := by
  rw [Word.mod]
  by_cases hb : b = 0
  · rw [if_pos (by omega), if_pos hb, hb]
  · rw [if_neg (by omega), if_neg hb, mod_natCast hb]

theorem smod_eq (ha : a < 2 ^ 256) (hb : b < 2 ^ 256) :
    toTwos (if (b : ℤ) = 0 then (b : ℤ) else (fromTwos a).tmod (fromTwos b)) =
      (Word.smod a b : ℤ) := by
  rw [Word.smod]
  by_cases hzero : b = 0
  · rw [if_pos (by omega), if_pos hzero, hzero]
    rfl
  · rw [if_neg (by omega), if_neg hzero, fromTwos_natCast ha, fromTwos_natCast hb, toTwos_eq,
      Word.tmod_eq]

theorem ternary_mod (x c : ℕ) :
    (if (c : ℤ) = 0 then 0 else mod x c) = ((if c = 0 then 0 else x % c : ℕ) : ℤ) := by
  by_cases hc : c = 0
  · rw [if_pos (by omega), if_pos hc]
    rfl
  · rw [if_neg (by omega), if_neg hc, mod_natCast hc]

theorem exp_eq (a b : ℕ) :
    (if (a : ℤ) = 2 ∧ (b : ℤ) = 96 then BIGINT_2EXP96
      else if (a : ℤ) = 2 ∧ (b : ℤ) = 160 then BIGINT_2EXP160
      else if (a : ℤ) = 2 ∧ (b : ℤ) = 224 then BIGINT_2EXP224
      else if (b : ℤ) = 0 then 1
      else if (a : ℤ) = 0 then (a : ℤ)
      else exponentiation a b) = (Word.exp a b : ℤ) := by
  rw [Word.exp]
  split
  · next h =>
    obtain rfl : a = 2 := by omega
    obtain rfl : b = 96 := by omega
    decide
  · split
    · next h =>
      obtain rfl : a = 2 := by omega
      obtain rfl : b = 160 := by omega
      decide
    · split
      · next h =>
        obtain rfl : a = 2 := by omega
        obtain rfl : b = 224 := by omega
        decide
      · split
        · next h =>
          obtain rfl : b = 0 := by omega
          rw [pow_zero]
          decide
        · split
          · next hb ha =>
            obtain rfl : a = 0 := by omega
            rw [zero_pow (by omega)]
            rfl
          · have hloop := exponentiationLoop_eq b 1 a (by decide)
            rw [Nat.one_mul] at hloop
            rw [exponentiation, ← hloop]
            rfl

/-! ### Masks and shifts -/

theorem land_natCast (x y : ℕ) : Int.land x y = ((x &&& y : ℕ) : ℤ) := rfl

theorem lor_natCast (x y : ℕ) : Int.lor x y = ((x ||| y : ℕ) : ℤ) := rfl

theorem land_mask (x n : ℕ) : Int.land x ((2 ^ n - 1 : ℕ) : ℤ) = ((x % 2 ^ n : ℕ) : ℤ) := by
  rw [land_natCast, Nat.and_two_pow_sub_one_eq_mod]

theorem shiftRight_eq (x n : ℕ) : (x : ℤ) >>> (n : ℤ) = ((x / 2 ^ n : ℕ) : ℤ) := by
  rw [Int.shiftRight_natCast, Nat.shiftRight_eq_div_pow]

theorem shiftLeft_eq (x n : ℕ) : (x : ℤ) <<< (n : ℤ) = ((x * 2 ^ n : ℕ) : ℤ) := by
  rw [Int.shiftLeft_natCast, Nat.shiftLeft_eq]

theorem not_eq (ha : a < 2 ^ 256) : asUint256 (Int.lnot a) = (Word.not a : ℤ) := by
  have hlnot : Int.lnot a = -(a : ℤ) - 1 := by
    change Int.negSucc a = _
    omega
  rw [asUint256, hlnot, Word.not]
  omega

theorem byte_eq (a b : ℕ) :
    (if 32 < (a : ℤ) then 0 else Int.land ((b : ℤ) >>> ((31 - (a : ℤ)) * 8)) 255) =
      (Word.byte a b : ℤ) := by
  have hmask : (255 : ℤ) = ((2 ^ 8 - 1 : ℕ) : ℤ) := by decide
  rw [Word.byte, hmask]
  by_cases hlt : a < 32
  · have hwidth : (31 - (a : ℤ)) * 8 = ((8 * (31 - a) : ℕ) : ℤ) := by omega
    rw [if_neg (by omega), if_pos hlt, hwidth, shiftRight_eq, land_mask, Nat.pow_mul]
    rfl
  · rw [if_neg hlt]
    by_cases heq : a = 32
    · have hwidth : (31 - (a : ℤ)) * 8 = -((8 : ℕ) : ℤ) := by omega
      rw [if_neg (by omega), hwidth, Int.shiftRight_neg, shiftLeft_eq, land_mask,
        Nat.mul_mod_left]
    · rw [if_pos (by omega)]
      rfl

theorem shl_eq (a b : ℕ) :
    (if 256 < (a : ℤ) then 0 else Int.land ((b : ℤ) <<< (a : ℤ)) MAX_INTEGER_BIGINT) =
      (Word.shl a b : ℤ) := by
  rw [Word.shl]
  by_cases hlt : 256 < a
  · rw [if_pos (by omega), if_pos hlt.le]
    rfl
  · rw [if_neg (by omega), shiftLeft_eq, MAX_INTEGER_BIGINT_eq, land_mask]
    by_cases heq : a = 256
    · rw [heq, if_pos le_rfl, Nat.mul_mod_left]
    · rw [if_neg (by omega)]

theorem shr_eq (hb : b < 2 ^ 256) :
    (if 256 < (a : ℤ) then 0 else (b : ℤ) >>> (a : ℤ)) = (Word.shr a b : ℤ) := by
  rw [Word.shr]
  by_cases hlt : 256 < a
  · rw [if_pos (by omega), if_pos hlt.le]
    rfl
  · rw [if_neg (by omega), shiftRight_eq]
    by_cases heq : a = 256
    · rw [heq, if_pos le_rfl, Nat.div_eq_of_lt hb]
    · rw [if_neg (by omega)]

theorem high_mask {k : ℕ} (hk : k ≤ 256) :
    (2 ^ 256 - 1) / 2 ^ k * 2 ^ k = 2 ^ 256 - 2 ^ k := by
  obtain ⟨d, hd⟩ := Nat.exists_eq_add_of_le hk
  have hpos : 0 < 2 ^ k := Nat.two_pow_pos k
  have hpow : 2 ^ 256 = 2 ^ k * 2 ^ d := by rw [hd, Nat.pow_add]
  have hd' : 0 < 2 ^ d := Nat.two_pow_pos d
  have hquotient : (2 ^ k * 2 ^ d - 1) / 2 ^ k = 2 ^ d - 1 := by
    rw [Nat.div_eq_iff hpos]
    have hmul : (2 ^ d - 1) * 2 ^ k = 2 ^ k * 2 ^ d - 2 ^ k := by
      rw [Nat.sub_mul, Nat.one_mul, Nat.mul_comm]
    have hle : 2 ^ k ≤ 2 ^ k * 2 ^ d := Nat.le_mul_of_pos_right _ hd'
    omega
  rw [hpow, hquotient, Nat.sub_mul, Nat.one_mul, Nat.mul_comm (2 ^ d)]

/-- **A negative word, shifted**: the mask puts in the ones that the shift of a number that is not
negative left out. -/
theorem sar_negative {k : ℕ} (ha : a + k = 255) (hb : b < 2 ^ 256) (hneg : 2 ^ 255 ≤ b) :
    Int.lor ((b / 2 ^ a : ℕ) : ℤ) ((2 ^ 256 - 2 ^ k : ℕ) : ℤ) =
      (Word.ofInt (((b : ℤ) - 2 ^ 256) / 2 ^ a) : ℤ) := by
  have hposa : 0 < 2 ^ a := Nat.two_pow_pos a
  have hquotient : b / 2 ^ a < 2 ^ (k + 1) := by
    rw [Nat.div_lt_iff_lt_mul hposa, ← Nat.pow_add, show k + 1 + a = 256 by omega]
    exact hb
  have hle : 2 ^ k ≤ b / 2 ^ a := by
    rw [Nat.le_div_iff_mul_le hposa, ← Nat.pow_add, show k + a = 255 by omega]
    exact hneg
  have hpow : 2 ^ (k + 1) = 2 ^ k * 2 := Nat.pow_succ 2 k
  have hhigh : 2 ^ (k + 1) ≤ 2 ^ 256 := Nat.pow_le_pow_right (by decide) (by omega)
  have hsub : ((b : ℤ) - 2 ^ 256) / 2 ^ a = ((b / 2 ^ a : ℕ) : ℤ) - ((2 ^ (k + 1) : ℕ) : ℤ) := by
    have hsplit : (2 : ℤ) ^ 256 = 2 ^ (k + 1) * 2 ^ a := by
      rw [← pow_add, show k + 1 + a = 256 by omega]
    rw [hsplit, Int.sub_mul_ediv_right _ _ (by positivity)]
    push_cast
    rfl
  have hlow : b / 2 ^ a % 2 ^ k = b / 2 ^ a - 2 ^ k := by
    rw [hpow] at hquotient
    rw [Nat.mod_eq_sub_mod hle, Nat.mod_eq_of_lt (by omega)]
  rw [lor_natCast, Word.or_high (hquotient.trans_le hhigh) (by omega), hlow, Word.natCast_ofInt, hsub]
  rw [hpow] at hquotient hhigh ⊢
  generalize b / 2 ^ a = q at *
  generalize 2 ^ k = p at *
  omega

theorem sar_eq (hb : b < 2 ^ 256) :
    (if 256 < (a : ℤ) then if asInt256 b < 0 then MAX_INTEGER_BIGINT else 0
      else if asInt256 b < 0 then
        Int.lor ((b : ℤ) >>> (a : ℤ))
          ((MAX_INTEGER_BIGINT >>> (255 - (a : ℤ))) <<< (255 - (a : ℤ)))
      else (b : ℤ) >>> (a : ℤ)) = (Word.sar a b : ℤ) := by
  have hsigned : asInt256 b = Word.signed b := fromTwos_natCast hb
  rw [Word.sar, hsigned, MAX_INTEGER_BIGINT_eq]
  by_cases hlt : 256 < a
  · rw [if_pos (by omega), if_pos hlt.le]
    split
    · rfl
    · rfl
  · rw [if_neg (by omega), shiftRight_eq]
    by_cases hneg : Word.signed b < 0
    · rw [if_pos hneg]
      have hhalf : 2 ^ 255 ≤ b := by
        rw [Word.signed] at hneg
        split at hneg
        · omega
        · omega
      by_cases heq : a = 256
      · -- the width is negative, and the shifts are the other way round
        have hwidth : (255 - (a : ℤ)) = -((1 : ℕ) : ℤ) := by omega
        rw [if_pos (by omega), if_pos hneg, hwidth, Int.shiftRight_neg, Int.shiftLeft_neg,
          shiftLeft_eq, shiftRight_eq, heq, Nat.div_eq_of_lt hb]
        decide
      · have hwidth : (255 - (a : ℤ)) = ((255 - a : ℕ) : ℤ) := by omega
        have hval : Word.signed b = (b : ℤ) - 2 ^ 256 := by rw [Word.signed, if_neg (by omega)]
        rw [if_neg (by omega), hwidth, shiftRight_eq, shiftLeft_eq, high_mask (by omega), hval]
        exact sar_negative (by omega) hb hhalf
    · rw [if_neg hneg]
      have hval : Word.signed b = b := by
        rw [Word.signed] at hneg ⊢
        split at hneg
        · next hlt => rw [if_pos hlt]
        · omega
      by_cases heq : a = 256
      · rw [if_pos (by omega), if_neg hneg, heq, Nat.div_eq_of_lt hb]
      · have hcast : (b : ℤ) / 2 ^ a = ((b / 2 ^ a : ℕ) : ℤ) := by
          push_cast
          rfl
        rw [if_neg (by omega), hval, hcast, ofInt_natCast,
          Nat.mod_eq_of_lt ((Nat.div_le_self b _).trans_lt hb)]

theorem signextend_eq (hb : b < 2 ^ 256) :
    (if (a : ℤ) < 31 then
      if Int.land ((b : ℤ) >>> ((a : ℤ) * 8 + 7)) 1 ≠ 0 then
        Int.lor b (asUint256 (Int.lnot ((1 : ℤ) <<< ((a : ℤ) * 8 + 7) - 1)))
      else Int.land b ((1 : ℤ) <<< ((a : ℤ) * 8 + 7) - 1)
    else (b : ℤ)) = (Word.signextend a b : ℤ) := by
  rw [Word.signextend]
  by_cases hlt : a < 31
  · have hbit : (a : ℤ) * 8 + 7 = ((8 * a + 7 : ℕ) : ℤ) := by omega
    have hpos : 0 < 2 ^ (8 * a + 7) := Nat.two_pow_pos _
    have hpow : 2 ^ (8 * a + 8) = 2 ^ (8 * a + 7) * 2 := Nat.pow_succ 2 (8 * a + 7)
    have hle : 2 ^ (8 * a + 8) ≤ 2 ^ 256 := Nat.pow_le_pow_right (by decide) (by omega)
    have hmask : (1 : ℤ) <<< ((8 * a + 7 : ℕ) : ℤ) - 1 = ((2 ^ (8 * a + 7) - 1 : ℕ) : ℤ) := by
      rw [Int.one_shiftLeft]
      omega
    have hlnot : asUint256 (Int.lnot ((2 ^ (8 * a + 7) - 1 : ℕ) : ℤ)) =
        ((2 ^ 256 - 2 ^ (8 * a + 7) : ℕ) : ℤ) := by
      have hneg : Int.lnot ((2 ^ (8 * a + 7) - 1 : ℕ) : ℤ) =
          -((2 ^ (8 * a + 7) - 1 : ℕ) : ℤ) - 1 := by
        change Int.negSucc (2 ^ (8 * a + 7) - 1) = _
        omega
      rw [asUint256, hneg]
      omega
    have hone : Int.land ((b / 2 ^ (8 * a + 7) : ℕ) : ℤ) 1 =
        ((b / 2 ^ (8 * a + 7) % 2 : ℕ) : ℤ) := land_mask _ 1
    have hsplit : b % 2 ^ (8 * a + 8) =
        b % 2 ^ (8 * a + 7) + 2 ^ (8 * a + 7) * (b / 2 ^ (8 * a + 7) % 2) := by
      rw [hpow, Nat.mod_mul]
    have hlow : b % 2 ^ (8 * a + 7) < 2 ^ (8 * a + 7) := Nat.mod_lt _ hpos
    have hcast : (b : ℤ) % ((2 ^ (8 * a + 8) : ℕ) : ℤ) = ((b % 2 ^ (8 * a + 8) : ℕ) : ℤ) := by
      push_cast
      rfl
    rw [if_pos (by omega), if_pos hlt, hbit, shiftRight_eq, hmask, hlnot, hone, land_mask,
      lor_natCast, Word.or_high hb (by omega), Word.natCast_ofInt, Int.bmod, hcast, hsplit, hpow]
    generalize b % 2 ^ (8 * a + 7) = low at *
    generalize 2 ^ (8 * a + 7) = p at *
    rcases Nat.mod_two_eq_zero_or_one (b / p) with hzero | hone
    · rw [hzero, if_neg (by simp), Nat.mul_zero, Nat.add_zero, if_pos (by omega)]
      omega
    · rw [hone, if_pos (by simp), Nat.mul_one, if_neg (by omega)]
      omega
  · rw [if_neg (by omega), if_neg hlt]

/-- **The binary numeral has no leading zeros**, so its length says how many there are. -/
theorem clz_eq (ha : a < 2 ^ 256) :
    (if (a : ℤ) = 0 then 256 else 256 - (binaryLength a : ℤ)) = (Word.clz a : ℤ) := by
  by_cases hzero : a = 0
  · rw [if_pos (by omega), hzero, Word.clz]
    have hfind : Nat.findGreatest (fun n => 0 < 2 ^ (256 - n)) 256 = 256 :=
      Nat.findGreatest_eq_iff.2 ⟨le_rfl, fun _ => Nat.two_pow_pos _, fun n hlt hle => by omega⟩
    rw [hfind]
    rfl
  · have hlog : Nat.log 2 a < 256 := (Nat.log_lt_iff_lt_pow (by decide) hzero).2 ha
    have hfind : Word.clz a = 255 - Nat.log 2 a := by
      rw [Word.clz, Nat.findGreatest_eq_iff]
      refine ⟨by omega, fun _ => ?_, fun n hlt hle => ?_⟩
      · rw [← Nat.log_lt_iff_lt_pow (by decide) hzero]
        omega
      · rw [← Nat.log_lt_iff_lt_pow (by decide) hzero]
        omega
    rw [if_neg (by omega), hfind, binaryLength, Int.toNat_natCast,
      Nat.length_digits 2 a (by decide) hzero]
    omega

end

/-! ## The instructions -/

/-- **The arithmetic and the bitwise instructions.** -/
inductive WordOp where
  | ADD | MUL | SUB | DIV | SDIV | MOD | SMOD | ADDMOD | MULMOD | EXP | SIGNEXTEND
  | AND | OR | XOR | NOT | BYTE | SHL | SHR | SAR | CLZ

namespace WordOp

/-- `arithmeticHandlers` and `bitwiseHandlers`. -/
def handler : WordOp → ExecuteFunc
  | ADD => opAdd
  | MUL => opMul
  | SUB => opSub
  | DIV => opDiv
  | SDIV => opSdiv
  | MOD => opMod
  | SMOD => opSmod
  | ADDMOD => opAddmod
  | MULMOD => opMulmod
  | EXP => opExp
  | SIGNEXTEND => opSignextend
  | AND => opAnd
  | OR => opOr
  | XOR => opXor
  | NOT => opNot
  | BYTE => opByte
  | SHL => opShl
  | SHR => opShr
  | SAR => opSar
  | CLZ => opClz

/-- **What an instruction is to come to**, of its operands from the top of the stack on; `none`
where they are not as many as it takes. -/
def semantics : WordOp → List ℕ → Option ℕ
  | ADD, [a, b] => some (Word.add a b)
  | MUL, [a, b] => some (Word.mul a b)
  | SUB, [a, b] => some (Word.sub a b)
  | DIV, [a, b] => some (Word.div a b)
  | SDIV, [a, b] => some (Word.sdiv a b)
  | MOD, [a, b] => some (Word.mod a b)
  | SMOD, [a, b] => some (Word.smod a b)
  | ADDMOD, [a, b, n] => some (Word.addmod a b n)
  | MULMOD, [a, b, n] => some (Word.mulmod a b n)
  | EXP, [a, b] => some (Word.exp a b)
  | SIGNEXTEND, [k, x] => some (Word.signextend k x)
  | AND, [a, b] => some (a &&& b)
  | OR, [a, b] => some (a ||| b)
  | XOR, [a, b] => some (a ^^^ b)
  | NOT, [a] => some (Word.not a)
  | BYTE, [i, x] => some (Word.byte i x)
  | SHL, [shift, value] => some (Word.shl shift value)
  | SHR, [shift, value] => some (Word.shr shift value)
  | SAR, [shift, value] => some (Word.sar shift value)
  | CLZ, [x] => some (Word.clz x)
  | _, _ => none

end WordOp

/-- **A word is pushed** in the place of the operands. -/
structure Pushes (handler : ExecuteFunc) (operands : List ℕ) (result : ℕ) : Prop where
  run : ∀ s : Stack, s.length < 1024 →
    handler (operands.map Nat.cast ++ s) = .ok ((result : ℤ) :: s)
  word : result < 2 ^ 256

section

variable {a b c result : ℕ}

theorem push_of_lt {s : Stack} (h : s.length < 1024) (value : ℤ) :
    Stack.push s value = .ok (value :: s) := by
  rw [Stack.push, if_neg]
  rw [stackMaxHeight]
  omega

theorem pushes_unary {f : ℤ → ℤ} (hf : f a = result) (hword : result < 2 ^ 256) :
    Pushes (unary f) [a] result where
  run s hs := by
    change Stack.push s (f a) = _
    rw [hf, push_of_lt hs]
  word := hword

theorem pushes_binary {f : ℤ → ℤ → ℤ} (hf : f a b = result) (hword : result < 2 ^ 256) :
    Pushes (binary f) [a, b] result where
  run s hs := by
    change Stack.push s (f a b) = _
    rw [hf, push_of_lt hs]
  word := hword

theorem pushes_ternary {f : ℤ → ℤ → ℤ → ℤ} (hf : f a b c = result) (hword : result < 2 ^ 256) :
    Pushes (ternary f) [a, b, c] result where
  run s hs := by
    change Stack.push s (f a b c) = _
    rw [hf, push_of_lt hs]
  word := hword

theorem pushes_add (a b : ℕ) : Pushes opAdd [a, b] (Word.add a b) := by
  refine pushes_binary ?_ (Nat.mod_lt _ (by decide))
  rw [mod_two_pow, ← Nat.cast_add, ofInt_natCast, Word.add]

theorem pushes_mul (a b : ℕ) : Pushes opMul [a, b] (Word.mul a b) := by
  refine pushes_binary ?_ (Nat.mod_lt _ (by decide))
  rw [mod_two_pow, ← Nat.cast_mul, ofInt_natCast, Word.mul]

theorem pushes_sub (a b : ℕ) : Pushes opSub [a, b] (Word.sub a b) :=
  pushes_binary (mod_two_pow _) (Word.ofInt_lt _)

theorem pushes_div (ha : a < 2 ^ 256) : Pushes opDiv [a, b] (Word.div a b) := by
  refine pushes_binary (div_eq ha) ?_
  rw [Word.div]
  split
  · decide
  · exact (Nat.div_le_self a b).trans_lt ha

theorem pushes_sdiv (ha : a < 2 ^ 256) (hb : b < 2 ^ 256) :
    Pushes opSdiv [a, b] (Word.sdiv a b) := by
  refine pushes_binary (sdiv_eq ha hb) ?_
  rw [Word.sdiv]
  split
  · decide
  · split
    · exact Word.ofInt_lt _
    · exact Word.ofInt_lt _

theorem pushes_mod (hb : b < 2 ^ 256) : Pushes opMod [a, b] (Word.mod a b) := by
  refine pushes_binary (mod_eq a b) ?_
  rw [Word.mod]
  split
  · decide
  · exact Word.mod_lt hb ‹_›

theorem pushes_smod (ha : a < 2 ^ 256) (hb : b < 2 ^ 256) :
    Pushes opSmod [a, b] (Word.smod a b) := by
  refine pushes_binary (smod_eq ha hb) ?_
  rw [Word.smod]
  split
  · decide
  · exact Word.ofInt_lt _

theorem pushes_addmod (hc : c < 2 ^ 256) : Pushes opAddmod [a, b, c] (Word.addmod a b c) := by
  refine pushes_ternary ?_ ?_
  · rw [← Nat.cast_add, ternary_mod, Word.addmod]
  · rw [Word.addmod]
    split
    · decide
    · exact Word.mod_lt hc ‹_›

theorem pushes_mulmod (hc : c < 2 ^ 256) : Pushes opMulmod [a, b, c] (Word.mulmod a b c) := by
  refine pushes_ternary ?_ ?_
  · rw [← Nat.cast_mul, ternary_mod, Word.mulmod]
  · rw [Word.mulmod]
    split
    · decide
    · exact Word.mod_lt hc ‹_›

theorem pushes_signextend (hb : b < 2 ^ 256) :
    Pushes opSignextend [a, b] (Word.signextend a b) := by
  refine pushes_binary (signextend_eq hb) ?_
  rw [Word.signextend]
  split
  · exact Word.ofInt_lt _
  · exact hb

theorem pushes_byte (a b : ℕ) : Pushes opByte [a, b] (Word.byte a b) := by
  refine pushes_binary (byte_eq a b) ?_
  rw [Word.byte]
  split
  · exact (Nat.mod_lt _ (by decide)).trans (by decide)
  · decide

theorem pushes_shl (a b : ℕ) : Pushes opShl [a, b] (Word.shl a b) := by
  refine pushes_binary (shl_eq a b) ?_
  rw [Word.shl]
  split
  · decide
  · exact Nat.mod_lt _ (by decide)

theorem pushes_shr (hb : b < 2 ^ 256) : Pushes opShr [a, b] (Word.shr a b) := by
  refine pushes_binary (shr_eq hb) ?_
  rw [Word.shr]
  split
  · decide
  · exact (Nat.div_le_self b _).trans_lt hb

theorem pushes_sar (hb : b < 2 ^ 256) : Pushes opSar [a, b] (Word.sar a b) := by
  refine pushes_binary (sar_eq hb) ?_
  rw [Word.sar]
  split
  · split
    · decide
    · decide
  · exact Word.ofInt_lt _

theorem pushes_clz (ha : a < 2 ^ 256) : Pushes opClz [a] (Word.clz a) :=
  pushes_unary (clz_eq ha) ((Nat.findGreatest_le 256).trans_lt (by decide))

end

/-- **Every arithmetic and bitwise instruction pushes the word** that it is to come to, of
operands that are words. -/
theorem wordOp_pushes (op : WordOp) (operands : List ℕ) (result : ℕ)
    (hwords : ∀ x ∈ operands, x < 2 ^ 256) (hresult : op.semantics operands = some result) :
    Pushes op.handler operands result := by
  have ha : ∀ {a : ℕ} {rest : List ℕ}, operands = a :: rest → a < 2 ^ 256 := fun heq =>
    hwords _ (heq ▸ List.mem_cons_self)
  have hb : ∀ {a b : ℕ} {rest : List ℕ}, operands = a :: b :: rest → b < 2 ^ 256 := fun heq =>
    hwords _ (heq ▸ List.mem_cons_of_mem _ List.mem_cons_self)
  have hc : ∀ {a b c : ℕ} {rest : List ℕ}, operands = a :: b :: c :: rest → c < 2 ^ 256 :=
    fun heq => hwords _ (heq ▸ List.mem_cons_of_mem _ (List.mem_cons_of_mem _ List.mem_cons_self))
  unfold WordOp.semantics at hresult
  split at hresult
  all_goals first
    | obtain rfl := Option.some.inj hresult
    | cases hresult
  · exact pushes_add _ _
  · exact pushes_mul _ _
  · exact pushes_sub _ _
  · exact pushes_div (ha rfl)
  · exact pushes_sdiv (ha rfl) (hb rfl)
  · exact pushes_mod (hb rfl)
  · exact pushes_smod (ha rfl) (hb rfl)
  · exact pushes_addmod (hc rfl)
  · exact pushes_mulmod (hc rfl)
  · exact pushes_binary (exp_eq _ _) (Nat.mod_lt _ (by decide))
  · exact pushes_signextend (hb rfl)
  · exact pushes_binary (land_natCast _ _) (Nat.and_lt_two_pow _ (hb rfl))
  · exact pushes_binary (lor_natCast _ _) (Nat.or_lt_two_pow (ha rfl) (hb rfl))
  · exact pushes_binary rfl (Nat.xor_lt_two_pow (ha rfl) (hb rfl))
  · exact pushes_unary (not_eq (ha rfl)) (by rw [Word.not]; omega)
  · exact pushes_byte _ _
  · exact pushes_shl _ _
  · exact pushes_shr (hb rfl)
  · exact pushes_sar (hb rfl)
  · exact pushes_clz (ha rfl)

/-- `-2 ^ 255` divided by `-1`. -/
theorem wordOp_pushes_sdiv :
    opSdiv [2 ^ 255, 2 ^ 256 - 1] = .ok [2 ^ 255] := by
  have hpushes := wordOp_pushes .SDIV [2 ^ 255, 2 ^ 256 - 1] (2 ^ 255) (by decide) (by decide)
  exact hpushes.run [] (by decide)

end TsEthereum.Evm
