import TsEthereum.Common.Padding
import TsEthereum.Evm.Bytecode
import TsEthereum.Evm.Hardfork
import Mathlib.Data.Nat.ModEq

/-!
# The modexp precompile

`precompile05` (`precompiles/05-modexp.ts`): the lengths of a base, an exponent and a
modulus, then the three of them; what is not there is read as zeros. The price goes
by the EIPs that are active, and the result is a power modulo (`expMod_eq`). The divisor
of the first price is read at the hardfork of EIP-2565, where the chain has one, and
so is that of the second one; the first price is right only where it does not
matter (`precompile05_iff`).
-/

namespace TsEthereum.Evm

/-- `modexpGquaddivisorGas`, by the EIP that sets it. -/
def modexpGquaddivisorGas : ℕ → Option ℕ
  | 609 => some 20
  | 2565 => some 3
  | _ => none

/-- What the precompile asks of the chain: which EIPs are active, and the divisor. -/
structure ModexpCommon where
  eip2565 : Bool
  eip7823 : Bool
  eip7883 : Bool
  Gquaddivisor : ℕ

/-- `getParamAtHardfork`, of the divisor. -/
def GquaddivisorAt (spec : ChainSpec) (hardfork : Hardfork) : Option ℕ :=
  (spec.hardforkIndex hardfork).bind fun targetIndex =>
    (spec.eipsUpTo targetIndex).foldl (fun result eip => (modexpGquaddivisorGas eip).or result) none

/-- **The answers of a chain at a hardfork.** -/
def modexpCommon (spec : ChainSpec) (hardfork : Hardfork) : ModexpCommon where
  eip2565 := spec.isEIPActiveAtHardfork 2565 hardfork
  eip7823 := spec.isEIPActiveAtHardfork 7823 hardfork
  eip7883 := spec.isEIPActiveAtHardfork 7883 hardfork
  Gquaddivisor := (GquaddivisorAt spec ((spec.getHardforkForEIP 2565).getD hardfork)).getD 0

def multiplicationComplexity (x : ℕ) : ℕ :=
  if x ≤ 64 then x ^ 2
  else if x ≤ 1024 then x ^ 2 / 4 + x * 96 - 3072
  else x ^ 2 / 16 + x * 480 - 199680

/-- The loop that counts bits, with a bound on its turns. -/
def countBits : ℕ → ℕ → ℤ → ℤ
  | 0, _, bitLen => bitLen
  | turns + 1, firstExpBigInt, bitLen =>
    if 0 < firstExpBigInt then countBits turns (firstExpBigInt >>> 1) (bitLen + 1) else bitLen

/-- **`getAdjustedExponentLength`.** -/
def getAdjustedExponentLength (eip7883 : Bool) (data : Bytes) : ℕ :=
  let baseLen := ofBigEndian (subarray data 0 32)
  let expBytesStart := 96 + baseLen
  let expLen := ofBigEndian (subarray data 32 64)
  let firstExpBytes := setLengthRight (subarray data expBytesStart (expBytesStart + 32)) 32
  let max32expLen := if expLen < 32 then 32 - expLen else 0
  let firstExpBigInt := ofBigEndian firstExpBytes >>> (8 * max32expLen)
  let bitLen := countBits 256 firstExpBigInt (-1)
  let adjustedExpLen := (expLen - 32) * if eip7883 then 16 else 8
  if 0 < bitLen then adjustedExpLen + bitLen.toNat else adjustedExpLen

/-- The loop of `expMod`, with a bound on its turns. -/
def expModLoop (modulo : ℕ) : ℕ → ℕ → ℕ → ℕ → ℕ
  | 0, _, _, res => res
  | turns + 1, a, power, res =>
    if 0 < power then
      let res := if power % 2 = 1 then res * a % modulo else res
      expModLoop modulo turns (a * a % modulo) (power / 2) res
    else res

/-- **`expMod`.** -/
def expMod (a power modulo : ℕ) : ℕ :=
  if power = 0 then 1 % modulo else expModLoop modulo (Nat.log2 power + 1) a power 1

/-- An `ExecResult`. -/
structure PrecompileResult where
  executionGasUsed : ℕ
  returnValue : Bytes
  outOfGas : Bool
  deriving DecidableEq

def OOGResult (gasLimit : ℕ) : PrecompileResult := ⟨gasLimit, [], true⟩

/-- The price, of the adjusted length of the exponent and the longer of the other two. -/
def modexpGas (common : ModexpCommon) (adjustedELen maxLen : ℕ) : ℕ :=
  if common.eip2565 then
    let words := (maxLen + 7) / 8
    if common.eip7883 then max 500 (adjustedELen * if 32 < maxLen then 2 * words * words else 16)
    else max 200 (adjustedELen * words * words / common.Gquaddivisor)
  else adjustedELen * multiplicationComplexity maxLen / common.Gquaddivisor

/-- **`precompile05`.** -/
def precompile05 (common : ModexpCommon) (input : Bytes) (gasLimit : ℕ) : PrecompileResult :=
  let data := if input.length < 96 then setLengthRight input 96 else input
  let adjustedELen := max 1 (getAdjustedExponentLength common.eip7883 data)
  let bLen := ofBigEndian (subarray data 0 32)
  let eLen := ofBigEndian (subarray data 32 64)
  let mLen := ofBigEndian (subarray data 64 96)
  let gasUsed := modexpGas common adjustedELen (max bLen mLen)
  let eStart := 96 + bLen
  let mStart := eStart + eLen
  if gasLimit < gasUsed then OOGResult gasLimit
  else
    let maxSize := if common.eip7823 then 1024 else 2147483647
    if common.eip7823 = false ∧ bLen = 0 ∧ mLen = 0 then ⟨gasUsed, [], false⟩
    else if maxSize < bLen ∨ maxSize < eLen ∨ maxSize < mLen then OOGResult gasLimit
    else if 2 ^ 53 - 1 < mStart + mLen then OOGResult gasLimit
    else
      let B := ofBigEndian (setLengthRight (subarray data 96 eStart) bLen)
      let E := ofBigEndian (setLengthRight (subarray data eStart mStart) eLen)
      let M := ofBigEndian (setLengthRight (subarray data mStart (mStart + mLen)) mLen)
      let R := if M = 0 then [] else bigEndian (expMod B E M)
      ⟨gasUsed, setLengthLeft R mLen, false⟩

/-! ## What it is to do -/

/-- **A number of an input**, with zeros behind the input. -/
def readZeros (data : Bytes) (start length : ℕ) : Bytes :=
  (List.range length).map fun i => data.getD (start + i) 0

section

variable (data : Bytes)

/-- The three lengths. -/
def baseLength : ℕ := ofBigEndian (readZeros data 0 32)

def exponentLength : ℕ := ofBigEndian (readZeros data 32 32)

def modulusLength : ℕ := ofBigEndian (readZeros data 64 32)

/-- Base, exponent and modulus. -/
def base : ℕ := ofBigEndian (readZeros data 96 (baseLength data))

def exponent : ℕ := ofBigEndian (readZeros data (96 + baseLength data) (exponentLength data))

def modulus : ℕ :=
  ofBigEndian (readZeros data (96 + baseLength data + exponentLength data) (modulusLength data))

/-- **The adjusted length**: of the exponent behind its first word, and the place of the highest
bit of that. -/
def iterationCount (multiplier : ℕ) : ℕ :=
  max 1 (multiplier * (exponentLength data - 32) + Nat.log 2 (ofBigEndian
    (readZeros data (96 + baseLength data) (min (exponentLength data) 32))))

/-- **The gas of the rule** that is active. -/
def ruleGas (eip2565 eip7883 : Bool) : ℕ :=
  let maxLength := max (baseLength data) (modulusLength data)
  let words := (maxLength + 7) / 8
  if eip7883 then
    max 500 (iterationCount data 16 * if 32 < maxLength then 2 * words ^ 2 else 16)
  else if eip2565 then max 200 (iterationCount data 8 * words ^ 2 / 3)
  else iterationCount data 8 * multiplicationComplexity maxLength / 20

/-- A length is too large for EIP-7823. -/
def TooLong : Prop :=
  1024 < baseLength data ∨ 1024 < exponentLength data ∨ 1024 < modulusLength data

/-- **The result, for a price.** -/
structure Meets (gas : ℕ) (eip7823 : Bool) (gasLimit : ℕ) (result : PrecompileResult) : Prop where
  outOfGas : result.outOfGas = true ↔ gasLimit < gas ∨ (eip7823 = true ∧ TooLong data)
  failed : result.outOfGas = true → result.executionGasUsed = gasLimit ∧ result.returnValue = []
  charged : result.outOfGas = false → result.executionGasUsed = gas
  returned : result.outOfGas = false → result.returnValue.length = modulusLength data ∧
    ofBigEndian result.returnValue =
      if modulus data = 0 then 0 else base data ^ exponent data % modulus data

end

/-! ## Reading -/

variable {data : Bytes} {start n : ℕ}

@[simp] theorem length_readZeros (data : Bytes) (start length : ℕ) :
    (readZeros data start length).length = length := by
  rw [readZeros, List.length_map, List.length_range]

theorem setLengthRight_subarray (data : Bytes) (start n : ℕ) :
    setLengthRight (subarray data start (start + n)) n = readZeros data start n := by
  have hread : ∀ i, (subarray data start (start + n)).getD i 0 =
      if i < n then data.getD (start + i) 0 else 0 := by
    intro i
    rw [subarray, Nat.add_sub_cancel_left, List.getD_eq_getElem?_getD, List.getElem?_take]
    split
    · rw [List.getElem?_drop, List.getD_eq_getElem?_getD]
    · rfl
  have hlength : (setLengthRight (subarray data start (start + n)) n).length = n := by
    rw [setLengthRight]
    split
    · rw [List.length_append, List.length_replicate]
      omega
    · rw [subarray, List.length_take, List.length_drop]
      omega
  refine List.ext_getElem (hlength.trans (length_readZeros _ _ _).symm) fun i hi hi' => ?_
  have hin : i < n := hlength ▸ hi
  have hvalue := hread i
  rw [if_pos hin, List.getD_eq_getElem?_getD] at hvalue
  simp only [readZeros, List.getElem_map, List.getElem_range, ← hvalue]
  rw [← Option.some_inj, ← List.getElem?_eq_getElem hi, setLengthRight]
  split
  · rename_i hshort
    rw [List.getElem?_append]
    split
    · rename_i hlt
      rw [List.getElem?_eq_getElem hlt]
      rfl
    · rename_i hge
      rw [List.getElem?_replicate, if_pos (by omega),
        List.getElem?_eq_none (Nat.not_lt.1 hge)]
      rfl
  · rename_i hlong
    rw [subarray, List.drop_zero, List.getElem?_take, Nat.sub_zero, if_pos hin,
      List.getElem?_eq_getElem (by omega)]
    rfl

theorem subarray_eq_readZeros (h : start + n ≤ data.length) :
    subarray data start (start + n) = readZeros data start n := by
  have hlength : (subarray data start (start + n)).length = n := by
    rw [subarray, List.length_take, List.length_drop]
    omega
  rw [← setLengthRight_subarray, setLengthRight, if_neg (by omega)]
  generalize subarray data start (start + n) = taken at *
  rw [subarray, List.drop_zero, Nat.sub_zero, List.take_of_length_le (by omega)]

theorem readZeros_pad (input : Bytes) (start n : ℕ) :
    readZeros (if input.length < 96 then setLengthRight input 96 else input) start n =
      readZeros input start n := by
  split
  · rename_i hshort
    refine List.map_congr_left fun i _ => ?_
    rw [setLengthRight, if_pos hshort, List.getD_eq_getElem?_getD, List.getD_eq_getElem?_getD,
      List.getElem?_append]
    split
    · rfl
    · rename_i hge
      rw [List.getElem?_eq_none (Nat.not_lt.1 hge), List.getElem?_replicate]
      split
      · rfl
      · rfl
  · rfl

theorem le_length_pad (input : Bytes) :
    96 ≤ (if input.length < 96 then setLengthRight input 96 else input).length := by
  split
  · rename_i hshort
    rw [setLengthRight, if_pos hshort, List.length_append, List.length_replicate]
    omega
  · omega

theorem readZeros_append (data : Bytes) (start m n : ℕ) :
    readZeros data start (m + n) = readZeros data start m ++ readZeros data (start + m) n := by
  rw [readZeros, List.range_add, List.map_append, List.map_map]
  simp only [readZeros, Function.comp_def, Nat.add_assoc]

theorem ofBigEndian_append (a b : Bytes) :
    ofBigEndian (a ++ b) = ofBigEndian a * 256 ^ b.length + ofBigEndian b := by
  rw [ofBigEndian, List.reverse_append, List.map_append, Nat.ofDigits_append, List.length_map,
    List.length_reverse, Nat.add_comm, Nat.mul_comm]
  rfl

/-! ## Numbers -/

theorem countBits_eq (turns : ℕ) {m : ℕ} (h : m < 2 ^ turns) (bitLen : ℤ) :
    countBits turns m bitLen = if m = 0 then bitLen else bitLen + 1 + Nat.log 2 m := by
  induction turns generalizing m bitLen with
  | zero =>
    obtain rfl : m = 0 := by omega
    rfl
  | succ turns ih =>
    rw [countBits]
    rcases Nat.eq_zero_or_pos m with rfl | hpos
    · rfl
    · have hhalf : m >>> 1 = m / 2 := Nat.shiftRight_eq_div_pow m 1
      rw [if_pos hpos, if_neg hpos.ne', hhalf, ih (by rw [pow_succ] at h; omega)]
      split
      · rename_i hzero
        rw [Nat.log_of_lt (by omega)]
        simp
      · rename_i hne
        rw [Nat.log_of_one_lt_of_le (by omega) (by omega : 2 ≤ m)]
        push_cast
        omega

theorem add_bitLen (x first : ℕ) :
    (if 0 < (if first = 0 then (-1 : ℤ) else -1 + 1 + Nat.log 2 first) then
      x + (if first = 0 then (-1 : ℤ) else -1 + 1 + Nat.log 2 first).toNat else x) =
        x + Nat.log 2 first := by
  rcases Nat.eq_zero_or_pos first with rfl | hpos
  · rfl
  · rw [if_neg hpos.ne']
    generalize Nat.log 2 first = bits
    split
    · omega
    · omega

theorem getAdjustedExponentLength_eq (eip7883 : Bool) (input : Bytes) :
    max 1 (getAdjustedExponentLength eip7883
      (if input.length < 96 then setLengthRight input 96 else input)) =
        iterationCount input (if eip7883 then 16 else 8) := by
  have hlength := le_length_pad input
  have hread := readZeros_pad input
  generalize (if input.length < 96 then setLengthRight input 96 else input) = data at *
  have hb : ofBigEndian (subarray data 0 32) = baseLength input := by
    rw [show (32 : ℕ) = 0 + 32 from rfl, subarray_eq_readZeros (by omega), hread]
    rfl
  have he : ofBigEndian (subarray data 32 64) = exponentLength input := by
    rw [show (64 : ℕ) = 32 + 32 from rfl, subarray_eq_readZeros (by omega), hread]
    rfl
  rw [getAdjustedExponentLength, iterationCount]
  simp only [hb, he, setLengthRight_subarray, hread]
  -- the first word without what is behind the exponent
  have hfirst : ofBigEndian (readZeros input (96 + baseLength input) 32) >>>
      (8 * if exponentLength input < 32 then 32 - exponentLength input else 0) =
        ofBigEndian (readZeros input (96 + baseLength input) (min (exponentLength input) 32)) := by
    split
    · rename_i hshort
      have hsplit := readZeros_append input (96 + baseLength input) (exponentLength input)
        (32 - exponentLength input)
      rw [Nat.add_sub_cancel' hshort.le] at hsplit
      rw [min_eq_left hshort.le, hsplit, ofBigEndian_append, length_readZeros,
        Nat.shiftRight_eq_div_pow, pow_mul, show (2 : ℕ) ^ 8 = 256 from rfl, Nat.mul_comm,
        Nat.mul_add_div (by positivity), Nat.div_eq_of_lt, Nat.add_zero]
      have hlt := ofBigEndian_lt (readZeros input (96 + baseLength input + exponentLength input)
        (32 - exponentLength input))
      rwa [length_readZeros] at hlt
    · rename_i hlong
      rw [min_eq_right (Nat.not_lt.1 hlong)]
      rfl
  have hbound : ofBigEndian (readZeros input (96 + baseLength input)
      (min (exponentLength input) 32)) < 2 ^ 256 := by
    have hlt := ofBigEndian_lt (readZeros input (96 + baseLength input)
      (min (exponentLength input) 32))
    rw [length_readZeros] at hlt
    refine hlt.trans_le ((Nat.pow_le_pow_right (by omega) (min_le_right _ 32)).trans ?_)
    exact le_of_eq (pow_mul 2 8 32).symm
  rw [hfirst, countBits_eq 256 hbound]
  generalize ofBigEndian (readZeros input (96 + baseLength input)
    (min (exponentLength input) 32)) = first
  rw [Nat.mul_comm (exponentLength input - 32)]
  exact congrArg (max 1) (add_bitLen _ first)

theorem expModLoop_eq {modulo : ℕ} (turns : ℕ) {a power res : ℕ} (h : power < 2 ^ turns)
    (hpos : 0 < power) : expModLoop modulo turns a power res = res * a ^ power % modulo := by
  induction turns generalizing a power res with
  | zero => omega
  | succ turns ih =>
    have hsquare : ∀ e, (a * a % modulo) ^ e ≡ (a * a) ^ e [MOD modulo] :=
      fun e => (Nat.mod_modEq _ _).pow e
    have hdouble : (a * a) ^ (power / 2) = a ^ (2 * (power / 2)) := by
      rw [← pow_two, ← pow_mul]
    rw [expModLoop, if_pos hpos]
    dsimp only
    rcases Nat.eq_zero_or_pos (power / 2) with hzero | hmore
    · obtain rfl : power = 1 := by omega
      rw [if_pos rfl, show 1 / 2 = 0 from rfl, pow_one]
      cases turns with
      | zero => rfl
      | succ turns => rfl
    · rw [ih (by rw [pow_succ] at h; omega) hmore]
      by_cases hodd : power % 2 = 1
      · rw [if_pos hodd]
        refine ((Nat.mod_modEq _ _).mul (hsquare _)).trans ?_
        rw [hdouble, Nat.mul_assoc, ← pow_succ', show 2 * (power / 2) + 1 = power by omega]
      · rw [if_neg hodd]
        refine ((Nat.ModEq.refl res).mul (hsquare _)).trans ?_
        rw [hdouble, show 2 * (power / 2) = power by omega]

theorem expMod_eq (a power modulo : ℕ) : expMod a power modulo = a ^ power % modulo := by
  rw [expMod]
  split
  · rename_i hzero
    rw [hzero, pow_zero]
  · rename_i hne
    rw [expModLoop_eq _ Nat.lt_log2_self (Nat.pos_of_ne_zero hne), Nat.one_mul]

/-! ## The precompile -/

section

variable {gas gasLimit : ℕ} {eip7823 : Bool} {returnValue : Bytes}

theorem meets_OOGResult (h : gasLimit < gas ∨ (eip7823 = true ∧ TooLong data)) :
    Meets data gas eip7823 gasLimit (OOGResult gasLimit) where
  outOfGas := iff_of_true rfl h
  failed _ := ⟨rfl, rfl⟩
  charged h := absurd h Bool.true_eq_false.mp
  returned h := absurd h Bool.true_eq_false.mp

theorem meets_returned (h : ¬(gasLimit < gas ∨ (eip7823 = true ∧ TooLong data)))
    (hlength : returnValue.length = modulusLength data)
    (hvalue : ofBigEndian returnValue =
      if modulus data = 0 then 0 else base data ^ exponent data % modulus data) :
    Meets data gas eip7823 gasLimit ⟨gas, returnValue, false⟩ where
  outOfGas := iff_of_false Bool.false_ne_true h
  failed h := absurd h Bool.false_ne_true
  charged _ := rfl
  returned _ := ⟨hlength, hvalue⟩

end

theorem modulus_lt (data : Bytes) : modulus data < 256 ^ modulusLength data := by
  have hlt := ofBigEndian_lt (readZeros data (96 + baseLength data + exponentLength data)
    (modulusLength data))
  rwa [length_readZeros] at hlt

theorem meets_precompile05 (common : ModexpCommon) (input : Bytes) (gasLimit : ℕ)
    (hlengths : common.eip7823 = false → baseLength input < 2 ^ 31 ∧
      exponentLength input < 2 ^ 31 ∧ modulusLength input < 2 ^ 31) :
    Meets input (modexpGas common (iterationCount input (if common.eip7883 then 16 else 8))
        (max (baseLength input) (modulusLength input)))
      common.eip7823 gasLimit (precompile05 common input gasLimit) := by
  have hadjusted := getAdjustedExponentLength_eq common.eip7883 input
  have hlength := le_length_pad input
  have hread := readZeros_pad input
  rw [precompile05]
  generalize (if input.length < 96 then setLengthRight input 96 else input) = data at *
  have hb : ofBigEndian (subarray data 0 32) = baseLength input := by
    rw [show (32 : ℕ) = 0 + 32 from rfl, subarray_eq_readZeros (by omega), hread]
    rfl
  have he : ofBigEndian (subarray data 32 64) = exponentLength input := by
    rw [show (64 : ℕ) = 32 + 32 from rfl, subarray_eq_readZeros (by omega), hread]
    rfl
  have hm : ofBigEndian (subarray data 64 96) = modulusLength input := by
    rw [show (96 : ℕ) = 64 + 32 from rfl, subarray_eq_readZeros (by omega), hread]
    rfl
  have hB : ofBigEndian (readZeros input 96 (baseLength input)) = base input := rfl
  have hE : ofBigEndian (readZeros input (96 + baseLength input) (exponentLength input)) =
      exponent input := rfl
  have hM : ofBigEndian (readZeros input (96 + baseLength input + exponentLength input)
      (modulusLength input)) = modulus input := rfl
  simp only [hadjusted, hb, he, hm, setLengthRight_subarray, hread, hB, hE, hM, expMod_eq]
  generalize modexpGas common _ _ = gas
  obtain ⟨maxSize, hmaxSize⟩ :
      ∃ maxSize, maxSize = if common.eip7823 = true then 1024 else 2147483647 := ⟨_, rfl⟩
  rw [← hmaxSize]
  -- which lengths are too long
  have hlong : maxSize < baseLength input ∨ maxSize < exponentLength input ∨
      maxSize < modulusLength input ↔ common.eip7823 = true ∧ TooLong input := by
    rcases heip : common.eip7823 with _ | _
    · have hbound := hlengths heip
      rw [heip, if_neg Bool.false_ne_true] at hmaxSize
      exact iff_of_false (by omega) fun h => Bool.false_ne_true h.1
    · rw [heip, if_pos rfl] at hmaxSize
      rw [hmaxSize, TooLong]
      exact (and_iff_right rfl).symm
  by_cases hgas : gasLimit < gas
  · rw [if_pos hgas]
    exact meets_OOGResult (Or.inl hgas)
  rw [if_neg hgas]
  by_cases hearly : common.eip7823 = false ∧ baseLength input = 0 ∧ modulusLength input = 0
  · -- the modulus has no bytes
    obtain ⟨hoff, -, hzero⟩ := id hearly
    have hnone : modulus input = 0 := by
      have hlt := modulus_lt input
      rw [hzero] at hlt
      omega
    rw [if_pos hearly]
    refine meets_returned ?_ hzero.symm (by rw [if_pos hnone]; rfl)
    rintro (h | ⟨h, -⟩)
    · exact hgas h
    · exact Bool.false_ne_true (hoff.symm.trans h)
  rw [if_neg hearly]
  by_cases htoo : common.eip7823 = true ∧ TooLong input
  · rw [if_pos (hlong.2 htoo)]
    exact meets_OOGResult (Or.inr htoo)
  have hshort := mt hlong.1 htoo
  have hsize : maxSize ≤ 2147483647 := by
    rw [hmaxSize]
    split <;> omega
  rw [if_neg hshort, if_neg (by omega)]
  refine meets_returned (fun h => h.elim hgas htoo) (length_setLengthLeft _ _) ?_
  by_cases hzero : modulus input = 0
  · rw [if_pos hzero, if_pos hzero]
    exact ofBigEndian_setLengthLeft_of_le (Nat.zero_le _)
  · rw [if_neg hzero, if_neg hzero, ofBigEndian_setLengthLeft, ofBigEndian_bigEndian,
      Nat.mod_eq_of_lt]
    exact (Nat.mod_lt _ (Nat.pos_of_ne_zero hzero)).trans (modulus_lt input)

/-! ## The divisor -/

variable {spec : ChainSpec} {hardfork : Hardfork}

theorem mem_eips_2565 : 2565 ∈ HARDFORK_EIPS hardfork ↔ hardfork = .berlin := by
  cases hardfork <;> decide

theorem GquaddivisorAt_berlin (h : Hardfork.berlin ∈ spec.hardforks) :
    GquaddivisorAt spec .berlin = some 3 := by
  have hindex := List.idxOf_lt_length_iff.2 h
  rw [GquaddivisorAt, ChainSpec.hardforkIndex, if_pos h, Option.bind_some, ChainSpec.eipsUpTo,
    ← List.take_concat_get' _ _ hindex, List.getElem_idxOf hindex, List.flatMap_append,
    List.foldl_append]
  rfl

theorem foldl_modexpGquaddivisorGas {eips : List ℕ} (h : 2565 ∉ eips) (result : Option ℕ) :
    eips.foldl (fun result eip => (modexpGquaddivisorGas eip).or result) result =
      if 609 ∈ eips then some 20 else result := by
  induction eips generalizing result with
  | nil => rfl
  | cons eip eips ih =>
    obtain ⟨hne, hnot⟩ := not_or.1 (mt List.mem_cons.2 h)
    rw [List.foldl_cons, ih hnot]
    by_cases hbyzantium : eip = 609
    · subst hbyzantium
      rw [if_pos (List.mem_cons_self : 609 ∈ 609 :: eips)]
      exact ite_self _
    · have hnone : modexpGquaddivisorGas eip = none := by
        unfold modexpGquaddivisorGas
        split <;> first | rfl | contradiction
      rw [hnone, Option.none_or]
      by_cases hmem : 609 ∈ eips
      · rw [if_pos hmem, if_pos (List.mem_cons_of_mem _ hmem)]
      · rw [if_neg hmem, if_neg fun h => hmem ((List.mem_cons.1 h).resolve_left (Ne.symm hbyzantium))]

theorem GquaddivisorAt_of_none (h : spec.isEIPActiveAtHardfork 609 hardfork = true)
    (hnone : spec.getHardforkForEIP 2565 = none) : GquaddivisorAt spec hardfork = some 20 := by
  rw [ChainSpec.isEIPActiveAtHardfork] at h
  rw [GquaddivisorAt]
  cases hindex : spec.hardforkIndex hardfork with
  | none =>
    rw [hindex] at h
    exact absurd h Bool.false_ne_true
  | some targetIndex =>
    rw [hindex] at h
    rw [Option.bind_some, foldl_modexpGquaddivisorGas, if_pos (List.contains_iff_mem.1 h)]
    intro hmem
    obtain ⟨other, hother, heip⟩ := List.mem_flatMap.1 hmem
    exact List.find?_eq_none.1 hnone other (List.mem_of_mem_take hother)
      (List.contains_iff_mem.2 heip)

theorem getHardforkForEIP_2565 {found : Hardfork} (h : spec.getHardforkForEIP 2565 = some found) :
    found = .berlin ∧ Hardfork.berlin ∈ spec.hardforks := by
  have hfound := List.find?_some h
  obtain rfl := mem_eips_2565.1 (List.contains_iff_mem.1 hfound)
  exact ⟨rfl, List.mem_of_find?_eq_some h⟩

theorem getHardforkForEIP_of_active (h : spec.isEIPActiveAtHardfork 2565 hardfork = true) :
    spec.getHardforkForEIP 2565 ≠ none := by
  intro hnone
  rw [ChainSpec.isEIPActiveAtHardfork] at h
  split at h
  · exact Bool.false_ne_true h
  · obtain ⟨other, hother, heip⟩ := List.mem_flatMap.1 (List.contains_iff_mem.1 h)
    exact List.find?_eq_none.1 hnone other (List.mem_of_mem_take hother)
      (List.contains_iff_mem.2 heip)

theorem meets_iff_of_meets {gas rule gasLimit : ℕ} {result : PrecompileResult}
    (h : Meets data gas false gasLimit result) (hle : rule ≤ gas) :
    Meets data rule false gasLimit result ↔ gasLimit < rule ∨ gas = rule := by
  have hout : result.outOfGas = true ↔ gasLimit < gas := by
    rw [h.outOfGas, or_iff_left fun h => Bool.false_ne_true h.1]
  constructor
  · intro hrule
    by_cases hgas : gasLimit < gas
    · left
      exact (hrule.outOfGas.1 (hout.2 hgas)).resolve_right fun h => Bool.false_ne_true h.1
    · right
      have hin : result.outOfGas = false := by simpa using mt hout.1 hgas
      exact (h.charged hin).symm.trans (hrule.charged hin)
  · rintro (hlt | rfl)
    · have hfail := hout.2 (hlt.trans_le hle)
      exact ⟨iff_of_true hfail (Or.inl hlt), h.failed, fun h => absurd (hfail.symm.trans h) (by simp),
        fun h => absurd (hfail.symm.trans h) (by simp)⟩
    · exact h

/-- **From Byzantium on the precompile charges what its hardfork is to charge** from Berlin on and
on a chain without EIP-2565. Before Berlin it divides by the divisor of Berlin: that is right where
the gas does not do for the price of EIP-198 either, or the product is below 3. -/
theorem precompile05_iff (spec : ChainSpec) (hardfork : Hardfork) (eip7823 eip7883 : Bool)
    (input : Bytes) (gasLimit : ℕ) (hbyzantium : spec.isEIPActiveAtHardfork 609 hardfork = true)
    (hosaka : eip7823 = true ∨ eip7883 = true → spec.isEIPActiveAtHardfork 2565 hardfork = true)
    (hlengths : eip7823 = false → baseLength input < 2 ^ 31 ∧
      exponentLength input < 2 ^ 31 ∧ modulusLength input < 2 ^ 31) :
    Meets input (ruleGas input (spec.isEIPActiveAtHardfork 2565 hardfork) eip7883) eip7823 gasLimit
        (precompile05 { modexpCommon spec hardfork with eip7823, eip7883 } input gasLimit) ↔
      spec.isEIPActiveAtHardfork 2565 hardfork = true ∨ spec.getHardforkForEIP 2565 = none ∨
        gasLimit < ruleGas input false false ∨
        iterationCount input 8 * multiplicationComplexity (max (baseLength input) (modulusLength input))
          < 3 := by
  have hmeets := meets_precompile05 { modexpCommon spec hardfork with eip7823, eip7883 } input gasLimit
    hlengths
  dsimp only at hmeets
  rcases hactive : spec.isEIPActiveAtHardfork 2565 hardfork with _ | _
  · -- the first price
    have hoff : eip7823 = false ∧ eip7883 = false := by
      rw [hactive] at hosaka
      simpa using hosaka
    obtain ⟨rfl, rfl⟩ := hoff
    simp only [modexpGas, modexpCommon, hactive, Bool.false_eq_true, if_false] at hmeets ⊢
    simp only [ruleGas, Bool.false_eq_true, if_false, false_or]
    generalize iterationCount input 8 *
      multiplicationComplexity (max (baseLength input) (modulusLength input)) = product at *
    rcases hfound : spec.getHardforkForEIP 2565 with _ | found
    · have hdivisor := GquaddivisorAt_of_none hbyzantium hfound
      rw [hfound, Option.getD_none, hdivisor] at hmeets
      rw [Option.getD_none, hdivisor]
      exact iff_of_true hmeets (Or.inl rfl)
    · obtain ⟨rfl, hberlin⟩ := getHardforkForEIP_2565 hfound
      rw [hfound, Option.getD_some, GquaddivisorAt_berlin hberlin, Option.getD_some] at hmeets
      rw [Option.getD_some, GquaddivisorAt_berlin hberlin, Option.getD_some,
        meets_iff_of_meets hmeets (by omega)]
      simp only [reduceCtorEq, false_or]
      exact or_congr_right (by omega)
  · refine iff_of_true ?_ (Or.inl rfl)
    obtain ⟨found, hfound⟩ := Option.ne_none_iff_exists'.1 (getHardforkForEIP_of_active hactive)
    obtain ⟨rfl, hberlin⟩ := getHardforkForEIP_2565 hfound
    simp only [modexpGas, modexpCommon, hactive, if_true, hfound, Option.getD_some,
      GquaddivisorAt_berlin hberlin] at hmeets ⊢
    rcases eip7883 with _ | _
    · simpa only [ruleGas, Bool.false_eq_true, if_false, if_true, pow_two, Nat.mul_assoc] using hmeets
    · simpa only [ruleGas, if_true, pow_two, Nat.mul_assoc] using hmeets

/-- A base and a modulus of eight bytes, of which nothing is there. -/
def sampleInput : Bytes := List.replicate 31 0 ++ [8] ++ List.replicate 63 0 ++ [8]

theorem precompile05_iff_sample :
    Meets sampleInput (ruleGas sampleInput true false) false 1000
      (precompile05 (modexpCommon .all .berlin) sampleInput 1000) :=
  (precompile05_iff .all .berlin false false sampleInput 1000 (by decide) (by decide)
    (by decide +kernel)).2 (Or.inl (by decide))

/-- **At Byzantium it costs 21 instead of 3.** -/
theorem not_meets_sample :
    ¬Meets sampleInput
      (ruleGas sampleInput (ChainSpec.all.isEIPActiveAtHardfork 2565 .byzantium) false) false 1000
      (precompile05 (modexpCommon .all .byzantium) sampleInput 1000) := by
  intro h
  have hcharged := h.charged (by decide +kernel)
  revert hcharged
  decide +kernel

end TsEthereum.Evm
