import TsEthereum.Block.Header

/-!
# Gas limits, base fees and blob gas

What a header says of the block after it: the gas limits it allows, the base fee, and the excess
of blob gas; and the price of blob gas at a header's own excess, an exponential approximated by
its series. The target of blob gas is the child's, the update fraction the header's own.
-/

namespace TsEthereum

namespace Block

open TsEthereum.ChainConfig

/-! ## The exponential -/

/-- The loop of `fakeExponential`. -/
def fakeExponentialLoop (numerator denominator i output accumulator : ℕ) : ℕ :=
  if _h : accumulator = 0 then output
  else
    fakeExponentialLoop numerator denominator (i + 1) (output + accumulator)
      (accumulator * numerator / (denominator * i))
termination_by (numerator + 1 - i, accumulator)
decreasing_by
  by_cases hi : i ≤ numerator
  · exact Prod.Lex.left _ _ (by omega)
  · have heq : numerator + 1 - (i + 1) = numerator + 1 - i := by omega
    rw [heq]
    apply Prod.Lex.right
    rcases Nat.eq_zero_or_pos denominator with rfl | hpos
    · rw [Nat.zero_mul, Nat.div_zero]
      omega
    · rw [Nat.div_lt_iff_lt_mul (Nat.mul_pos hpos (by omega))]
      apply Nat.mul_lt_mul_of_pos_left _ (by omega)
      calc numerator < i := by omega
        _ ≤ denominator * i := Nat.le_mul_of_pos_left i hpos

/-- **`fakeExponential`**: `factor * e ^ (numerator / denominator)`, about. -/
def fakeExponential (factor numerator denominator : ℕ) : ℕ :=
  fakeExponentialLoop numerator denominator 1 0 (factor * denominator) / denominator

theorem le_fakeExponentialLoop (numerator denominator i output accumulator : ℕ) :
    output + accumulator ≤
      fakeExponentialLoop numerator denominator i output accumulator := by
  induction i, output, accumulator using fakeExponentialLoop.induct numerator denominator with
  | case1 i output => rw [fakeExponentialLoop, dif_pos rfl, Nat.add_zero]
  | case2 i output accumulator hne ih =>
    rw [fakeExponentialLoop, dif_neg hne]
    exact (Nat.le_add_right _ _).trans ih

theorem fakeExponential_zero {factor denominator : ℕ} (hfactor : 0 < factor)
    (hdenominator : 0 < denominator) : fakeExponential factor 0 denominator = factor := by
  have hpos : factor * denominator ≠ 0 := (Nat.mul_pos hfactor hdenominator).ne'
  rw [fakeExponential, fakeExponentialLoop, dif_neg hpos, Nat.mul_zero, Nat.zero_div,
    fakeExponentialLoop, dif_pos rfl, Nat.zero_add, Nat.mul_div_cancel _ hdenominator]

theorem le_fakeExponential (factor numerator : ℕ) {denominator : ℕ} (h : 0 < denominator) :
    factor ≤ fakeExponential factor numerator denominator := by
  have := le_fakeExponentialLoop numerator denominator 1 0 (factor * denominator)
  rw [fakeExponential, Nat.le_div_iff_mul_le h]
  omega

/-! ## Blob gas -/

/-- **`computeBlobGasPrice`**. -/
def computeBlobGasPrice (excessBlobGas : ℕ) (m : HardforkManager) (hardfork : Hardfork) : ℕ :=
  fakeExponential ((m.getParamAtHardfork .minBlobGas hardfork).getD 1) excessBlobGas
    ((m.getParamAtHardfork .blobGasPriceUpdateFraction hardfork).getD 3338477)

namespace ValidatedHeader

variable (m : HardforkManager) (data : ValidatedHeader)

/-- **`getBlobGasPrice`**. -/
def getBlobGasPrice : Except HeaderError ℕ :=
  match data.excessBlobGas with
  | none => .error .excessBlobGas
  | some excessBlobGas => .ok (computeBlobGasPrice excessBlobGas m (data.getHardfork m))

/-- **`calcNextExcessBlobGas`**: on top of what is used more than the target, an active EIP-7918
holds the excess up while blobs are cheaper than they cost to execute. -/
def calcNextExcessBlobGas (childHardfork : Hardfork) : Except HeaderError ℕ :=
  let excessBlobGas := data.excessBlobGas.getD 0
  let blobGasUsed := data.blobGasUsed.getD 0
  let targetBlobGasPerBlock := (m.getParamAtHardfork .targetBlobGasPerBlock childHardfork).getD 0
  let maxBlobGasPerBlock := (m.getParamAtHardfork .maxBlobGasPerBlock childHardfork).getD 0
  if excessBlobGas + blobGasUsed < targetBlobGasPerBlock then .ok 0
  else if m.isEIPActiveAtHardfork 7918 childHardfork then do
    let blobBaseCost := (m.getParamAtHardfork .blobBaseCost childHardfork).getD 0
    let gasPerBlob := (m.getParamAtHardfork .blobGasPerBlob childHardfork).getD 0
    let baseFee := data.baseFeePerGas.getD 0
    let blobFee ← data.getBlobGasPrice m
    if blobBaseCost * baseFee > gasPerBlob * blobFee then
      if maxBlobGasPerBlock = 0 then throw .divisionByZero
      else
        return excessBlobGas +
          blobGasUsed * (maxBlobGasPerBlock - targetBlobGasPerBlock) / maxBlobGasPerBlock
    else return excessBlobGas + blobGasUsed - targetBlobGasPerBlock
  else .ok (excessBlobGas + blobGasUsed - targetBlobGasPerBlock)

/-! ## The gas limit -/

/-- The gas limit of the parent, that the first London block may double. -/
def adjustedParentGasLimit (parentGasLimit : ℕ) : ℕ :=
  match m.hardforkBlock .london with
  | some londonHfBlock =>
    if londonHfBlock ≠ 0 ∧ data.number = londonHfBlock then
      match m.getParamAtHardfork .elasticityMultiplier (data.getHardfork m) with
      | some elasticity => parentGasLimit * elasticity
      | none => parentGasLimit
    else parentGasLimit
  | none => parentGasLimit

/-- **`validateGasLimit`**: what it says of a limit below the minimum comes too late. -/
def validateGasLimit (parentGasLimit : ℕ) : Except HeaderError Unit :=
  let adjusted := data.adjustedParentGasLimit m parentGasLimit
  let divisor := (m.getParamAtHardfork .gasLimitBoundDivisor (data.getHardfork m)).getD 0
  if divisor = 0 then .error .divisionByZero
  else
    let a := adjusted / divisor
    if adjusted + a ≤ data.gasLimit then .error (.gasLimitIncreased data.gasLimit (adjusted + a))
    else if data.gasLimit ≤ adjusted - a then
      .error (.gasLimitDecreased data.gasLimit (adjusted - a))
    else .ok ()

/-! ## The base fee -/

/-- **`calcNextBaseFee`**. -/
def calcNextBaseFee : Except HeaderError ℕ :=
  if data.isEIPActive m 1559 then
    let hardfork := data.getHardfork m
    let elasticity := (m.getParamAtHardfork .elasticityMultiplier hardfork).getD 0
    if elasticity = 0 then .error .divisionByZero
    else
      let parentGasTarget := data.gasLimit / elasticity
      let denominator := (m.getParamAtHardfork .baseFeeMaxChangeDenominator hardfork).getD 8
      match data.baseFeePerGas with
      | none => .error .typeError
      | some baseFeePerGas =>
        if parentGasTarget = data.gasUsed then .ok baseFeePerGas
        else if parentGasTarget = 0 ∨ denominator = 0 then .error .divisionByZero
        else if data.gasUsed > parentGasTarget then
          let delta := data.gasUsed - parentGasTarget
          .ok (max (baseFeePerGas * delta / parentGasTarget / denominator) 1 + baseFeePerGas)
        else
          let delta := parentGasTarget - data.gasUsed
          .ok (baseFeePerGas - baseFeePerGas * delta / parentGasTarget / denominator)
  else .error .requires1559

end ValidatedHeader

/-! ## What they come to -/

section

variable {m : HardforkManager} {data : ValidatedHeader} {childHardfork : Hardfork}

theorem eip7918_inactive : m.isEIPActiveAtHardfork 7918 childHardfork = false :=
  HardforkManager.isEIPActive_eq_false fun hf => by cases hf <;> decide

theorem calcNextExcessBlobGas_eq : data.calcNextExcessBlobGas m childHardfork =
    .ok (data.excessBlobGas.getD 0 + data.blobGasUsed.getD 0 -
      (m.getParamAtHardfork .targetBlobGasPerBlock childHardfork).getD 0) := by
  rw [ValidatedHeader.calcNextExcessBlobGas, eip7918_inactive]
  simp only [Bool.false_eq_true, if_false]
  split
  · next hlt => rw [Nat.sub_eq_zero_of_le hlt.le]
  · rfl

/-- **A parent has a next base fee** when EIP-1559 is active and it has a gas target. -/
theorem exists_nextBaseFee (hactive : data.isEIPActive m 1559 = true)
    (hfee : data.baseFeePerGas.isSome = true) (htarget : 2 ≤ data.gasLimit) :
    ∃ fee, data.calcNextBaseFee m = .ok fee := by
  obtain ⟨baseFeePerGas, hsome⟩ := Option.isSome_iff_exists.1 hfee
  have hhardfork : m.isEIPActiveAtHardfork 1559 (data.getHardfork m) = true := hactive
  have hpos : data.gasLimit / 2 ≠ 0 := by omega
  simp only [ValidatedHeader.calcNextBaseFee, if_pos hactive, hsome,
    HardforkManager.getParam_elasticityMultiplier hhardfork,
    HardforkManager.getParam_baseFeeMaxChangeDenominator hhardfork, Option.getD_some,
    OfNat.ofNat_ne_zero, if_false, hpos, or_false]
  split
  · exact ⟨_, rfl⟩
  · split
    · exact ⟨_, rfl⟩
    · exact ⟨_, rfl⟩

theorem isEIPActive_of_nextBaseFee {fee : ℕ} (h : data.calcNextBaseFee m = .ok fee) :
    data.isEIPActive m 1559 = true := by
  rw [ValidatedHeader.calcNextBaseFee] at h
  split at h
  · assumption
  · cases h

/-- **Which gas limits are let through**: those less than a 1024th away from the parent's. -/
theorem validateGasLimit_eq_ok_iff {parentGasLimit : ℕ} :
    data.validateGasLimit m parentGasLimit = .ok () ↔
      let adjusted := data.adjustedParentGasLimit m parentGasLimit
      data.gasLimit < adjusted + adjusted / 1024 ∧ adjusted - adjusted / 1024 < data.gasLimit := by
  rw [ValidatedHeader.validateGasLimit, HardforkManager.getParam_gasLimitBoundDivisor]
  simp only [Option.getD_some, OfNat.ofNat_ne_zero, if_false]
  rw [ite_error_eq_ok, ite_error_eq_ok, not_le, not_le]
  simp

end

end Block

end TsEthereum
