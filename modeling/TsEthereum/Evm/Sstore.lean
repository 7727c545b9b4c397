import TsEthereum.Common.Padding
import TsEthereum.Evm.Hardfork

/-!
# What SSTORE costs

The three gas handlers of `SSTORE`: `dynamicGasSstore` (with `updateSstoreGas`),
`dynamicGasSstoreEIP1283` and `dynamicGasSstoreEIP2200`, and the choice
`buildJumpTable` makes among them. The handlers compare byte strings; once these
are normalised they compare numbers (`setLengthLeftStorage_eq_iff`).

A rule set (`SstoreRules`) reads the three values of the slot only through which
of them are equal and which are zero (`SlotPattern`).
-/

namespace TsEthereum.Evm

/-- What the gas handlers of `SSTORE` throw. -/
inductive SstoreError where
  | STATIC_STATE_CHANGE
  | OUT_OF_GAS
  | REFUND_EXHAUSTED
  | TypeError
  deriving DecidableEq

/-! ## Byte strings -/

/-- **`bigIntToBytes`**: zero takes one byte. -/
def bigIntToBytes (num : ℕ) : Bytes := if num = 0 then [0] else bigEndian num

/-- **`setLengthLeftStorage`**: nothing for a string of zeros, else 32 bytes. -/
def setLengthLeftStorage (value : Bytes) : Bytes :=
  if value = List.replicate value.length 0 then [] else setLengthLeft value 32

/-- The value on the stack as the handlers read it: nothing for zero. -/
def stackBytes (val : ℕ) : Bytes := if val = 0 then [] else bigIntToBytes val

theorem eq_replicate_iff (b : Bytes) : b = List.replicate b.length 0 ↔ ofBigEndian b = 0 := by
  have hzeros : ofBigEndian (List.replicate b.length 0) = 0 := by
    have := ofBigEndian_replicate_append b.length []
    rwa [List.append_nil] at this
  constructor
  · intro h
    rw [h, hzeros]
  · intro h
    exact eq_of_ofBigEndian_eq (by simp) (h.trans hzeros.symm)

theorem length_setLengthLeftStorage_eq_zero {b : Bytes} (h : b.length ≤ 32) :
    (setLengthLeftStorage b).length = 0 ↔ ofBigEndian b = 0 := by
  rw [setLengthLeftStorage, ← eq_replicate_iff]
  by_cases hzero : b = List.replicate b.length 0
  · rw [if_pos hzero, List.length_nil]
    exact iff_of_true rfl hzero
  · rw [if_neg hzero, length_setLengthLeft]
    exact iff_of_false (by omega) hzero

/-- **Normalised strings are equal exactly when their numbers are**, however
either was padded. -/
theorem setLengthLeftStorage_eq_iff {a b : Bytes} (ha : a.length ≤ 32) (hb : b.length ≤ 32) :
    setLengthLeftStorage a = setLengthLeftStorage b ↔ ofBigEndian a = ofBigEndian b := by
  constructor
  · intro h
    have hlen := congrArg List.length h
    by_cases hzero : ofBigEndian a = 0
    · rw [(length_setLengthLeftStorage_eq_zero ha).2 hzero] at hlen
      rw [hzero, (length_setLengthLeftStorage_eq_zero hb).1 hlen.symm]
    · have hzero' : ofBigEndian b ≠ 0 := by
        intro hb0
        rw [(length_setLengthLeftStorage_eq_zero hb).2 hb0] at hlen
        exact hzero ((length_setLengthLeftStorage_eq_zero ha).1 hlen)
      rw [setLengthLeftStorage, setLengthLeftStorage, if_neg (mt (eq_replicate_iff a).1 hzero),
        if_neg (mt (eq_replicate_iff b).1 hzero')] at h
      rw [← ofBigEndian_setLengthLeft_of_le ha, h, ofBigEndian_setLengthLeft_of_le hb]
  · intro h
    rw [setLengthLeftStorage, setLengthLeftStorage]
    simp only [eq_replicate_iff, h]
    split
    · rfl
    · exact eq_of_ofBigEndian_eq (by rw [length_setLengthLeft, length_setLengthLeft])
        (by rw [ofBigEndian_setLengthLeft_of_le ha, ofBigEndian_setLengthLeft_of_le hb, h])

@[simp] theorem ofBigEndian_stackBytes (val : ℕ) : ofBigEndian (stackBytes val) = val := by
  unfold stackBytes bigIntToBytes
  by_cases h : val = 0
  · rw [if_pos h, h]
    rfl
  · rw [if_neg h, if_neg h, ofBigEndian_bigEndian]

theorem length_stackBytes_le {val : ℕ} (h : val < 2 ^ 256) : (stackBytes val).length ≤ 32 := by
  unfold stackBytes bigIntToBytes
  by_cases hz : val = 0
  · simp [hz]
  · rw [if_neg hz, if_neg hz]
    exact length_bigEndian_le (by omega)

/-! ## The handlers -/

/-- What the handlers read: whether the frame is static and the gas it has left,
the value on the stack, the bytes stored now and originally, and what the access
witness charges for the write. -/
structure SstoreInput where
  isStatic : Bool
  gasLeft : ℤ
  val : ℕ
  current : Bytes
  original : Bytes
  writeAccountStorage : ℤ
  val_lt : val < 2 ^ 256
  length_current : current.length ≤ 32
  length_original : original.length ≤ 32

/-- What the handlers change: the refund counter, and whether the slot is warm. -/
structure SstoreFrame where
  gasRefund : ℤ
  warm : Bool
  deriving DecidableEq

/-- A gas handler: the gas so far to the gas charged. -/
abbrev DynamicGasHandler : Type :=
  ChainSpec → Hardfork → SstoreInput → SstoreFrame → ℤ → Except SstoreError (ℤ × SstoreFrame)

/-- A parameter in arithmetic: a `bigint` does not mix with `undefined` or
`null`. -/
def bigInt : Option ParamValue → Except SstoreError ℤ
  | some (.bigint n) => .ok n
  | _ => .error .TypeError

/-- `gasLeft <= param`: no number is at most `undefined`, and `null` is zero. -/
def atMost (gasLeft : ℤ) : Option ParamValue → Bool
  | some (.bigint n) => gasLeft ≤ n
  | some .null => gasLeft ≤ 0
  | none => false

namespace SstoreFrame

variable (f : SstoreFrame)

/-- **`refundGas`**. -/
def refundGas (amount : ℤ) : SstoreFrame := { f with gasRefund := f.gasRefund + amount }

/-- **`subRefund`**. -/
def subRefund (amount : ℤ) : Except SstoreError SstoreFrame :=
  if f.gasRefund - amount < 0 then .error .REFUND_EXHAUSTED
  else .ok { f with gasRefund := f.gasRefund - amount }

def addWarmedStorage : SstoreFrame := { f with warm := true }

end SstoreFrame

/-- **`updateSstoreGas`**: the rules before Constantinople. -/
def updateSstoreGas (common : ChainSpec) (hardfork : Hardfork) (currentStorage value : Bytes)
    (f : SstoreFrame) : Except SstoreError (ℤ × SstoreFrame) := do
  let param := fun p => common.getParamAtHardfork p hardfork
  if (value.length = 0 ∧ currentStorage.length = 0) ∨ (value.length > 0 ∧ currentStorage.length > 0) then
    return (← bigInt (param .sstoreResetGas), f)
  else if value.length = 0 ∧ currentStorage.length > 0 then
    let gas ← bigInt (param .sstoreResetGas)
    return (gas, f.refundGas (← bigInt (param .sstoreRefundGas)))
  else
    return (← bigInt (param .sstoreSetGas), f)

/-- **`accessStorageEIP2929`** of a write. -/
def accessStorageEIP2929 (common : ChainSpec) (hardfork : Hardfork) (f : SstoreFrame) (chargeGas : Bool) :
    Option ParamValue × SstoreFrame :=
  if !common.isEIPActiveAtHardfork 2929 hardfork then (some (.bigint 0), f)
  else
    let eip2929hardfork := (common.getHardforkForEIP 2929).getD hardfork
    if !f.warm then
      if chargeGas && !common.isEIPActiveAtHardfork 6800 hardfork then
        (common.getParamAtHardfork .coldsloadGas eip2929hardfork, f.addWarmedStorage)
      else (some (.bigint 0), f.addWarmedStorage)
    else if chargeGas && common.isEIPActiveAtHardfork 6800 hardfork then
      (common.getParamAtHardfork .warmstoragereadGas eip2929hardfork, f)
    else (some (.bigint 0), f)

/-- **`dynamicGasSstore`**: the handler of the first table. -/
def dynamicGasSstore : DynamicGasHandler := fun common hardfork runState f gas => do
  if runState.isStatic then .error .STATIC_STATE_CHANGE
  else
    let currentStorage := setLengthLeftStorage runState.current
    let (storeGas, f) ← updateSstoreGas common hardfork currentStorage
      (setLengthLeftStorage (stackBytes runState.val)) f
    let active6800 := common.isEIPActiveAtHardfork 6800 hardfork
    let coldAccessGas := if active6800 then runState.writeAccountStorage else 0
    let charge2929Gas := !active6800 || coldAccessGas == 0
    if common.isEIPActiveAtHardfork 2929 hardfork then
      let (accessGas, f) := accessStorageEIP2929 common hardfork f charge2929Gas
      return (gas + storeGas + coldAccessGas + (← bigInt accessGas), f)
    else
      return (gas + storeGas + coldAccessGas, f)

/-- A slot that is cleared for the first time grants the clear refund. -/
def grantClear (value : Bytes) (clear : Option ParamValue) (f : SstoreFrame) :
    Except SstoreError SstoreFrame := do
  if value.length = 0 then return f.refundGas (← bigInt clear)
  else return f

/-- A dirty slot that was not zero: a clear refund is taken back, or granted. -/
def clearRefund (originalStorage currentStorage value : Bytes) (clear : Option ParamValue)
    (f : SstoreFrame) : Except SstoreError SstoreFrame := do
  if originalStorage.length > 0 then
    if currentStorage.length = 0 then f.subRefund (← bigInt clear)
    else if value.length = 0 then return f.refundGas (← bigInt clear)
    else return f
  else return f

/-- A dirty slot that is set back to what it was, whether that is zero or not. -/
def resetRefund (originalStorage value : Bytes) (zero nonzero : Except SstoreError ℤ)
    (f : SstoreFrame) : Except SstoreError SstoreFrame := do
  if originalStorage = value then
    if originalStorage.length = 0 then return f.refundGas (← zero)
    else return f.refundGas (← nonzero)
  else return f

/-- **`dynamicGasSstoreEIP1283`**. It compares `value` as it is, unpadded. -/
def dynamicGasSstoreEIP1283 : DynamicGasHandler := fun common hardfork runState f gas => do
  if runState.isStatic then .error .STATIC_STATE_CHANGE
  else
    let value := stackBytes runState.val
    let currentStorage := setLengthLeftStorage runState.current
    let originalStorage := setLengthLeftStorage runState.original
    let eip1283Hardfork := (common.getHardforkForEIP 1283).getD hardfork
    let param := fun p => common.getParamAtHardfork p eip1283Hardfork
    if currentStorage = value then
      return (gas + (← bigInt (param .netSstoreNoopGas)), f)
    else if originalStorage = currentStorage then
      if originalStorage.length = 0 then
        return (gas + (← bigInt (param .netSstoreInitGas)), f)
      else
        let f ← grantClear value (param .netSstoreClearRefundGas) f
        return (gas + (← bigInt (param .netSstoreCleanGas)), f)
    else
      let f ← clearRefund originalStorage currentStorage value (param .netSstoreClearRefundGas) f
      let f ← resetRefund originalStorage value (bigInt (param .netSstoreResetClearRefundGas))
        (bigInt (param .netSstoreResetRefundGas)) f
      return (gas + (← bigInt (param .netSstoreDirtyGas)), f)

/-- The cold surcharge of `dynamicGasSstoreEIP2200`, which warms the slot. -/
def coldAccess (common : ChainSpec) (hardfork : Hardfork) (f : SstoreFrame) :
    Option ParamValue × SstoreFrame :=
  if common.isEIPActiveAtHardfork 2929 hardfork && !f.warm then
    if !common.isEIPActiveAtHardfork 6800 hardfork then
      (common.getParamAtHardfork .coldsloadGas hardfork, f.addWarmedStorage)
    else (some (.bigint 0), f.addWarmedStorage)
  else (some (.bigint 0), f)

/-- The difference of two parameters. -/
def bigIntSub (a b : Option ParamValue) : Except SstoreError ℤ := do
  return (← bigInt a) - (← bigInt b)

/-- **`dynamicGasSstoreEIP2200`**. -/
def dynamicGasSstoreEIP2200 : DynamicGasHandler := fun common hardfork runState f gas => do
  let param := fun p => common.getParamAtHardfork p hardfork
  if runState.isStatic then .error .STATIC_STATE_CHANGE
  else
    let currentStorage := setLengthLeftStorage runState.current
    let originalStorage := setLengthLeftStorage runState.original
    let normalizedValue := setLengthLeftStorage (stackBytes runState.val)
    if atMost runState.gasLeft (param .sstoreSentryEIP2200Gas) then .error .OUT_OF_GAS
    else
      let (coldAccessCost, f) := coldAccess common hardfork f
      let warmStorageReadCost := param .sstoreNoopEIP2200Gas
      let sstoreResetGas := param .sstoreCleanEIP2200Gas
      if currentStorage = normalizedValue then
        return (gas + (← bigInt coldAccessCost) + (← bigInt warmStorageReadCost), f)
      else if originalStorage = currentStorage then
        if originalStorage.length = 0 then
          return (gas + (← bigInt coldAccessCost) + (← bigInt (param .sstoreInitEIP2200Gas)), f)
        else
          let f ← grantClear normalizedValue (param .sstoreClearRefundEIP2200Gas) f
          return (gas + (← bigInt coldAccessCost) + (← bigInt sstoreResetGas), f)
      else
        let f ← clearRefund originalStorage currentStorage normalizedValue
          (param .sstoreClearRefundEIP2200Gas) f
        let f ← resetRefund originalStorage normalizedValue
          (bigIntSub (param .sstoreInitEIP2200Gas) warmStorageReadCost)
          (bigIntSub sstoreResetGas warmStorageReadCost) f
        return (gas + (← bigInt coldAccessCost) + (← bigInt warmStorageReadCost), f)

/-- The entry of `SSTORE` in a jump table. -/
structure SstoreOperation where
  dynamicGas : DynamicGasHandler
  constantGas : ℤ

def enableEIP1283 (table : SstoreOperation) : SstoreOperation :=
  { table with dynamicGas := dynamicGasSstoreEIP1283 }

def enableEIP2200 (table : SstoreOperation) : SstoreOperation :=
  { table with dynamicGas := dynamicGasSstoreEIP2200 }

/-- **`buildJumpTable`**, the entry of `SSTORE`. The two enablers are asked for at
each other's hardfork. -/
def buildJumpTable (common : ChainSpec) (hardfork : Hardfork) : Except SstoreError SstoreOperation := do
  let table : SstoreOperation := ⟨dynamicGasSstore, 0⟩
  let table := if common.hardforkGte hardfork .istanbul then enableEIP1283 table else table
  let table := if common.hardforkGte hardfork .constantinople then enableEIP2200 table else table
  match common.getParamAtHardfork .sstoreGas hardfork with
  | none => return table
  | some baseFee => return { table with constantGas := ← bigInt (some baseFee) }

/-- **What an `SSTORE` charges**: the handler of the table on the constant gas. -/
def sstoreGas (common : ChainSpec) (hardfork : Hardfork) (runState : SstoreInput) (f : SstoreFrame) :
    Except SstoreError (ℤ × SstoreFrame) := do
  let operation ← buildJumpTable common hardfork
  operation.dynamicGas common hardfork runState f operation.constantGas

end TsEthereum.Evm
