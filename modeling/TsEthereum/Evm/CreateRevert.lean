import TsEthereum.Evm.GasBound

/-!
# Creates that fail

What `_executeCreate` makes of init code that ends in an error. The size limit and the fee of a
deposit are only for code that was returned; the prefix of EIP-3541 is looked for in whatever the
interpreter returned, so that a `REVERT` whose data begin with `0xEF` is taken for a contract that
must not be deployed: it uses all the gas and loses its data.
-/

namespace TsEthereum.Evm

variable {evm : EVM} {exec : Exec} {m : Message} {w w' : World} {e : FrameEnd} {address : Bytes20}
variable {error : EVMErrorMessage} {initCode : Bytes} {result : ExecResult}

/-- **A create that comes to its init code**, which leaves a world and ends. -/
def EVM.CreateRuns (evm : EVM) (exec : Exec) (m : Message) (w : World) (address : Bytes20)
    (w' : World) (e : FrameEnd) : Prop :=
  ∃ paid, _reduceSenderBalance (w.state.account m.caller) m w = .ok paid ∧
    ¬ (evm.isEIPActive 3860 ∧ evm.params.maxInitCodeSize < m.data.length ∧
      ¬ evm.allowUnlimitedInitCodeSize) ∧
    evm._generateAddress m m.data paid = some address ∧ ¬ collides address paid ∧ m.data ≠ [] ∧
    (evm.endow (evm.createdMessage m m.data address) address paid).2 = none ∧
    evm.interpret exec (startFrame (evm.createdMessage m m.data address) address
        (evm.endow (evm.createdMessage m m.data address) address paid).1) m.data
      (evm.endow (evm.createdMessage m m.data address) address paid).1 = some (w', e)

/-- **What is returned is taken for a contract** that EIP-3541 refuses, or that legacy code must
not deploy. -/
def EVM.RefusedPrefix (evm : EVM) (initCode returnValue : Bytes) : Prop :=
  evm.isEIPActive 3541 ∧ returnValue[0]? = some 0xef ∧
    (¬ evm.isEIPActive 3540 ∨ ¬ isEOF initCode)

/-- **The deposit of what failed**: nothing is charged, and only the prefix is looked at. -/
theorem EVM.codeDeposit_of_error (evm : EVM) (initCode : Bytes) (h : result.exceptionError = some error)
    (hused : result.executionGasUsed ≤ m.gasLimit) :
    (evm.RefusedPrefix initCode result.returnValue → evm.codeDeposit m initCode result =
      (result.failed .INVALID_BYTECODE_RESULT m.gasLimit, false)) ∧
    (¬ evm.RefusedPrefix initCode result.returnValue →
      evm.codeDeposit m initCode result = (result, false)) := by
  have hne : ¬ result.exceptionError = none := by
    rw [h]
    rintro ⟨⟩
  have hpaid : result.executionGasUsed + 0 ≤ m.gasLimit ∧
      (evm.allowUnlimitedContractSize ∨ (decide (¬ (result.exceptionError = none ∧
        evm.hardforkGte .spuriousDragon ∧
          evm.params.maxCodeSize < result.returnValue.length))) = true) := by
    refine ⟨by omega, .inr ?_⟩
    exact decide_eq_true fun hand => hne hand.1
  constructor
  · intro hrefused
    unfold EVM.RefusedPrefix at hrefused
    simp only [EVM.codeDeposit, if_neg hne]
    rw [if_pos hpaid, if_pos hrefused]
  · intro hnot
    unfold EVM.RefusedPrefix at hnot
    simp only [EVM.codeDeposit, if_neg hne]
    rw [if_pos hpaid, if_neg hnot, add_zero]

theorem EVM.executeCreate_of_runs (h : evm.CreateRuns exec m w address w' e) :
    ∃ w'' sets, sets.gasLimit = m.gasLimit ∧ evm._executeCreate exec m w = some (w'', .ok
      ⟨(evm.codeDeposit sets m.data (interpreterResult m e)).1, some address, sets⟩) := by
  obtain ⟨paid, hpaid, hsize, haddress, hfree, hcode, hendowed, hrun⟩ := h
  have hexit : ¬ (m.data = [] ∨
      (evm.endow (evm.createdMessage m m.data address) address paid).2.isSome = true) := by
    rw [hendowed]
    rintro (hnil | hsome)
    · exact hcode hnil
    · cases hsome
  let sets : Message := { evm.createdMessage m m.data address with
    selfdestruct := e.frame.selfdestruct
    createdAddresses := e.frame.createdAddresses }
  let deposit := evm.codeDeposit sets m.data (interpreterResult m e)
  have hcreate : evm.createAt exec m m.data address paid = some
      (evm.postMessageCleanup sets (evm.saveCode address deposit.1 deposit.2 w'),
        ⟨deposit.1, some address, sets⟩) := by
    rw [createAt]
    dsimp only
    rw [if_neg hfree, if_neg hexit, runInterpreter, hrun]
    rfl
  refine ⟨evm.postMessageCleanup sets (evm.saveCode address deposit.1 deposit.2 w'), sets, rfl, ?_⟩
  rw [_executeCreate, hpaid]
  dsimp only
  rw [if_neg hsize, haddress]
  dsimp only
  rw [hcreate]
  rfl

theorem EVM.CreateRuns.within (h : evm.CreateRuns exec m w address w' e) (hexec : Bounded exec)
    (hlimit : 0 ≤ m.gasLimit) : (interpreterResult m e).executionGasUsed ≤ m.gasLimit := by
  obtain ⟨paid, -, -, -, -, -, -, hrun⟩ := h
  obtain ⟨hpos, -⟩ := interpret_left hexec hlimit hrun
  change gasUsed m e ≤ m.gasLimit
  rw [gasUsed]
  split
  · omega
  · omega
  · omega
  · exact le_rfl

/-- **The create keeps the `REVERT`**: its error, its data, and the gas that is left. -/
def EVM.KeepsRevert (evm : EVM) (exec : Exec) (m : Message) (w : World) (e : FrameEnd) : Prop :=
  ∃ w' r, evm._executeCreate exec m w = some (w', .ok r) ∧
    r.execResult.executionGasUsed = m.gasLimit - e.frame.gasLeft ∧
    r.execResult.exceptionError = some .REVERT ∧ r.execResult.returnValue = e.returnValue

/-- **The create leaves a failure alone**: its result is that of the interpreter. -/
def EVM.KeepsFailure (evm : EVM) (exec : Exec) (m : Message) (w : World) (e : FrameEnd) : Prop :=
  ∃ w' r, evm._executeCreate exec m w = some (w', .ok r) ∧ r.execResult = interpreterResult m e

theorem EVM.keepsFailure_iff (h : evm.CreateRuns exec m w address w' e) (hexec : Bounded exec)
    (hlimit : 0 ≤ m.gasLimit) (herror : e.exceptionError = some error) :
    evm.KeepsFailure exec m w e ↔ ¬ evm.RefusedPrefix m.data e.returnValue := by
  obtain ⟨w'', sets, hsets, hcreate⟩ := executeCreate_of_runs h
  obtain ⟨hrefused, hkept⟩ := evm.codeDeposit_of_error m.data
    (show (interpreterResult m e).exceptionError = _ from herror) (hsets ▸ h.within hexec hlimit)
  constructor
  · rintro ⟨w₁, r, hr, hresult⟩ hprefix
    rw [hcreate] at hr
    obtain ⟨-, hok⟩ := Prod.mk.inj (Option.some.inj hr)
    obtain rfl := Except.ok.inj hok
    -- what is refused has no data, but it had a first byte
    rw [hrefused hprefix] at hresult
    have hnil : [] = e.returnValue := congrArg ExecResult.returnValue hresult
    have hbyte := hprefix.2.1
    rw [← hnil] at hbyte
    cases hbyte
  · intro hnot
    refine ⟨_, _, hcreate, ?_⟩
    rw [hkept hnot]

theorem EVM.keepsRevert_iff_keepsFailure (h : evm.CreateRuns exec m w address w' e)
    (hexec : Bounded exec) (hlimit : 0 ≤ m.gasLimit) (hrevert : e.exceptionError = some .REVERT) :
    evm.KeepsRevert exec m w e ↔ ¬ evm.RefusedPrefix m.data e.returnValue := by
  have hgas : (interpreterResult m e).executionGasUsed = m.gasLimit - e.frame.gasLeft := by
    change gasUsed m e = _
    rw [gasUsed, hrevert]
  constructor
  · rintro ⟨w₁, r, hr, -, -, hvalue⟩ hprefix
    obtain ⟨w'', sets, hsets, hcreate⟩ := executeCreate_of_runs h
    obtain ⟨hrefused, -⟩ := evm.codeDeposit_of_error m.data
      (show (interpreterResult m e).exceptionError = _ from hrevert) (hsets ▸ h.within hexec hlimit)
    rw [hcreate] at hr
    obtain ⟨-, hok⟩ := Prod.mk.inj (Option.some.inj hr)
    obtain rfl := Except.ok.inj hok
    rw [hrefused hprefix] at hvalue
    have hnil : [] = e.returnValue := hvalue
    have hbyte := hprefix.2.1
    rw [← hnil] at hbyte
    cases hbyte
  · intro hnot
    obtain ⟨w₁, r, hr, hresult⟩ := (keepsFailure_iff h hexec hlimit hrevert).2 hnot
    refine ⟨w₁, r, hr, ?_, ?_, ?_⟩
    · rw [hresult, hgas]
    · rw [hresult]
      exact hrevert
    · rw [hresult]
      rfl

theorem EVM.tangerineWhistle_of_byzantium (h : evm.hardforkGte .byzantium = true) :
    evm.hardforkGte .tangerineWhistle = true := by
  have hle := (ChainSpec.hardforkGte_iff).1 h
  refine (ChainSpec.hardforkGte_iff).2 (le_trans ?_ hle)
  decide

/-- **Failed creation**, from Byzantium on: a `REVERT` keeps its gas, its error and its data, and
any failure the result of the interpreter, if and only if the data are not refused as code. -/
theorem keepsRevert_iff (evm : EVM) (hfork : evm.hardforkGte .byzantium = true)
    (hstipend : evm.params.callStipendGas ≤ evm.params.callValueTransferGas) (program : Program)
    (m : Message) (hlimit : 0 ≤ m.gasLimit) (w w' : World) (address : Bytes20) (e : FrameEnd)
    (hruns : evm.CreateRuns (program.run evm) m w address w' e) :
    (e.exceptionError = some .REVERT →
      (evm.KeepsRevert (program.run evm) m w e ↔ ¬ evm.RefusedPrefix m.data e.returnValue)) ∧
    (e.exceptionError.isSome = true →
      (evm.KeepsFailure (program.run evm) m w e ↔ ¬ evm.RefusedPrefix m.data e.returnValue)) := by
  have hexec : Bounded (program.run evm) :=
    program.run_bounded (EVM.tangerineWhistle_of_byzantium hfork) hstipend
  constructor
  · intro hrevert
    exact EVM.keepsRevert_iff_keepsFailure hruns hexec hlimit hrevert
  · intro hsome
    obtain ⟨error, herror⟩ := Option.isSome_iff_exists.1 hsome
    exact EVM.keepsFailure_iff hruns hexec hlimit herror

/-- Init code that spends some gas and reverts with one byte. -/
def revertByte (byte : UInt8) : Program :=
  .useGas 100 (.halt [byte] (some ⟨.REVERT, by rintro ⟨⟩⟩))

/-- A create of depth 1. -/
def sampleCreate : Message where
  caller := repeated 1
  to_ := none
  _codeAddress := none
  gasLimit := 50000
  value := 0
  data := [0x00]
  code := none
  depth := 1
  isStatic := false
  isCompiled := false
  salt := some (List.replicate 32 0)
  selfdestruct := ∅
  createdAddresses := ∅
  delegatecall := false
  gasRefund := 0

theorem runs_sampleCreate (byte : UInt8) : ∃ w' e,
    (someEVM .london).CreateRuns ((revertByte byte).run (someEVM .london)) sampleCreate
        (someWorld (repeated 1) 10) (lastBytes KECCAK256_RLP) w' e ∧
      e.exceptionError = some .REVERT ∧ e.returnValue = [byte] ∧ e.frame.gasLeft = 49900 :=
  ⟨_, _, ⟨_, rfl, by decide, rfl, by decide, by decide, rfl, rfl⟩, rfl, rfl, rfl⟩

/-- A byte that a contract may start with is kept. -/
theorem keepsRevert_iff_sampleCreate : ∃ e : FrameEnd, e.returnValue = [1] ∧
    (someEVM .london).KeepsRevert ((revertByte 1).run (someEVM .london)) sampleCreate
      (someWorld (repeated 1) 10) e := by
  obtain ⟨w', e, hruns, hrevert, hvalue, -⟩ := runs_sampleCreate 1
  refine ⟨e, hvalue, ((keepsRevert_iff (someEVM .london) (by decide) (by decide) (revertByte 1)
    sampleCreate (by decide) _ w' _ e hruns).1 hrevert).2 ?_⟩
  rintro ⟨-, hbyte, -⟩
  rw [hvalue] at hbyte
  cases hbyte

/-- **A `REVERT` with the byte `0xEF` is not kept**: the create fails as one of a contract that
must not be deployed. -/
theorem not_keepsRevert_sampleCreate : ∃ w' e,
    (someEVM .london).CreateRuns ((revertByte 0xef).run (someEVM .london)) sampleCreate
        (someWorld (repeated 1) 10) (lastBytes KECCAK256_RLP) w' e ∧
      e.exceptionError = some .REVERT ∧ e.returnValue = [0xef] ∧
      ¬ (someEVM .london).KeepsRevert ((revertByte 0xef).run (someEVM .london)) sampleCreate
        (someWorld (repeated 1) 10) e := by
  obtain ⟨w', e, hruns, hrevert, hvalue, -⟩ := runs_sampleCreate 0xef
  refine ⟨w', e, hruns, hrevert, hvalue, ?_⟩
  have hexec : Bounded ((revertByte 0xef).run (someEVM .london)) :=
    (revertByte 0xef).run_bounded (by decide) (by decide)
  rw [EVM.keepsRevert_iff_keepsFailure hruns hexec (by decide) hrevert, not_not]
  exact ⟨by decide, by rw [hvalue]; rfl, .inl (by decide)⟩

end TsEthereum.Evm
