import TsEthereum.Evm.Hardfork
import TsEthereum.Evm.Sstore
import TsEthereum.Evm.World

/-!
# Frames and the messages they send

A `Frame` is the `Interpreter` with its `RunState`. What a contract does is a
`Program`: a tree of the instructions that charge gas, write, or send messages, over
which the results so far decide how it goes on, so that every behaviour of every
bytecode is one. An instruction that sends a message prices it
(`dynamicGasCall` and its siblings), builds it (`opCall`, `_baseCall`, `create`) and takes
the result back.

EIP-6800 comes with no hardfork (`HARDFORK_EIPS`), so its branches are left out.
-/

namespace TsEthereum.Evm

/-- The `EVMErrorMessage`s. `STOP` is not an exception: a frame that stops has none. -/
inductive EVMErrorMessage where
  | OUT_OF_GAS | CODESTORE_OUT_OF_GAS | CODESIZE_EXCEEDS_MAXIMUM | STACK_UNDERFLOW
  | STACK_OVERFLOW | INVALID_JUMP | INVALID_OPCODE | OUT_OF_RANGE | REVERT
  | STATIC_STATE_CHANGE | INTERNAL_ERROR | CREATE_COLLISION | REFUND_EXHAUSTED
  | VALUE_OVERFLOW | INSUFFICIENT_BALANCE | INVALID_BYTECODE_RESULT
  | INITCODE_SIZE_VIOLATION | INVALID_INPUT_LENGTH | INVALID_EOF_FORMAT
  | BLS_12_381_INVALID_INPUT_LENGTH | BLS_12_381_POINT_NOT_ON_CURVE
  | BLS_12_381_INPUT_EMPTY | BLS_12_381_FP_NOT_IN_FIELD | BN254_FP_NOT_IN_FIELD
  | INVALID_COMMITMENT | INVALID_INPUTS | INVALID_PROOF
  /-- An `EOFErrorMessage`. -/
  | eof (text : String)
  deriving DecidableEq

/-- The errors that end a frame or a precompile: `CODESTORE_OUT_OF_GAS` is only one of
the deposit of a code. -/
abbrev Trap : Type := {error : EVMErrorMessage // error ≠ .CODESTORE_OUT_OF_GAS}

def MAX_UINT64 : ℕ := 2 ^ 64 - 1

def MAX_INTEGER : ℕ := 2 ^ 256 - 1

/-- An `ExecResult`. -/
structure ExecResult where
  executionGasUsed : ℤ
  exceptionError : Option EVMErrorMessage
  returnValue : Bytes
  gasRefund : Option ℤ
  selfdestruct : Option (Finset Bytes20)
  createdAddresses : Option (Finset Bytes20)

namespace ExecResult

/-- `{ ...result, ...EVMErrorResult(error, gasUsed) }`. -/
def failed (result : ExecResult) (error : EVMErrorMessage) (gasUsed : ℤ) : ExecResult :=
  { result with executionGasUsed := gasUsed, exceptionError := some error, returnValue := [] }

def EVMErrorResult (error : EVMErrorMessage) (gasUsed : ℤ) : ExecResult where
  executionGasUsed := gasUsed
  exceptionError := some error
  returnValue := []
  gasRefund := none
  selfdestruct := none
  createdAddresses := none

def OOGResult (gasLimit : ℤ) : ExecResult := EVMErrorResult .OUT_OF_GAS gasLimit

end ExecResult

/-- A `PrecompileFunc`, by what all of them do: refuse an input with all the gas, or
charge a cost and then compute. -/
structure Precompile where
  reject : Bytes → Option Trap
  gasUsed : Bytes → ℕ
  output : Bytes → Except Trap Bytes

/-- **`runPrecompile`**. -/
def Precompile.run (code : Precompile) (data : Bytes) (gasLimit : ℤ) : ExecResult :=
  match code.reject data with
  | some error => .EVMErrorResult error.1 gasLimit
  | none =>
    if gasLimit < code.gasUsed data then .OOGResult gasLimit
    else
      match code.output data with
      | .error error => .EVMErrorResult error.1 gasLimit
      | .ok returnValue =>
        { executionGasUsed := code.gasUsed data
          exceptionError := none
          returnValue
          gasRefund := none
          selfdestruct := none
          createdAddresses := none }

/-- What `getParamAtHardfork` gives at the fork of an EVM; `opcodeMaxInitCodeSize` is
`maxInitCodeSize` at the hardfork of EIP-3860, which the opcodes read. -/
structure EvmParams where
  callValueTransferGas : ℕ
  callStipendGas : ℕ
  createDataGas : ℕ
  maxCodeSize : ℕ
  maxInitCodeSize : ℕ
  opcodeMaxInitCodeSize : ℕ
  stackLimit : ℕ
  selfdestructRefundGas : ℕ
  minRetainedGas : ℕ
  minCalleeGas : ℕ

/-- **The `EVM`.** -/
structure EVM where
  common : ChainSpec
  fork : Hardfork
  params : EvmParams
  allowUnlimitedContractSize : Bool
  allowUnlimitedInitCodeSize : Bool
  precompiles : Bytes20 → Option Precompile
  keccak256 : Bytes → Bytes32

/-- `isEIPActiveAtHardfork`, at the fork of the EVM. -/
def EVM.isEIPActive (evm : EVM) (eip : ℕ) : Bool := evm.common.isEIPActiveAtHardfork eip evm.fork

/-- `hardforkGte`, of the fork of the EVM. -/
def EVM.hardforkGte (evm : EVM) (target : Hardfork) : Bool := evm.common.hardforkGte evm.fork target

def isEOF (code : Bytes) : Bool := code.take 2 = [0xef, 0x00]

/-- **A `Message`.** -/
structure Message where
  caller : Bytes20
  to_ : Option Bytes20
  _codeAddress : Option Bytes20
  gasLimit : ℤ
  value : ℕ
  data : Bytes
  code : Option Bytes
  depth : ℕ
  isStatic : Bool
  isCompiled : Bool
  delegatecall : Bool
  salt : Option Bytes
  gasRefund : ℤ
  selfdestruct : Finset Bytes20
  createdAddresses : Finset Bytes20

/-- **A frame**: the `Interpreter`, its environment and its `RunState`. `contract` is
the account as last read. -/
structure Frame where
  address : Bytes20
  caller : Bytes20
  callValue : ℕ
  isStatic : Bool
  depth : ℕ
  contract : AccountFields
  eof : Bool
  gasLeft : ℤ
  gasRefund : ℤ
  selfdestruct : Finset Bytes20
  createdAddresses : Finset Bytes20

/-- How a frame ends. -/
structure FrameEnd where
  frame : Frame
  returnValue : Bytes
  exceptionError : Option EVMErrorMessage

/-- The opcodes that call. -/
inductive CallOpcode where
  | CALL | CALLCODE | DELEGATECALL | STATICCALL | EXTCALL | EXTDELEGATECALL | EXTSTATICCALL
  deriving DecidableEq

/-- A call with its operands. `gas` is what it costs but for the transfer of a value:
the constant, memory, access and new account gas. -/
structure CallOp where
  opcode : CallOpcode
  gas : ℕ
  currentGasLimit : ℕ
  toAddress : Bytes20
  value : ℕ
  data : Bytes

/-- The opcodes that create. -/
inductive CreateOpcode where
  | CREATE | CREATE2 | EOFCREATE
  deriving DecidableEq

/-- A create with its operands, and its gas. -/
structure CreateOp where
  opcode : CreateOpcode
  gas : ℕ
  value : ℕ
  data : Bytes
  salt : Bytes

/-- A result that a caller has of a message: `runCall` returned, with the message as
it left it. -/
structure EVMResult where
  execResult : ExecResult
  createdAddress : Option Bytes20
  message : Message

/-- **What a contract does.** Each instruction says what comes after it, and `observe`
lets it depend on all that a frame can see. -/
inductive Program where
  /-- `STOP`, `RETURN`, `REVERT`, or an exception. -/
  | halt (returnValue : Bytes) (exceptionError : Option Trap)
  /-- A throw of what is not an `EVMError`. -/
  | throw
  | observe (next : Frame → World → Program)
  | useGas (amount : ℕ) (next : Program)
  | refundGas (amount : ℕ) (next : Program)
  | subRefund (amount : ℕ) (next : Program)
  | storageStore (key : Bytes32) (value : Bytes) (next : Program)
  | transientStorageStore (key : Bytes32) (value : Bytes) (next : Program)
  | call (op : CallOp) (callee : Program) (next : ℕ → Program)
  | create (op : CreateOp) (init : Program) (next : ℕ → Program)
  | selfDestruct (gas : ℕ) (toAddress : Bytes20)

namespace Frame

variable (f : Frame)

/-- A `trap`. -/
def trap (error : EVMErrorMessage) : FrameEnd := ⟨f, [], some error⟩

/-- **`useGas`**; `none` where it runs out of gas. -/
def useGas (amount : ℤ) : Option Frame :=
  if f.gasLeft - amount < 0 then none else some { f with gasLeft := f.gasLeft - amount }

/-- The trap of `useGas`. -/
def outOfGas : FrameEnd := { f with gasLeft := 0 }.trap .OUT_OF_GAS

def refundGas (amount : ℕ) : Frame := { f with gasRefund := f.gasRefund + amount }

/-- `subRefund`; `none` where it traps. -/
def subRefund (amount : ℕ) : Option Frame :=
  if f.gasRefund - amount < 0 then none else some { f with gasRefund := f.gasRefund - amount }

def addStipend (amount : ℕ) : Frame := { f with gasLeft := f.gasLeft + amount }

end Frame

namespace EVM

variable (evm : EVM)

/-! ## Calls -/

def maxCallGas (gasLimit gasLeft : ℤ) : ℤ :=
  if evm.hardforkGte .tangerineWhistle then
    let gasAllowed := gasLeft - gasLeft.tdiv 64
    if gasLimit > gasAllowed then gasAllowed else gasLimit
  else gasLimit

/-- The value a call sends. -/
def callValue (f : Frame) (op : CallOp) : ℕ :=
  match op.opcode with
  | .CALL | .CALLCODE | .EXTCALL => op.value
  | .DELEGATECALL | .EXTDELEGATECALL => f.callValue
  | .STATICCALL | .EXTSTATICCALL => 0

/-- The gas of a call, with that of a transfer. -/
def callGas (op : CallOp) : ℤ :=
  match op.opcode with
  | .CALL | .CALLCODE | .EXTCALL =>
    if op.value ≠ 0 then op.gas + evm.params.callValueTransferGas else op.gas
  | _ => op.gas

/-- `dynamicGasCall`, `dynamicGasCallcode`, `dynamicGasDelegatecall` and
`dynamicGasStaticcall`, from where the gas but that for the message is known:
`messageGasLimit`, or the trap. -/
def dynamicGasCall (f : Frame) (op : CallOp) : Except EVMErrorMessage ℤ :=
  let gas := evm.callGas op
  let gasLimit := evm.maxCallGas op.currentGasLimit (f.gasLeft - gas)
  match op.opcode with
  | .CALL =>
    if f.isStatic ∧ op.value ≠ 0 then .error .OUT_OF_GAS
    else if gasLimit > f.gasLeft - gas then .error .OUT_OF_GAS
    else if gas > f.gasLeft then .error .OUT_OF_GAS
    else .ok gasLimit
  | .STATICCALL => .ok gasLimit
  | _ => if gasLimit > f.gasLeft - gas then .error .OUT_OF_GAS else .ok gasLimit

/-- What EIP-7069 leaves for a message. -/
def extGasLimit (currentGasAvailable : ℤ) : ℤ :=
  let reducedGas := currentGasAvailable.tdiv 64
  if reducedGas < evm.params.minRetainedGas then currentGasAvailable - evm.params.minRetainedGas
  else currentGasAvailable - reducedGas

/-- `dynamicGasExtcall`, `dynamicGasExtdelegatecall` and `dynamicGasExtstaticcall`,
likewise: `-1` where there is to be no message. -/
def dynamicGasExtcall (f : Frame) (op : CallOp) : Except EVMErrorMessage ℤ :=
  if ¬ f.eof then .error .INVALID_OPCODE
  else if op.opcode = .EXTCALL ∧ f.isStatic ∧ op.value ≠ 0 then .error .STATIC_STATE_CHANGE
  else
    let gasLimit := evm.extGasLimit (f.gasLeft - evm.callGas op)
    if evm.params.stackLimit ≤ f.depth ∨
        (op.opcode = .EXTCALL ∧ f.contract.balance < op.value) ∨
        gasLimit < evm.params.minCalleeGas then
      .ok (-1)
    else .ok gasLimit

/-- An opcode of EIP-7069. -/
def isExt (op : CallOp) : Bool :=
  op.opcode = .EXTCALL ∨ op.opcode = .EXTDELEGATECALL ∨ op.opcode = .EXTSTATICCALL

/-- The message of `call`, `callCode`, `callDelegate` and `callStatic`, with the sets
and the refund that `_baseCall` gives it. -/
def callMessage (f : Frame) (op : CallOp) (gasLimit : ℤ) : Message :=
  let delegate : Bool := op.opcode = .DELEGATECALL ∨ op.opcode = .EXTDELEGATECALL
  { caller := if delegate then f.caller else f.address
    to_ := if delegate ∨ op.opcode = .CALLCODE then some f.address else some op.toAddress
    _codeAddress := if delegate ∨ op.opcode = .CALLCODE then some op.toAddress else none
    gasLimit
    value := callValue f op
    data := op.data
    code := none
    depth := f.depth + 1
    isStatic := if op.opcode = .STATICCALL ∨ op.opcode = .EXTSTATICCALL then true else f.isStatic
    isCompiled := false
    delegatecall := delegate
    salt := none
    gasRefund := f.gasRefund
    selfdestruct := f.selfdestruct
    createdAddresses := if evm.isEIPActive 6780 then f.createdAddresses else ∅ }

/-- What sending a message comes to: the frame ends, an opcode pushes its result
without a message, or there is one. -/
inductive Sent where
  | trapped (frameEnd : FrameEnd)
  | skipped (f : Frame) (w : World) (result : ℕ)
  | message (f : Frame) (w : World) (m : Message)

/-- `_baseCall`, up to its message. -/
def _baseCall (f : Frame) (w : World) (m : Message) : Sent :=
  if evm.params.stackLimit ≤ f.depth ∨ (¬ m.delegatecall ∧ f.contract.balance < m.value) then
    .skipped f w 0
  else .message f w m

/-- **What the opcodes that call send**: `opCall`, `opCallcode`, `opDelegatecall`,
`opStaticcall`, `opExtcall`, `opExtdelegatecall` and `opExtstaticcall`. -/
def sendCall (f : Frame) (w : World) (op : CallOp) : Sent :=
  match if isExt op then evm.dynamicGasExtcall f op else evm.dynamicGasCall f op with
  | .error error => .trapped (f.trap error)
  | .ok gasLimit =>
    match f.useGas (evm.callGas op) with
    | none => .trapped f.outOfGas
    | some f =>
      if isExt op then
        if gasLimit = -1 then .skipped f w 1
        else if op.opcode = .EXTDELEGATECALL ∧ ¬ isEOF (w.state.code op.toAddress) then
          .skipped f w 1
        else evm._baseCall f w (evm.callMessage f op gasLimit)
      else if (op.opcode = .CALL ∨ op.opcode = .CALLCODE) ∧ op.value ≠ 0 then
        let f := f.addStipend evm.params.callStipendGas
        evm._baseCall f w (evm.callMessage f op (gasLimit + evm.params.callStipendGas))
      else evm._baseCall f w (evm.callMessage f op gasLimit)

/-! ## Creates -/

/-- The message of `create`. -/
def createMessage (f : Frame) (op : CreateOp) (gasLimit : ℤ) : Message where
  caller := f.address
  to_ := none
  _codeAddress := none
  gasLimit := gasLimit
  value := op.value
  data := op.data
  code := none
  depth := f.depth + 1
  isStatic := false
  isCompiled := false
  delegatecall := false
  salt := if op.opcode = .CREATE then none else some op.salt
  gasRefund := f.gasRefund
  selfdestruct := f.selfdestruct
  createdAddresses := if evm.isEIPActive 6780 then f.createdAddresses else ∅

/-- `create`, up to its message: the nonce goes up before the size of the init code
is looked at. -/
def _create (f : Frame) (w : World) (op : CreateOp) (gasLimit : ℤ) : Sent :=
  if evm.params.stackLimit ≤ f.depth ∨ f.contract.balance < op.value then .skipped f w 0
  else if MAX_UINT64 ≤ f.contract.nonce then .skipped f w 0
  else
    let f := { f with contract := { f.contract with nonce := f.contract.nonce + 1 } }
    let w := w.putAccount f.address f.contract
    if evm.isEIPActive 3860 ∧ evm.params.maxInitCodeSize < op.data.length ∧
        ¬ evm.allowUnlimitedInitCodeSize then
      .skipped f w 0
    else .message f w (evm.createMessage f op gasLimit)

/-- **What the opcodes that create send**: `opCreate`, `opCreate2` and `opEofcreate`,
with `dynamicGasCreate` and its siblings. -/
def sendCreate (f : Frame) (w : World) (op : CreateOp) : Sent :=
  if op.opcode = .EOFCREATE ∧ ¬ f.eof then .trapped (f.trap .INVALID_OPCODE)
  else if op.opcode ≠ .EOFCREATE ∧ f.isStatic then .trapped (f.trap .STATIC_STATE_CHANGE)
  else
    let gasLimit := evm.maxCallGas (f.gasLeft - op.gas) (f.gasLeft - op.gas)
    match f.useGas op.gas with
    | none => .trapped f.outOfGas
    | some f =>
      if op.opcode = .EOFCREATE then
        if f.isStatic then .trapped (f.trap .STATIC_STATE_CHANGE)
        else evm._create f w op gasLimit
      else if evm.isEIPActive 3860 ∧ evm.params.opcodeMaxInitCodeSize < op.data.length ∧
          ¬ evm.allowUnlimitedInitCodeSize then
        .trapped (f.trap .INITCODE_SIZE_VIOLATION)
      else if isEOF op.data then .skipped f w 0
      else evm._create f w op gasLimit

/-! ## Results -/

def _getReturnCode (f : Frame) (r : EVMResult) (isEOFCreate : Bool) : ℕ :=
  if ¬ f.eof ∨ isEOFCreate then
    if r.execResult.exceptionError.isSome then 0 else 1
  else
    match r.execResult.exceptionError with
    | some .REVERT => 1
    | some _ => 2
    | none => 0

/-- A frame takes over the sets and the refund of a message, and reads its account
anew; `none` where there is none. -/
def takeOver (f : Frame) (w : World) (r : EVMResult) : Option Frame :=
  (w.state.accounts f.address).map fun contract =>
    { f with
      contract
      gasRefund := r.execResult.gasRefund.getD 0
      selfdestruct := f.selfdestruct ∪ r.message.selfdestruct
      createdAddresses :=
        if evm.isEIPActive 6780 then f.createdAddresses ∪ r.message.createdAddresses
        else f.createdAddresses }

/-- What a result comes to: the frame ends, or goes on with what it pushes. -/
inductive Received where
  | trapped (frameEnd : FrameEnd)
  | pushed (f : Frame) (result : ℕ)

/-- **`_baseCall`, from its result on.** -/
def receiveCall (f : Frame) (w : World) (r : EVMResult) : Option Received :=
  match f.useGas r.execResult.executionGasUsed with
  | none => some (.trapped f.outOfGas)
  | some f =>
    if r.execResult.exceptionError = none then
      (evm.takeOver f w r).map fun f => .pushed f (_getReturnCode f r false)
    else some (.pushed f (_getReturnCode f r false))

/-- **`create`, from its result on.** -/
def receiveCreate (f : Frame) (w : World) (r : EVMResult) : Option Received :=
  match f.useGas r.execResult.executionGasUsed with
  | none => some (.trapped f.outOfGas)
  | some f =>
    if r.execResult.exceptionError = none ∨
        r.execResult.exceptionError = some .CODESTORE_OUT_OF_GAS then
      (evm.takeOver f w r).map fun f =>
        match r.createdAddress with
        | some address => .pushed f (ofBigEndian address.1)
        | none => .pushed f (_getReturnCode f r true)
    else some (.pushed f (_getReturnCode f r true))

/-! ## Storage and selfdestructs -/

/-- `storageStore`; `none` where there is no account. -/
def storageStore (f : Frame) (w : World) (key : Bytes32) (value : Bytes) :
    Option (Frame × World) :=
  (w.state.accounts f.address).map fun contract =>
    ({ f with contract }, { w with state := w.state.putStorage f.address key value })

/-- **`_selfDestruct`**, up to its trap. What the balance of an account loses to no one
is burned. -/
def _selfDestruct (f : Frame) (w : World) (toAddress : Bytes20) : Frame × World :=
  let f :=
    if f.address ∈ f.selfdestruct then f else f.refundGas evm.params.selfdestructRefundGas
  let f := { f with selfdestruct := insert f.address f.selfdestruct }
  let toSelf : Bool := toAddress = f.address
  let w :=
    if toSelf then w
    else
      let toAccount := w.state.account toAddress
      w.putAccount toAddress { toAccount with balance := toAccount.balance + f.contract.balance }
  let doModify : Bool := ¬ evm.isEIPActive 6780 ∨ f.address ∈ f.createdAddresses ∨ ¬ toSelf
  if doModify then
    let account := w.state.account f.address
    let state := w.state.putAccount f.address { account with balance := 0 }
    (f, { w with
      state := if toSelf then { state with burned := state.burned + account.balance } else state })
  else (f, w)

end EVM

end TsEthereum.Evm
