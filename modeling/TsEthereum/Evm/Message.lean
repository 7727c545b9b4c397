import TsEthereum.Evm.Frame
import TsEthereum.Rlp.Model

/-!
# Messages

`EVM.runCall`: a message moves its value, runs what code it comes upon, deposits code
if it creates, and closes its checkpoint. A frame runs its `Program`, and the messages
that one sends are run by the programs below it.

A throw of what is not an `EVMError` is `none`; after one nothing is said of the world.
-/

namespace TsEthereum.Evm

/-- What runs a frame: the loop of `Interpreter.run`, on the code of the frame. -/
abbrev Exec : Type := Frame → World → Option (World × FrameEnd)

def DELEGATION_7702_FLAG : Bytes := [0xef, 0x01, 0x00]

/-- The last 20 bytes of a hash. -/
def lastBytes (hash : Bytes32) : Bytes20 :=
  ⟨hash.1.drop 12, by rw [List.length_drop, hash.2]⟩

def generateAddress (keccak256 : Bytes → Bytes32) (caller : Bytes20) (nonce : Bytes) : Bytes20 :=
  if ofBigEndian nonce = 0 then
    lastBytes (keccak256 (Rlp.encode (.list [.bytes caller.1, .bytes []])))
  else lastBytes (keccak256 (Rlp.encode (.list [.bytes caller.1, .bytes nonce])))

/-- `generateAddress2`; `none` where it throws. -/
def generateAddress2 (keccak256 : Bytes → Bytes32) (caller : Bytes20) (salt initCode : Bytes) :
    Option Bytes20 :=
  if salt.length ≠ 32 then none
  else some (lastBytes (keccak256 (0xff :: caller.1 ++ salt ++ (keccak256 initCode).1)))

namespace World

variable (w : World)

/-- `transientStorage.commit`. -/
def transientCommit : Option World := w.transient.commit.map fun t => { w with transient := t }

/-- `transientStorage.revert`. -/
def transientRevert : Option World := w.transient.revert.map fun t => { w with transient := t }

end World

def _reduceSenderBalance (account : AccountFields) (m : Message) (w : World) :
    Except EVMErrorMessage World :=
  if account.balance < m.value then .error .INSUFFICIENT_BALANCE
  else .ok (w.putAccount m.caller { account with balance := account.balance - m.value })

def _addToBalance (toAccount : AccountFields) (m : Message) (address : Bytes20) (w : World) :
    Except EVMErrorMessage World :=
  if MAX_INTEGER < toAccount.balance + m.value then .error .VALUE_OVERFLOW
  else .ok (w.putAccount address { toAccount with balance := toAccount.balance + m.value })

/-- `try { … } catch (e) { errorMessage = e }`. -/
def attempt (w : World) (errorMessage : Option EVMErrorMessage) :
    Except EVMErrorMessage World → World × Option EVMErrorMessage
  | .ok w' => (w', errorMessage)
  | .error e => (w, some e)

/-- **The transfer of `_executeCall`**: the credit is made after a failed debit too. -/
def transfer (m : Message) (address : Bytes20) (w : World) : World × Option EVMErrorMessage :=
  if m.delegatecall then (w, none)
  else
    let reduced := attempt w none (_reduceSenderBalance (w.state.account m.caller) m w)
    attempt reduced.1 reduced.2
      (_addToBalance (reduced.1.state.account address) m address reduced.1)

/-- What `_loadCode` comes to. -/
inductive LoadedCode where
  | precompile (code : Precompile)
  | bytes (code : Bytes) (isCompiled : Bool)

/-- There is no code, or it is empty. -/
def LoadedCode.isEmpty : LoadedCode → Bool
  | .precompile _ => false
  | .bytes code _ => code.isEmpty

namespace EVM

variable (evm : EVM) (exec : Exec)

/-- `_generateAddress`, for an init code; `none` where it throws: the nonce of a caller
that sent nothing yet less one is no number of bytes. -/
def _generateAddress (m : Message) (initCode : Bytes) (w : World) : Option Bytes20 :=
  match m.salt with
  | some salt => generateAddress2 evm.keccak256 m.caller salt initCode
  | none =>
    let nonce := (w.state.account m.caller).nonce
    if nonce = 0 then none
    else some (generateAddress evm.keccak256 m.caller (bigIntToBytes (nonce - 1)))

/-- **`_loadCode`**: a given code, a precompile, or the code of an account or of its
delegate; `none` where the delegate is no address. -/
def _loadCode (m : Message) (address : Bytes20) (w : World) : Option LoadedCode :=
  match m.code with
  | some code => some (.bytes code m.isCompiled)
  | none =>
    let codeAddress := m._codeAddress.getD address
    match evm.precompiles codeAddress with
    | some code => some (.precompile code)
    | none =>
      let code := w.state.code codeAddress
      if evm.isEIPActive 7702 ∧ code.take 3 = DELEGATION_7702_FLAG then
        let delegate := (code.drop 3).take 21
        if h : delegate.length = 20 then some (.bytes (w.state.code ⟨delegate, h⟩) false) else none
      else some (.bytes code false)

/-- `postMessageCleanup`, at depth 0. -/
def postMessageCleanup (m : Message) (w : World) : World :=
  if m.depth = 0 ∧ evm.isEIPActive 1153 then { w with transient := w.transient.clear } else w

/-- The frame that `runInterpreter` starts with. -/
def startFrame (m : Message) (address : Bytes20) (w : World) : Frame where
  address := address
  caller := m.caller
  callValue := m.value
  isStatic := m.isStatic
  depth := m.depth
  contract := w.state.account address
  eof := false
  gasLeft := m.gasLimit
  gasRefund := m.gasRefund
  selfdestruct := m.selfdestruct
  createdAddresses := m.createdAddresses

/-- `Interpreter.run`: the header of an EOF container, and the loop. What its
validation refuses, the loop's code refuses here. -/
def interpret (f : Frame) (code : Bytes) (w : World) : Option (World × FrameEnd) :=
  if ¬ evm.isEIPActive 3540 ∨ code[0]? ≠ some 0xef then exec f w
  else if code[1]? ≠ some 0x00 then some (w, f.trap .INVALID_BYTECODE_RESULT)
  else if code[2]? ≠ some 0x01 then some (w, f.trap .INVALID_EOF_FORMAT)
  else exec { f with eof := true } w

/-- The gas that `runInterpreter` counts as used. -/
def gasUsed (m : Message) (e : FrameEnd) : ℤ :=
  match e.exceptionError with
  | none | some .REVERT | some .INVALID_EOF_FORMAT => m.gasLimit - e.frame.gasLeft
  | some _ => m.gasLimit

/-- The result of `runInterpreter`. -/
def interpreterResult (m : Message) (e : FrameEnd) : ExecResult where
  executionGasUsed := gasUsed m e
  exceptionError := e.exceptionError
  returnValue := e.returnValue
  gasRefund := some e.frame.gasRefund
  selfdestruct := some (if e.exceptionError.isSome then ∅ else e.frame.selfdestruct)
  createdAddresses := some (if e.exceptionError.isSome then ∅ else e.frame.createdAddresses)

/-- **`runInterpreter`**, with the message as it leaves it: the sets of a message are
those of its frame. -/
def runInterpreter (m : Message) (address : Bytes20) (code : Bytes) (w : World) :
    Option (World × Message × ExecResult) :=
  (evm.interpret exec (startFrame m address w) code w).map fun (w, e) =>
    (w,
      { m with
        selfdestruct := e.frame.selfdestruct
        createdAddresses := e.frame.createdAddresses },
      interpreterResult m e)

/-- The result of a message that exits before any code is run. -/
def earlyExit (m : Message) (errorMessage : Option EVMErrorMessage) : ExecResult where
  executionGasUsed := 0
  exceptionError := errorMessage
  returnValue := []
  gasRefund := some m.gasRefund
  selfdestruct := none
  createdAddresses := none

/-- **`_executeCall`**. -/
def _executeCall (m : Message) (address : Bytes20) (w : World) : Option (World × EVMResult) :=
  let transferred := transfer m address w
  let w := transferred.1
  match evm._loadCode m address w with
  | none => none
  | some code =>
    if code.isEmpty ∨ transferred.2.isSome then some (w, ⟨earlyExit m transferred.2, none, m⟩)
    else
      match code with
      | .precompile code =>
        some (evm.postMessageCleanup m w,
          ⟨{ code.run m.data m.gasLimit with gasRefund := some m.gasRefund }, none, m⟩)
      | .bytes code isCompiled =>
        if isCompiled then none
        else
          (evm.runInterpreter exec m address code w).map fun (w, m, result) =>
            (evm.postMessageCleanup m w, ⟨result, none, m⟩)

/-- **The deposit of a code**: what it costs, what refuses it, and whether the deposit
alone ran out of gas. -/
def codeDeposit (m : Message) (initCode : Bytes) (result : ExecResult) : ExecResult × Bool :=
  let returnFee : ℤ :=
    if result.exceptionError = none then result.returnValue.length * evm.params.createDataGas else 0
  let totalGas := result.executionGasUsed + returnFee
  let allowedCodeSize : Bool :=
    ¬ (result.exceptionError = none ∧ evm.hardforkGte .spuriousDragon ∧
      evm.params.maxCodeSize < result.returnValue.length)
  if totalGas ≤ m.gasLimit ∧ (evm.allowUnlimitedContractSize ∨ allowedCodeSize) then
    if evm.isEIPActive 3541 ∧ result.returnValue[0]? = some 0xef ∧
        (¬ evm.isEIPActive 3540 ∨ ¬ isEOF initCode) then
      (result.failed .INVALID_BYTECODE_RESULT m.gasLimit, false)
    else ({ result with executionGasUsed := totalGas }, false)
  else if evm.hardforkGte .homestead then
    if ¬ allowedCodeSize then (result.failed .CODESIZE_EXCEEDS_MAXIMUM m.gasLimit, false)
    else (result.failed .OUT_OF_GAS m.gasLimit, false)
  else if totalGas - returnFee ≤ m.gasLimit then
    (result.failed .CODESTORE_OUT_OF_GAS (totalGas - returnFee), true)
  else (result.failed .OUT_OF_GAS m.gasLimit, false)

/-- The code of a new contract is saved; before Homestead, an account whose code could
not be paid for is put. -/
def saveCode (address : Bytes20) (result : ExecResult) (CodestoreOOG : Bool) (w : World) : World :=
  if result.exceptionError = none ∧ result.returnValue ≠ [] then
    { w with state := w.state.putCode evm.keccak256 address result.returnValue }
  else if CodestoreOOG ∧ ¬ evm.hardforkGte .homestead then
    w.putAccount address (w.state.account address)
  else w

/-- The message of a create, once its address is known. -/
def createdMessage (m : Message) (initCode : Bytes) (address : Bytes20) : Message :=
  { m with
    to_ := some address
    code := some initCode
    data := []
    createdAddresses :=
      if evm.isEIPActive 6780 then insert address m.createdAddresses else m.createdAddresses }

/-- The address of a new contract is taken: it has a nonce, a code or a storage. -/
def collides (address : Bytes20) (w : World) : Bool :=
  let toAccount := w.state.account address
  0 < toAccount.nonce ∨ toAccount.codeHash ≠ KECCAK256_NULL ∨ toAccount.storageRoot ≠ KECCAK256_RLP

/-- The account of a new contract is put, and its storage cleared. -/
def openContract (address : Bytes20) (w : World) : World :=
  let w := w.putAccount address (w.state.account address)
  { w with state := w.state.clearStorage address }

/-- The account of a new contract, with its nonce. -/
def contractAccount (address : Bytes20) (w : World) : AccountFields :=
  let toAccount := w.state.account address
  if evm.hardforkGte .spuriousDragon then { toAccount with nonce := toAccount.nonce + 1 }
  else toAccount

/-- A new contract gets its account and the value. -/
def endow (m : Message) (address : Bytes20) (w : World) : World × Option EVMErrorMessage :=
  let w := openContract address w
  attempt w none (_addToBalance (evm.contractAccount address w) m address w)

/-- `_executeCreate`, from the address of the contract on. -/
def createAt (m : Message) (initCode : Bytes) (address : Bytes20) (w : World) :
    Option (World × EVMResult) :=
  let m := evm.createdMessage m initCode address
  if collides address w then
    some (w, ⟨.EVMErrorResult .CREATE_COLLISION m.gasLimit, some address, m⟩)
  else
    let endowed := evm.endow m address w
    if initCode = [] ∨ endowed.2.isSome then
      some (endowed.1, ⟨earlyExit m endowed.2, some address, m⟩)
    else
      (evm.runInterpreter exec m address initCode endowed.1).map fun (w, m, result) =>
        let deposit := evm.codeDeposit m initCode result
        (evm.postMessageCleanup m (evm.saveCode address deposit.1 deposit.2 w),
          ⟨deposit.1, some address, m⟩)

/-- **`_executeCreate`**: a sender that cannot pay the value is thrown. -/
def _executeCreate (m : Message) (w : World) :
    Option (World × Except EVMErrorMessage EVMResult) :=
  match _reduceSenderBalance (w.state.account m.caller) m w with
  | .error e => some (w, .error e)
  | .ok w =>
    if evm.isEIPActive 3860 ∧ evm.params.maxInitCodeSize < m.data.length ∧
        ¬ evm.allowUnlimitedInitCodeSize then
      some (w, .ok ⟨.EVMErrorResult .INITCODE_SIZE_VIOLATION m.gasLimit, none, m⟩)
    else
      match evm._generateAddress m m.data w with
      | none => none
      | some address =>
        (evm.createAt exec m m.data address w).map fun (w, r) => (w, .ok r)

/-- The checkpoint of `runCall`, guarded by the hardfork of the block. -/
def openMessage (executionHardfork : Hardfork) (w : World) : World :=
  if evm.common.isEIPActiveAtHardfork 1153 executionHardfork then
    { w.checkpoint with transient := w.transient.checkpoint }
  else w.checkpoint

/-- The error of a result reverts the message: `CODESTORE_OUT_OF_GAS` does not, at
Chainstart. -/
def reverts (r : EVMResult) : Bool :=
  r.execResult.exceptionError.isSome ∧
    ¬ (evm.fork = .chainstart ∧ r.execResult.exceptionError = some .CODESTORE_OUT_OF_GAS)

/-- An error forfeits the refund and the sets of a result. -/
def forfeit (r : EVMResult) : EVMResult :=
  if r.execResult.exceptionError.isSome ∧
      r.execResult.exceptionError ≠ some .CODESTORE_OUT_OF_GAS then
    { r with
      execResult :=
        { r.execResult with
          selfdestruct := some ∅
          createdAddresses := some ∅
          gasRefund := some 0 } }
  else r

/-- **The closing of the checkpoint of `runCall`**, guarded by the fork of the EVM. -/
def closeCheckpoint (reverts : Bool) (w : World) : Option World :=
  if reverts then
    if evm.isEIPActive 1153 then w.revert.transientRevert else some w.revert
  else
    if evm.isEIPActive 1153 then w.commit.transientCommit else some w.commit

/-- `runCall`, from its result on. -/
def closeMessage (w : World) (r : EVMResult) : Option (World × EVMResult) :=
  (evm.closeCheckpoint (evm.reverts r) w).map fun w => (w, forfeit r)

/-- A message is a call or a create. -/
def execute (m : Message) (w : World) : Option (World × Except EVMErrorMessage EVMResult) :=
  match m.to_ with
  | some address => (evm._executeCall exec m address w).map fun (w, r) => (w, .ok r)
  | none => evm._executeCreate exec m w

/-- `runCall`, from its message on. The address of a create is worked out before the
checkpoint, to be warmed, which may throw. -/
def runMessage (executionHardfork : Hardfork) (m : Message) (w : World) :
    Option (World × Except EVMErrorMessage EVMResult) :=
  if m.to_ = none ∧ evm.common.isEIPActiveAtHardfork 2929 executionHardfork ∧
      evm._generateAddress m m.data w = none then
    none
  else
    match evm.execute exec m (evm.openMessage executionHardfork w) with
    | none => none
    | some (w, .error e) => some (w, .error e)
    | some (w, .ok r) => (evm.closeMessage w r).map fun (w, r) => (w, .ok r)

end EVM

/-- `EVMRunCallOpts`. `blockHardfork` is what `getHardforkByBlock` gives for the block
or the block context, if one is passed. -/
structure EVMRunCallOpts where
  message : Option Message := none
  blockHardfork : Option Hardfork := none
  skipBalance : Bool := false
  caller : Option Bytes20 := none
  gasLimit : Option ℤ := none
  to_ : Option Bytes20 := none
  value : ℕ := 0
  data : Bytes := []
  code : Option Bytes := none
  depth : ℕ := 0
  isCompiled : Bool := false
  isStatic : Bool := false
  salt : Option Bytes := none
  selfdestruct : Finset Bytes20 := ∅
  createdAddresses : Finset Bytes20 := ∅
  delegatecall : Bool := false

namespace EVMRunCallOpts

variable (opts : EVMRunCallOpts)

/-- The message that `runCall` makes of its options. -/
def newMessage : Message where
  caller := opts.caller.getD (repeated 0)
  to_ := opts.to_
  _codeAddress := none
  gasLimit := opts.gasLimit.getD 0xffffff
  value := opts.value
  data := opts.data
  code := opts.code
  depth := opts.depth
  isStatic := opts.isStatic
  isCompiled := opts.isCompiled
  delegatecall := opts.delegatecall
  salt := opts.salt
  gasRefund := 0
  selfdestruct := opts.selfdestruct
  createdAddresses := opts.createdAddresses

/-- The message of a call: the one given, or a new one. -/
def theMessage : Message := opts.message.getD opts.newMessage

/-- What `skipBalance` adds to the balance of the caller. -/
def topUp (w : World) : ℕ :=
  if opts.message.isNone ∧ opts.skipBalance then
    opts.value - w.state.balance (opts.caller.getD (repeated 0))
  else 0

/-- The caller is given what it lacks, if `skipBalance` says so. -/
def fund (w : World) : World :=
  let caller := opts.caller.getD (repeated 0)
  let callerAccount := w.state.account caller
  if opts.message.isNone ∧ opts.skipBalance ∧ callerAccount.balance < opts.value then
    w.putAccount caller { callerAccount with balance := opts.value }
  else w

end EVMRunCallOpts

namespace EVM

variable (evm : EVM) (exec : Exec)

/-- The nonce of the caller goes up at depth 0. -/
def countCaller (m : Message) (w : World) : World :=
  let callerAccount := w.state.account m.caller
  if m.depth = 0 then
    w.putAccount m.caller { callerAccount with nonce := callerAccount.nonce + 1 }
  else w

/-- **`runCall`**. -/
def runCall (opts : EVMRunCallOpts) (w : World) :
    Option (World × Except EVMErrorMessage EVMResult) :=
  evm.runMessage exec (opts.blockHardfork.getD evm.fork) opts.theMessage
    (countCaller opts.theMessage (opts.fund w))

/-- A message is run and its result received, and the frame goes on or ends. An
`EVMError` that is thrown is one of the frame. -/
def deliver (sent : Sent) (w : World) (receive : Frame → World → EVMResult → Option Received)
    (next : ℕ → Exec) : Option (World × FrameEnd) :=
  match sent with
  | .trapped e => some (w, e)
  | .skipped f w x => next x f w
  | .message f w m =>
    match evm.runCall exec { message := some m } w with
    | none => none
    | some (w, .error e) => some (w, f.trap e)
    | some (w, .ok r) =>
      match receive f w r with
      | none => none
      | some (.trapped e) => some (w, e)
      | some (.pushed f x) => next x f w

end EVM

/-- **A frame runs**: the loop of `Interpreter.run`, over what its code does. -/
def Program.run (evm : EVM) : Program → Exec
  | .halt returnValue exceptionError, f, w =>
    some (w, ⟨f, returnValue, exceptionError.map Subtype.val⟩)
  | .throw, _, _ => none
  | .observe next, f, w => (next f w).run evm f w
  | .useGas amount next, f, w =>
    match f.useGas amount with
    | none => some (w, f.outOfGas)
    | some f => next.run evm f w
  | .refundGas amount next, f, w => next.run evm (f.refundGas amount) w
  | .subRefund amount next, f, w =>
    match f.subRefund amount with
    | none => some (w, { f with gasRefund := 0 }.trap .REFUND_EXHAUSTED)
    | some f => next.run evm f w
  | .storageStore key value next, f, w =>
    if f.isStatic then some (w, f.trap .STATIC_STATE_CHANGE)
    else
      match EVM.storageStore f w key value with
      | none => none
      | some (f, w) => next.run evm f w
  | .transientStorageStore key value next, f, w =>
    if f.isStatic then some (w, f.trap .STATIC_STATE_CHANGE)
    else next.run evm f { w with transient := w.transient.put f.address key value }
  | .call op callee next, f, w =>
    evm.deliver (callee.run evm) (evm.sendCall f w op) w evm.receiveCall fun x f w =>
      (next x).run evm f w
  | .create op init next, f, w =>
    evm.deliver (init.run evm) (evm.sendCreate f w op) w evm.receiveCreate fun x f w =>
      (next x).run evm f w
  | .selfDestruct gas toAddress, f, w =>
    if f.isStatic then some (w, f.trap .STATIC_STATE_CHANGE)
    else
      match f.useGas gas with
      | none => some (w, f.outOfGas)
      | some f =>
        let destroyed := evm._selfDestruct f w toAddress
        some (destroyed.2, ⟨destroyed.1, [], none⟩)

/-! ## An EVM and a world -/

/-- The parameters of most hardforks. -/
def someParams : EvmParams where
  callValueTransferGas := 9000
  callStipendGas := 2300
  createDataGas := 200
  maxCodeSize := 24576
  maxInitCodeSize := 49152
  opcodeMaxInitCodeSize := 49152
  stackLimit := 1024
  selfdestructRefundGas := 24000
  minRetainedGas := 5000
  minCalleeGas := 2300

/-- An EVM at a fork of the chain of all hardforks, without precompiles. -/
def someEVM (fork : Hardfork) : EVM where
  common := .all
  fork := fork
  params := someParams
  allowUnlimitedContractSize := false
  allowUnlimitedInitCodeSize := false
  precompiles := fun _ => none
  keccak256 := fun _ => KECCAK256_RLP

/-- A world where an account has a balance, and nothing ran yet. -/
def someWorld (address : Bytes20) (balance : ℕ) : World where
  state :=
    { accounts := Function.update (fun _ => none) address (some { AccountFields.new with balance })
      code := fun _ => []
      storage := fun _ _ => []
      burned := 0 }
  touched := ∅
  journalHeight := 0
  saved := []
  transient := .new

end TsEthereum.Evm
