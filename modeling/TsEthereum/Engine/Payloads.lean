import TsEthereum.Block.Frozen
import TsEthereum.Common.JsMap
import TsEthereum.Miner.PendingBlock

/-!
# Payloads, from their attributes to their blocks

`forkchoiceUpdated` checks the attributes by its version, hands them over to `PendingBlock.start`
and answers the identifier that the builder is kept under; `getPayload` has the builder of an
identifier build. The pending block keeps two builders or three: a start goes through the cache
first, throws out what is too old, and stops the oldest.

What the state manager, the transaction pool, the EVM and the execution do is a call's environment:
whether they throw, and what adding the transactions came to. A call that throws keeps what it has
done to the pending block.
-/

namespace TsEthereum

namespace Engine

open TsEthereum.ChainConfig TsEthereum.Block

/-- What is thrown. -/
inductive EngineError where
  /-- 'PayloadAttributesV1 MUST be used for forkchoiceUpdatedV2', by the number of values. -/
  | tooManyAttributes (version : ℕ)
  /-- 'V3 cannot be called pre-cancun' -/
  | cannotBeCalledPre (version : ℕ) (hardfork : Hardfork)
  /-- 'V2 MUST be called post-paris' -/
  | mustBeCalledPost (version : ℕ) (hardfork : Hardfork)
  /-- 'PayloadAttributesV1 MUST be used before Shanghai is activated' -/
  | beforeShanghai
  /-- 'PayloadAttributesV2 MUST be used after Shanghai is activated' -/
  | afterShanghai
  /-- 'Invalid PayloadAttributesV{1|2}: parentBlockBeaconRoot defined' -/
  | parentBeaconBlockRoot
  /-- 'invalid timestamp in payloadAttributes, got 50, need at least 51' -/
  | invalidTimestamp (got need : ℕ)
  /-- `EngineError.UnknownPayload` -/
  | unknownPayload
  /-- 'State has already been reverted' -/
  | reverted
  /-- 'runWithoutSetHead did not execute the block for payload=0x…' -/
  | notExecuted
  /-- 'Invalid payloadVersion=6' -/
  | invalidPayloadVersion (version : ℕ)
  | header (error : HeaderError)
  | block (error : BlockError)
  /-- What the state manager, the pool or the EVM throws. -/
  | environment

/-! ## The attributes -/

/-- **`PayloadAttributes`** of any version, as the handlers are given them. -/
structure PayloadAttributes where
  timestamp : ℕ
  prevRandao : Bytes32
  suggestedFeeRecipient : Bytes20
  withdrawals : Option (List Withdrawal)
  parentBeaconBlockRoot : Option Bytes32

/-- The number of values that are neither `null` nor `undefined`. -/
def PayloadAttributes.values (attributes : PayloadAttributes) : ℕ :=
  3 + attributes.withdrawals.toList.length + attributes.parentBeaconBlockRoot.toList.length

def hardforkTimestamp (m : HardforkManager) (hardfork : Hardfork) : Option ℕ :=
  (m.hardforks.find? fun hf => hf.name = hardfork).bind fun hf => hf.timestamp.map Timestamp.value

/-- The hardfork a method cannot be called before. -/
def checkNotBefore (m : HardforkManager) (version : ℕ) (hardfork : Hardfork) (timestamp : ℕ) :
    Except EngineError Unit :=
  match hardforkTimestamp m hardfork with
  | some hfTimeStamp =>
    if timestamp < hfTimeStamp then .error (.cannotBeCalledPre version hardfork) else .ok ()
  | none => .ok ()

/-- The hardfork it cannot be called after: the time of the next entry, when it has one. -/
def checkNotAfter (m : HardforkManager) (version : ℕ) (hardfork : Hardfork) (timestamp : ℕ) :
    Except EngineError Unit :=
  let nextHf := (m.hardforks.findIdx? fun hf => hf.name = hardfork).bind fun currentIdx =>
    m.hardforks[currentIdx + 1]?
  match nextHf.bind fun hf => hf.timestamp.map Timestamp.value with
  | some nextHFTimestamp =>
    if nextHFTimestamp ≤ timestamp then .error (.mustBeCalledPost (version + 1) hardfork)
    else .ok ()
  | none => .ok ()

/-- What `forkchoiceUpdatedV1` checks. -/
def checkAttributesV1 (m : HardforkManager) (attributes : PayloadAttributes) :
    Except EngineError Unit := do
  if 3 < attributes.values then throw (.tooManyAttributes 1)
  checkNotAfter m 1 .paris attributes.timestamp

/-- The withdrawals are there from Shanghai on, and are not before. -/
def checkShanghai (m : HardforkManager) (attributes : PayloadAttributes) :
    Except EngineError Unit :=
  match hardforkTimestamp m .shanghai with
  | some shanghaiTimestamp =>
    if attributes.withdrawals.isSome then
      if attributes.timestamp < shanghaiTimestamp then .error .beforeShanghai else .ok ()
    else if shanghaiTimestamp ≤ attributes.timestamp then .error .afterShanghai else .ok ()
  | none => .ok ()

/-- What `forkchoiceUpdatedV2` checks. -/
def checkAttributesV2 (m : HardforkManager) (attributes : PayloadAttributes) :
    Except EngineError Unit := do
  if 4 < attributes.values then throw (.tooManyAttributes 2)
  checkNotAfter m 2 .shanghai attributes.timestamp
  checkShanghai m attributes
  if attributes.parentBeaconBlockRoot.isSome then throw .parentBeaconBlockRoot

/-- What `forkchoiceUpdatedV3` checks. -/
def checkAttributesV3 (m : HardforkManager) (attributes : PayloadAttributes) :
    Except EngineError Unit := do
  if 5 < attributes.values then throw (.tooManyAttributes 3)
  checkNotBefore m 3 .cancun attributes.timestamp

/-- A version of `forkchoiceUpdated`. -/
inductive Version where
  | v1
  | v2
  | v3

/-- What a version checks. -/
def checkAttributes (m : HardforkManager) :
    Version → PayloadAttributes → Except EngineError Unit
  | .v1 => checkAttributesV1 m
  | .v2 => checkAttributesV2 m
  | .v3 => checkAttributesV3 m

/-! ## Builders -/

inductive BlockStatus where
  | pending
  | reverted
  | build (block : FrozenBlock)

/-- `BlockBuilder`, as far as its block goes. -/
structure BlockBuilder where
  headerData : HeaderData
  withdrawals : Option (List Withdrawal)
  blockStatus : BlockStatus

/-- What adding the transactions has come to. -/
structure Added where
  transactions : List Tx.TxData
  accumulated : Miner.Accumulated

/-- **`BlockBuilder.build`**: the block of the header, and of the withdrawals the builder has. -/
def BlockBuilder.build (keccak256 : Bytes → Bytes32)
    (genWithdrawalsTrieRoot : List Withdrawal → Bytes32) (m : HardforkManager)
    (builder : BlockBuilder) (added : Added) : Except EngineError FrozenBlock := do
  let header ← (Miner.build m builder.headerData
    { added.accumulated with
      withdrawalsRoot := builder.withdrawals.map genWithdrawalsTrieRoot }).mapError .header
  let validated ← (validateBlockConstructor keccak256
    ⟨[], builder.withdrawals, header.number = 0⟩ ⟨m, header.number, some header.timestamp⟩
    header.number).mapError .block
  return {
    header
    transactions := added.transactions
    uncleHeaders := validated.uncleHeaders
    withdrawals := validated.withdrawals }

structure CachedPendingBlock where
  builder : BlockBuilder
  parentHash : Bytes32
  created : ℕ

/-! ## The pending block -/

def MAX_PAYLOAD_CACHE : ℕ := 2

def PENDING_TTL : ℕ := 2000

/-- **`PendingBlock`**: the builders, by their identifiers. -/
abbrev PendingBlock : Type := JsMap Bytes CachedPendingBlock

/-- What a start is given. -/
structure StartRequest where
  parentBlock : ValidatedHeader
  headerData : Miner.PayloadAttributes
  withdrawals : Option (List Withdrawal)

/-- What is hashed of a withdrawal. -/
def withdrawalBuf (withdrawal : Withdrawal) : Bytes :=
  bigEndian withdrawal.index ++ bigEndian withdrawal.validatorIndex ++ withdrawal.address.1 ++
    bigEndian withdrawal.amount

/-- **The identifier of a payload**: the first eight bytes of a hash. -/
def StartRequest.payloadId (keccak256 : Bytes → Bytes32) (m : HardforkManager)
    (request : StartRequest) : Bytes :=
  let zeros : Bytes := List.replicate 32 0
  let payload := (request.parentBlock.computeHash keccak256 m).1 ++
    (request.headerData.mixHash.map Subtype.val).getD zeros ++
    bigEndian request.headerData.timestamp ++
    bigEndian (Miner.pendingGasLimit m request.parentBlock) ++
    (request.headerData.parentBeaconBlockRoot.map Subtype.val).getD zeros ++
    (request.headerData.coinbase.getD (repeated 0)).1 ++
    (request.withdrawals.getD []).flatMap withdrawalBuf
  (keccak256 payload).1.take 8

/-- What a start meets: the time, in milliseconds and rounded to seconds, and whether setting the
state root, the builder's first state and adding the transactions go through. -/
structure StartEnvironment where
  now : ℕ
  seconds : ℕ
  setStateRoot : Bool
  initState : Bool
  addTransactions : Bool

namespace PendingBlock

/-- **`resolveCached`**: whether a builder is kept, of that parent and not too old; what is of
another parent or too old is thrown out. -/
def resolveCached (pendingPayloads : PendingBlock) (now : ℕ) (payloadId : Bytes)
    (parentHash : Bytes32) : Bool × PendingBlock :=
  match pendingPayloads.get payloadId with
  | none => (false, pendingPayloads)
  | some cached =>
    if cached.parentHash ≠ parentHash then (false, pendingPayloads.delete payloadId)
    else if PENDING_TTL < now - cached.created then (false, pendingPayloads.delete payloadId)
    else (true, pendingPayloads)

/-- `stop`: the builder is reverted, and is not kept. -/
def stop (pendingPayloads : PendingBlock) (payloadId : Bytes) : PendingBlock :=
  pendingPayloads.delete payloadId

/-- **`pruneSetToMax`**: the oldest are stopped. -/
def pruneSetToMax (pendingPayloads : PendingBlock) (maxItems : ℕ) : PendingBlock :=
  (pendingPayloads.keys.take (pendingPayloads.keys.length - maxItems)).foldl stop pendingPayloads

/-- **`start`**: of a builder that is kept the identifier, else a new builder is kept under it. -/
def start (keccak256 : Bytes → Bytes32) (m : HardforkManager) (env : StartEnvironment)
    (request : StartRequest) (pendingPayloads : PendingBlock) :
    Except EngineError Bytes × PendingBlock :=
  match Miner.pendingBaseFee m request.parentBlock with
  | .error e => (.error (.header e), pendingPayloads)
  | .ok _ =>
    let payloadId := request.payloadId keccak256 m
    let parentHash := request.parentBlock.computeHash keccak256 m
    let (cached, pendingPayloads) := pendingPayloads.resolveCached env.now payloadId parentHash
    if cached = true then (.ok payloadId, pendingPayloads)
    else
      let pendingPayloads := pendingPayloads.pruneSetToMax MAX_PAYLOAD_CACHE
      if env.setStateRoot = false then (.error .environment, pendingPayloads)
      else
        match Miner.start keccak256 m request.parentBlock env.seconds request.headerData with
        | .error e => (.error (.header e), pendingPayloads)
        | .ok headerData =>
          if env.initState = false then (.error .environment, pendingPayloads)
          else
            let builder : BlockBuilder := ⟨headerData, request.withdrawals, .pending⟩
            let pendingPayloads := pendingPayloads.set payloadId ⟨builder, parentHash, env.now⟩
            (if env.addTransactions then .ok payloadId else .error .environment, pendingPayloads)

/-- **`build`**: nothing where no builder is kept; a block is built once. No transactions are added
where the pool or the EVM throws. -/
def build (keccak256 : Bytes → Bytes32) (genWithdrawalsTrieRoot : List Withdrawal → Bytes32)
    (m : HardforkManager) (added : Option Added) (payloadId : Bytes)
    (pendingPayloads : PendingBlock) : Except EngineError (Option FrozenBlock) × PendingBlock :=
  match pendingPayloads.get payloadId with
  | none => (.ok none, pendingPayloads)
  | some cached =>
    match cached.builder.blockStatus with
    | .build block => (.ok (some block), pendingPayloads)
    | .reverted => (.error .reverted, pendingPayloads)
    | .pending =>
      match added with
      | none => (.error .environment, pendingPayloads)
      | some added =>
        match cached.builder.build keccak256 genWithdrawalsTrieRoot m added with
        | .error e => (.error e, pendingPayloads)
        | .ok block =>
          (.ok (some block), pendingPayloads.set payloadId
            { cached with builder := { cached.builder with blockStatus := .build block } })

end PendingBlock

/-! ## The methods -/

/-- **What is handed over**: everything but the withdrawals. -/
def PayloadAttributes.startRequest (attributes : PayloadAttributes) (headBlock : ValidatedHeader) :
    StartRequest where
  parentBlock := headBlock
  headerData := {
    timestamp := attributes.timestamp
    mixHash := some attributes.prevRandao
    coinbase := some attributes.suggestedFeeRecipient
    parentBeaconBlockRoot := attributes.parentBeaconBlockRoot }
  withdrawals := none

/-- **`forkchoiceUpdated`**, of attributes and the head that the state comes to. -/
def forkchoiceUpdated (keccak256 : Bytes → Bytes32) (m : HardforkManager) (version : Version)
    (env : StartEnvironment) (headBlock : ValidatedHeader) (attributes : PayloadAttributes)
    (pendingPayloads : PendingBlock) : Except EngineError Bytes × PendingBlock :=
  match checkAttributes m version attributes with
  | .error e => (.error e, pendingPayloads)
  | .ok () =>
    if attributes.timestamp ≤ headBlock.timestamp then
      (.error (.invalidTimestamp attributes.timestamp (headBlock.timestamp + 1)), pendingPayloads)
    else PendingBlock.start keccak256 m env (attributes.startRequest headBlock) pendingPayloads

/-- The hardforks a version of `getPayload` is for. -/
def checkPayloadVersion (m : HardforkManager) (payloadVersion timestamp : ℕ) :
    Except EngineError Unit :=
  match payloadVersion with
  | 5 => do
    checkNotBefore m 5 .osaka timestamp
    checkNotAfter m 5 .osaka timestamp
  | 4 => do
    checkNotBefore m 4 .prague timestamp
    checkNotAfter m 4 .prague timestamp
  | 3 => do
    checkNotBefore m 3 .cancun timestamp
    checkNotAfter m 3 .cancun timestamp
  | 2 => checkNotAfter m 2 .shanghai timestamp
  | 1 => checkNotAfter m 1 .paris timestamp
  | version => .error (.invalidPayloadVersion version)

/-- What a build meets: what adding the transactions comes to, and whether the block is executed. -/
structure BuildEnvironment where
  added : Option Added
  executed : Bool

/-- **`getPayloadCore`**, up to the block that the payload is made of. -/
def getPayload (keccak256 : Bytes → Bytes32) (genWithdrawalsTrieRoot : List Withdrawal → Bytes32)
    (m : HardforkManager) (payloadVersion : ℕ) (env : BuildEnvironment) (payloadId : Bytes)
    (pendingPayloads : PendingBlock) : Except EngineError FrozenBlock × PendingBlock :=
  match PendingBlock.build keccak256 genWithdrawalsTrieRoot m env.added payloadId
      pendingPayloads with
  | (.error e, pendingPayloads) => (.error e, pendingPayloads)
  | (.ok none, pendingPayloads) => (.error .unknownPayload, pendingPayloads)
  | (.ok (some block), pendingPayloads) =>
    (if env.executed = false then .error .notExecuted
      else (checkPayloadVersion m payloadVersion block.header.timestamp).map fun () => block,
      pendingPayloads)

/-! ## Runs -/

/-- **A call** that has to do with the pending block: the methods, or a start or a stop by
another part of the client. -/
inductive Call where
  | forkchoiceUpdated (version : Version) (env : StartEnvironment) (headBlock : ValidatedHeader)
    (attributes : PayloadAttributes)
  | getPayload (payloadVersion : ℕ) (env : BuildEnvironment) (payloadId : Bytes)
  | start (env : StartEnvironment) (request : StartRequest)
  | stop (payloadId : Bytes)

/-- What a call asks to be started. -/
def Call.request? : Call → Option StartRequest
  | .forkchoiceUpdated _ _ headBlock attributes => some (attributes.startRequest headBlock)
  | .start _ request => some request
  | _ => none

/-- What a call leaves. -/
def Call.step (keccak256 : Bytes → Bytes32) (genWithdrawalsTrieRoot : List Withdrawal → Bytes32)
    (m : HardforkManager) (pendingPayloads : PendingBlock) : Call → PendingBlock
  | .forkchoiceUpdated version env headBlock attributes =>
    (Engine.forkchoiceUpdated keccak256 m version env headBlock attributes pendingPayloads).2
  | .getPayload payloadVersion env payloadId =>
    (Engine.getPayload keccak256 genWithdrawalsTrieRoot m payloadVersion env payloadId
      pendingPayloads).2
  | .start env request => (PendingBlock.start keccak256 m env request pendingPayloads).2
  | .stop payloadId => pendingPayloads.stop payloadId

/-- **What a run leaves**, of a pending block that has nothing yet. -/
def run (keccak256 : Bytes → Bytes32) (genWithdrawalsTrieRoot : List Withdrawal → Bytes32)
    (m : HardforkManager) (calls : List Call) : PendingBlock :=
  calls.foldl (Call.step keccak256 genWithdrawalsTrieRoot m) JsMap.empty

end Engine

end TsEthereum
