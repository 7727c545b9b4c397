import TsEthereum.Block.BlobTransactions
import TsEthereum.Engine.Payloads

/-!
# The engine and its caches

`newPayload` reassembles a block and answers from what is known of its parent: the blocks that have
been executed, the blocks that came before their parents, those found invalid, the skeleton and the
chain. It executes what is missing back to the VM's head. `forkchoiceUpdated` starts a payload on
an executed head, and `getPayload` takes what is built for executed.

The chain, the skeleton and the execution are seen by a call as they are then (`ChainView`), and
between two calls they change as they like. What a call has seen, executed or built is kept in a
history that no function reads.
-/

namespace TsEthereum

namespace Engine

open TsEthereum.ChainConfig TsEthereum.Block

/-- `hash()`, as a key. -/
def hashKey (keccak256 : Bytes → Bytes32) (m : HardforkManager) (block : FrozenBlock) : Bytes :=
  (block.getHash keccak256 m).1

/-- `execution.chainStatus`, when it is `ExecStatus.INVALID`. -/
structure InvalidStatus where
  height : ℕ
  hash : Bytes

/-- **What is seen of the chain, the skeleton and the execution.** What is looked up by a hash has
it, and there is one genesis block, which is canonical. -/
structure ChainView (keccak256 : Bytes → Bytes32) (m : HardforkManager) where
  /-- `chain.getBlock`, that throws where there is none. -/
  getBlock : Bytes → Option FrozenBlock
  /-- `safeNumberToHash`. -/
  canonicalHash : ℕ → Option Bytes
  iteratorHead : FrozenBlock
  /-- `chain.headers.height`. -/
  headersHeight : ℕ
  /-- `chain.blocks.latest`. -/
  latest : Option FrozenBlock
  /-- `skeleton.getBlockByHash`. -/
  skeletonBlock : Bytes → Option FrozenBlock
  /-- The height of `skeleton.fillStatus` once a head is set, when it is `PutStatus.INVALID`. -/
  fillStatus : Option ℕ
  chainStatus : Option InvalidStatus
  /-- What `blockchain.validateHeader` looks at. -/
  headerContext : HeaderValidationContext
  getBlock_hash : ∀ hash block, getBlock hash = some block → hashKey keccak256 m block = hash
  skeletonBlock_hash : ∀ hash block, skeletonBlock hash = some block →
    hashKey keccak256 m block = hash
  genesis : ∀ hash block, getBlock hash = some block → block.header.number = 0 →
    canonicalHash 0 = some hash

/-- **What has happened.** -/
inductive Event (keccak256 : Bytes → Bytes32) (m : HardforkManager) where
  /-- A call saw this. -/
  | saw (view : ChainView keccak256 m)
  /-- A block was executed, when this was seen. -/
  | executed (block : FrozenBlock) (view : ChainView keccak256 m)
  /-- A block was built here. -/
  | built (block : FrozenBlock)

/-- **The engine's state**: the pending block, the caches, and the history. -/
structure EngineState (keccak256 : Bytes → Bytes32) (m : HardforkManager) where
  pendingPayloads : PendingBlock
  remoteBlocks : JsMap Bytes FrozenBlock
  executedBlocks : JsMap Bytes FrozenBlock
  invalidBlocks : JsMap Bytes Unit
  history : List (Event keccak256 m)

/-- The options that say how far is looked and how much is executed. -/
structure EngineOptions where
  engineParentLookupMaxDepth : ℕ
  engineNewpayloadMaxExecute : ℕ
  engineNewpayloadMaxTxsExecute : ℕ

inductive Status where
  | VALID
  | INVALID
  | INVALID_BLOCK_HASH
  | SYNCING
  | ACCEPTED
  deriving DecidableEq

/-- `PayloadStatusV1`, but for the text. -/
structure PayloadStatus where
  status : Status
  latestValidHash : Option Bytes
  deriving DecidableEq

/-- **A payload**, as it is given: what it is reassembled into, when it can be read, which has its
parent; and whether the data and the versioned hashes pass. -/
structure Payload where
  blockHash : Bytes
  parentHash : Bytes
  reassembled : Option FrozenBlock
  dataValid : Bool
  parentHash_eq : ∀ block, reassembled = some block → block.header.parentHash.1 = parentHash

/-- What a call of `newPayload` meets: what it sees, whether the skeleton links the new head,
whether the VM is idle and started, which states there are, which blocks run, and whether an error
says that a block is not found. -/
structure NewPayloadEnvironment (keccak256 : Bytes → Bytes32) (m : HardforkManager) where
  view : ChainView keccak256 m
  setHead : Bool
  available : Bool
  hasStateRoot : BytesOrEmpty 32 → Bool
  runs : FrozenBlock → Bool
  notFound : Bool

variable {keccak256 : Bytes → Bytes32} {m : HardforkManager}

/-! ## Lookups -/

/-- **`validExecutedChainBlock`**, of a block. -/
def validExecutedBlock (view : ChainView keccak256 m) (block : FrozenBlock) : Option FrozenBlock :=
  if block.header.number ≤ view.iteratorHead.header.number ∧
      view.canonicalHash block.header.number = some (hashKey keccak256 m block) then some block
  else none

/-- **`validExecutedChainBlock`**, of a hash. -/
def validExecutedChainBlock (view : ChainView keccak256 m) (hash : Bytes) : Option FrozenBlock :=
  (view.getBlock hash).bind (validExecutedBlock view)

namespace EngineState

variable (s : EngineState keccak256 m)

/-- `executedBlocks.get(hash) ?? (await validExecutedChainBlock(hash, chain))`. -/
def executed? (view : ChainView keccak256 m) (hash : Bytes) : Option FrozenBlock :=
  (s.executedBlocks.get hash).or (validExecutedChainBlock view hash)

/-- A block that is held back, in the skeleton, or in the chain. -/
def known? (view : ChainView keccak256 m) (hash : Bytes) : Option FrozenBlock :=
  ((s.remoteBlocks.get hash).or (view.skeletonBlock hash)).or (view.getBlock hash)

/-- The loop of **`validHash`**: the nearest ancestor that is executed, unless one on the way is
invalid or not known. -/
def validHashLoop (view : ChainView keccak256 m) : ℕ → Bytes → Option Bytes
  | 0, _ => none
  | fuel + 1, hash =>
    match s.known? view hash with
    | none => none
    | some validParent =>
      if (s.invalidBlocks.get hash).isSome then none
      else if (s.executed? view hash).isSome then some hash
      else validHashLoop view fuel validParent.header.parentHash.1

end EngineState

/-- **`validHash`**. -/
def validHash (opts : EngineOptions) (view : ChainView keccak256 m) (s : EngineState keccak256 m)
    (hash : Bytes) : Option Bytes :=
  s.validHashLoop view opts.engineParentLookupMaxDepth hash

/-- `validHash` of the latest block, or the hash of zeros. -/
def latestHash (opts : EngineOptions) (view : ChainView keccak256 m)
    (s : EngineState keccak256 m) : Option Bytes :=
  match view.latest with
  | some latest => validHash opts view s (hashKey keccak256 m latest)
  | none => some (List.replicate 32 0)

/-- The loop of **`recursivelyFindParents`**, the oldest first: up to the VM's head or the genesis
block. -/
def findParents (view : ChainView keccak256 m) (vmHeadHash : Bytes) :
    ℕ → FrozenBlock → Option (List FrozenBlock)
  | depth, last =>
    if hashKey keccak256 m last = vmHeadHash then some [last]
    else
      match view.getBlock last.header.parentHash.1 with
      | none => none
      | some block =>
        if block.header.number = 0 then some [block, last]
        else
          match depth with
          | 0 => none
          | depth + 1 =>
            (findParents view vmHeadHash depth block).map fun blocks => blocks ++ [last]

/-- **`recursivelyFindParents`**. -/
def recursivelyFindParents (opts : EngineOptions) (view : ChainView keccak256 m)
    (vmHeadHash parentHash : Bytes) : Option (List FrozenBlock) :=
  if parentHash = vmHeadHash ∨ parentHash = List.replicate 32 0 then some []
  else
    match view.getBlock parentHash with
    | none => none
    | some block => findParents view vmHeadHash (opts.engineParentLookupMaxDepth - 1) block

/-! ## Execution -/

/-- What comes of running blocks. -/
inductive Execution where
  | done
  /-- One was not executed. -/
  | skipped
  /-- Running one threw. -/
  | threw

/-- **The header's check** in `runBlock`: none while the headers of the chain do not reach the
parent. -/
def headerPasses (m : HardforkManager) (view : ChainView keccak256 m) (block : FrozenBlock) :
    Bool :=
  let skipHeaderValidation := decide (view.headersHeight < block.header.number - 1)
  skipHeaderValidation || (validateHeader m block.header view.headerContext none).isOk

/-- **`runWithoutSetHead`**, on the state of a parent. -/
def runWithoutSetHead (env : NewPayloadEnvironment keccak256 m) (block blockParent : FrozenBlock) :
    Execution :=
  if env.available = false then .skipped
  else if env.hasStateRoot blockParent.header.stateRoot = false then .threw
  else if headerPasses m env.view block = false then .threw
  else if env.runs block = false then .threw
  else .done

/-- **The loop that executes blocks**: those that have not been executed, each on the one before
it. -/
def executeBlocks (opts : EngineOptions) (env : NewPayloadEnvironment keccak256 m) :
    Option FrozenBlock → List FrozenBlock → EngineState keccak256 m →
      Execution × EngineState keccak256 m
  | _, [], s => (.done, s)
  | previous, block :: blocks, s =>
    if (s.executed? env.view (hashKey keccak256 m block)).isSome then
      executeBlocks opts env (some block) blocks s
    else if opts.engineNewpayloadMaxExecute < (block :: blocks).length ∨
        opts.engineNewpayloadMaxTxsExecute < block.transactions.length then (.skipped, s)
    else
      let parentHash := block.header.parentHash.1
      match previous.or ((s.remoteBlocks.get parentHash).or (env.view.getBlock parentHash)) with
      | none => (.threw, s)
      | some blockParent =>
        match runWithoutSetHead env block blockParent with
        | .done =>
          executeBlocks opts env (some block) blocks
            { s with
              executedBlocks := s.executedBlocks.set (hashKey keccak256 m block) block
              history := s.history ++ [.executed block env.view] }
        | outcome => (outcome, s)

/-! ## `newPayload` -/

/-- What the VM's status or the skeleton says of a block that is not linked. -/
def invalidAlongChain (opts : EngineOptions) (env : NewPayloadEnvironment keccak256 m)
    (headBlock : FrozenBlock) (s : EngineState keccak256 m) : Option PayloadStatus :=
  match env.view.chainStatus with
  | none => none
  | some chainStatus =>
    if env.setHead = false ∧ chainStatus.height ≤ headBlock.header.number then
      (env.view.skeletonBlock chainStatus.hash).map fun invalidBlock =>
        ⟨.INVALID, validHash opts env.view s invalidBlock.header.parentHash.1⟩
    else none

/-- An invalid skeleton. -/
def invalidSkeleton (opts : EngineOptions) (env : NewPayloadEnvironment keccak256 m)
    (headBlock : FrozenBlock) (s : EngineState keccak256 m) : Option PayloadStatus :=
  match env.view.fillStatus with
  | none => none
  | some height =>
    if env.setHead = false ∧ height ≤ headBlock.header.number then
      some ⟨.INVALID, latestHash opts env.view s⟩
    else none

/-- `optimisticLookup === true ? Status.SYNCING : Status.ACCEPTED`. -/
def waiting (env : NewPayloadEnvironment keccak256 m) : PayloadStatus :=
  ⟨if env.setHead = false then .SYNCING else .ACCEPTED, none⟩

/-- A block is held back. -/
def EngineState.stash (s : EngineState keccak256 m) (block : FrozenBlock) :
    EngineState keccak256 m :=
  { s with remoteBlocks := s.remoteBlocks.set (hashKey keccak256 m block) block }

/-- **No executed parent**: the block is held back. -/
def withoutParent (opts : EngineOptions) (env : NewPayloadEnvironment keccak256 m)
    (headBlock : FrozenBlock) (s : EngineState keccak256 m) :
    PayloadStatus × EngineState keccak256 m :=
  let s := s.stash headBlock
  (((invalidSkeleton opts env headBlock s).or (invalidAlongChain opts env headBlock s)).getD
    (waiting env), s)

/-- **The blocks are executed**, the new head the last. -/
def execute (opts : EngineOptions) (env : NewPayloadEnvironment keccak256 m) (payload : Payload)
    (headBlock : FrozenBlock) (s : EngineState keccak256 m) :
    Option PayloadStatus × EngineState keccak256 m :=
  let vmHead := (s.executedBlocks.get payload.parentHash).getD env.view.iteratorHead
  match recursivelyFindParents opts env.view (hashKey keccak256 m vmHead)
      headBlock.header.parentHash.1 with
  | none => (some ⟨.SYNCING, none⟩, s)
  | some blocks =>
    match executeBlocks opts env none (blocks ++ [headBlock]) s with
    | (.done, s) => (some ⟨.VALID, some (hashKey keccak256 m headBlock)⟩, s)
    | (.skipped, s) => (some (waiting env), s)
    | (.threw, s) =>
      let latestValidHash := validHash opts env.view s headBlock.header.parentHash.1
      if env.notFound then
        (if blocks.isEmpty then none else some ⟨.SYNCING, latestValidHash⟩, s)
      else
        (some ⟨.INVALID, latestValidHash⟩,
          { s with
            invalidBlocks := s.invalidBlocks.set payload.blockHash ()
            remoteBlocks := s.remoteBlocks.delete payload.blockHash })

/-- **An executed parent**: the block is held back, and is executed unless it has been. -/
def withParent (opts : EngineOptions) (env : NewPayloadEnvironment keccak256 m) (payload : Payload)
    (headBlock : FrozenBlock) (s : EngineState keccak256 m) :
    Option PayloadStatus × EngineState keccak256 m :=
  match invalidSkeleton opts env headBlock s with
  | some response => (some response, s)
  | none =>
    let s := s.stash headBlock
    if (s.executed? env.view payload.blockHash).isSome then
      (some ⟨.VALID, some payload.blockHash⟩, s)
    else
      match invalidAlongChain opts env headBlock s with
      | some response => (some response, s)
      | none => execute opts env payload headBlock s

/-- **The blob transactions' check**: when EIP-4844 is active at the number alone. -/
def blobTransactionsPass (m : HardforkManager) (headBlock parent : FrozenBlock) : Bool :=
  !m.isEIPActiveAtBlock 4844 headBlock.header.number none ||
    ((BlobBlock.mk headBlock.header headBlock.transactions).validateBlobTransactions m
      parent.header).isOk

/-- **`assembleBlock`**: the hash is compared with the one that is given. -/
def assembleBlock (keccak256 : Bytes → Bytes32) (m : HardforkManager) (payload : Payload) :
    Except Status FrozenBlock :=
  match payload.reassembled with
  | none => .error .INVALID
  | some block =>
    if hashKey keccak256 m block ≠ payload.blockHash then .error .INVALID_BLOCK_HASH
    else if payload.dataValid = false then .error .INVALID
    else .ok block

/-- **`newPayloadCore`**: nothing is answered where it throws. -/
def newPayloadCore (opts : EngineOptions) (env : NewPayloadEnvironment keccak256 m)
    (payload : Payload) (s : EngineState keccak256 m) :
    Option PayloadStatus × EngineState keccak256 m :=
  let s := { s with
    invalidBlocks := s.invalidBlocks.delete payload.blockHash
    history := s.history ++ [.saw env.view] }
  match assembleBlock keccak256 m payload with
  | .error status => (some ⟨status, validHash opts env.view s payload.parentHash⟩, s)
  | .ok headBlock =>
    match ((env.view.skeletonBlock payload.parentHash).or
        (s.remoteBlocks.get payload.parentHash)).or (env.view.getBlock payload.parentHash) with
    | none => ((withoutParent opts env headBlock s).map some id)
    | some parent =>
      if blobTransactionsPass m headBlock parent = false then
        (some ⟨.INVALID, validHash opts env.view s payload.parentHash⟩, s)
      else if (s.executed? env.view payload.parentHash).isNone then
        ((withoutParent opts env headBlock s).map some id)
      else withParent opts env payload headBlock s

/-! ## The other calls -/

/-- What a call of `forkchoiceUpdated` meets: what it sees, whether the skeleton is invalid then,
whether setting the head goes through, and what the caches are pruned of. -/
structure ForkchoiceEnvironment (keccak256 : Bytes → Bytes32) (m : HardforkManager) where
  view : ChainView keccak256 m
  fillInvalid : Bool
  setHead : Bool
  start : StartEnvironment
  prunedRemote : List Bytes
  prunedExecuted : List Bytes
  prunedInvalid : List Bytes

/-- `pruneCachedBlocks`, of these. -/
def EngineState.prune (s : EngineState keccak256 m) (env : ForkchoiceEnvironment keccak256 m) :
    EngineState keccak256 m :=
  { s with
    remoteBlocks := env.prunedRemote.foldl JsMap.delete s.remoteBlocks
    executedBlocks := env.prunedExecuted.foldl JsMap.delete s.executedBlocks
    invalidBlocks := env.prunedInvalid.foldl JsMap.delete s.invalidBlocks }

/-- **`forkchoiceUpdatedCore`**, as far as it changes the engine: a payload is started on a head
that has been executed. -/
def forkchoiceUpdatedCore (version : Version) (env : ForkchoiceEnvironment keccak256 m)
    (headBlockHash : Bytes) (attributes : Option PayloadAttributes)
    (s : EngineState keccak256 m) : EngineState keccak256 m :=
  let s := { s with history := s.history ++ [.saw env.view] }
  if (s.invalidBlocks.get headBlockHash).isSome then s
  else
    match s.known? env.view headBlockHash with
    | none => s
    | some headBlock =>
      if env.fillInvalid = true then s
      else if ((s.executedBlocks.get headBlockHash).or
          (validExecutedBlock env.view headBlock)).isNone then s
      else if env.setHead = false then s
      else
        match attributes with
        | none => s.prune env
        | some attributes =>
          let started := forkchoiceUpdated keccak256 m version env.start headBlock.header attributes
            s.pendingPayloads
          let s := { s with pendingPayloads := started.2 }
          match started.1 with
          | .error _ => s
          | .ok _ => s.prune env

/-- **`getPayloadCore`**, as far as it changes the engine: what is built is taken for executed. -/
def getPayloadCore (genWithdrawalsTrieRoot : List Withdrawal → Bytes32) (env : BuildEnvironment)
    (payloadId : Bytes) (s : EngineState keccak256 m) : EngineState keccak256 m :=
  match PendingBlock.build keccak256 genWithdrawalsTrieRoot m env.added payloadId
      s.pendingPayloads with
  | (.ok (some block), pendingPayloads) =>
    if env.executed = true then
      { s with
        pendingPayloads
        executedBlocks := s.executedBlocks.set (hashKey keccak256 m block) block
        history := s.history ++ [.built block] }
    else { s with pendingPayloads }
  | (_, pendingPayloads) => { s with pendingPayloads }

/-- **A call.** -/
inductive EngineCall (keccak256 : Bytes → Bytes32) (m : HardforkManager) where
  | newPayload (env : NewPayloadEnvironment keccak256 m) (payload : Payload)
  | forkchoiceUpdated (version : Version) (env : ForkchoiceEnvironment keccak256 m)
    (headBlockHash : Bytes) (attributes : Option PayloadAttributes)
  | getPayload (env : BuildEnvironment) (payloadId : Bytes)

/-- What a call leaves. -/
def EngineCall.step (opts : EngineOptions) (genWithdrawalsTrieRoot : List Withdrawal → Bytes32)
    (s : EngineState keccak256 m) : EngineCall keccak256 m → EngineState keccak256 m
  | .newPayload env payload => (newPayloadCore opts env payload s).2
  | .forkchoiceUpdated version env headBlockHash attributes =>
    forkchoiceUpdatedCore version env headBlockHash attributes s
  | .getPayload env payloadId => getPayloadCore genWithdrawalsTrieRoot env payloadId s

/-- The engine when it starts. -/
def EngineState.initial : EngineState keccak256 m :=
  ⟨JsMap.empty, JsMap.empty, JsMap.empty, JsMap.empty, []⟩

/-- **What a run leaves.** -/
def runEngine (opts : EngineOptions) (genWithdrawalsTrieRoot : List Withdrawal → Bytes32)
    (calls : List (EngineCall keccak256 m)) : EngineState keccak256 m :=
  calls.foldl (EngineCall.step opts genWithdrawalsTrieRoot) EngineState.initial

end Engine

end TsEthereum
