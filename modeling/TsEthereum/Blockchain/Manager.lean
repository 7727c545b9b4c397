import TsEthereum.Blockchain.Chain

/-!
# `BlockchainManager`

`blockchain-manager.ts`: `putBlockOrHeader`, `resetCanonicalHead` and
`setIteratorHead`, written over a `Backend`: how a read, a batch and a hook
are awaited. A `Chain` is the plain one, a state and a database that answers
every request, and `Chain.step` is one call on it.
-/

namespace TsEthereum.Blockchain

open TsEthereum

/-! ## What is put -/

inductive ConsensusType where
  | proofOfStake
  | proofOfWork
  | proofOfAuthority
  deriving DecidableEq

/-- The part of a `HardforkManager` a put reads. -/
structure HardforkManager where
  chainId : ℕ
  consensusType : ConsensusType
  deriving DecidableEq

/-- **What is put**: a block, or a header alone, without a body. -/
structure Item where
  hardforkManager : HardforkManager
  header : BlockHeader
  body : Option BlockBodyBytes
  deriving DecidableEq

namespace Item

/-- `isBlock(item)`. -/
def isBlock (item : Item) : Bool := item.body.isSome

/-- The body of `blockToProcess`: of a header, that of `createEmpty`. -/
def bodyToProcess (item : Item) : BlockBodyBytes := item.body.getD [.list [], .list []]

def blockToProcess (item : Item) : Block := ⟨item.header, item.bodyToProcess⟩

/-- The body of `itemToStore`: a header whose roots say that it is empty is
stored as a block. -/
def bodyToStore (item : Item) : Option BlockBodyBytes :=
  if item.isBlock ∨ (item.header.transactionsTrie = KECCAK256_RLP ∧
      item.header.uncleHash = KECCAK256_RLP_ARRAY) then some item.bodyToProcess
  else none

end Item

/-- What a put awaits besides the database. -/
inductive Hook where
  | validateBlock (block : Block)
  | validateConsensus (block : Block)
  /-- `checkAndTransitionHardForkByNumber`. -/
  | transition (number : ℤ)
  | newBlock (block : Block) (commonAncestor : Option BlockHeader)
      (ancestorHeaders : List BlockHeader)

/-- **A backend**: where the mutable state is, and how a read, a batch and a
hook are awaited. -/
structure Backend (σ : Type) where
  state : σ → MutableState
  setState : MutableState → σ → σ
  await : {α : Type} → Reading α → Action ChainError σ α
  executeBatch : List DBWrite → Action ChainError σ Unit
  hook : Hook → Action ChainError σ Unit

namespace Backend

variable {σ : Type} (B : Backend σ)

/-- `this._state`. -/
def getState : Action ChainError σ MutableState := fun s => (.ok (B.state s), s)

/-- An assignment to it. -/
def modify (f : MutableState → MutableState) : Action ChainError σ Unit :=
  Action.modify fun s => B.setState (f (B.state s)) s

/-- A hook that is called under a condition. -/
def hookIf (c : Bool) (h : Hook) : Action ChainError σ Unit := if c then B.hook h else pure ()

end Backend

section

variable (cfg : Config) {σ : Type} (B : Backend σ) (trackDeleted : Bool)

/-! ## `putBlockOrHeader` -/

/-- The end of a put: the heads are saved with the rest, and the consensus is
told. -/
def savePut (item : Item) (dbOps : List DBWrite) (commonAncestor : Option BlockHeader)
    (ancestorHeaders : List BlockHeader) : Action ChainError σ Unit := do
  let state ← B.getState
  B.executeBatch (dbOps ++ createSaveHeadOps state)
  B.hook (.newBlock item.blockToProcess commonAncestor ancestorHeaders)

/-- A put that becomes canonical. -/
def putCanonical (item : Item) (dbOps : List DBWrite) : Action ChainError σ Unit := do
  let blockHash := cfg.hash item.header
  let state ← B.getState
  let (commonAncestor, ancestorHeaders) ←
    B.await (findCommonAncestor cfg item.header state.headHeaderHash)
  B.modify fun state =>
    { state with
      headHeaderHash := blockHash
      headBlockHash := if item.isBlock then blockHash else state.headBlockHash }
  B.hookIf cfg.hardforkByHeadBlockNumber (.transition item.header.number)
  let state ← B.getState
  let deleteResult ← B.await
    (createDeleteCanonicalChainOps cfg (item.header.number + 1) blockHash state trackDeleted)
  B.modify fun _ =>
    { heads := deleteResult.updatedHeads
      headHeaderHash := deleteResult.updatedHeadHeaderHash
      headBlockHash := deleteResult.updatedHeadBlockHash
      deletedBlocks := deleteResult.deletedBlocks }
  let state ← B.getState
  let rebuildResult ← B.await (createRebuildCanonicalOps cfg item.header state)
  B.modify fun state =>
    { state with
      heads := rebuildResult.updatedHeads
      headBlockHash := rebuildResult.updatedHeadBlockHash }
  savePut B item (dbOps ++ deleteResult.ops ++ rebuildResult.ops) (some commonAncestor)
    ancestorHeaders

/-- A put beside the canonical chain: the head block moves to a block of a
higher total difficulty. -/
def putBeside (item : Item) (dbOps : List DBWrite) (td currentTdBlock : ℕ) :
    Action ChainError σ Unit := do
  let blockHash := cfg.hash item.header
  B.modify fun state =>
    { state with
      headBlockHash :=
        if td > currentTdBlock ∧ item.isBlock then blockHash else state.headBlockHash }
  savePut B item (dbOps ++ [createSetHashToNumberOp blockHash item.header.number]) none []

/-- Whether what is put becomes canonical. -/
def shouldBecomeCanonical (item : Item) (td currentTdHeader : ℕ) : Prop :=
  td > currentTdHeader ∨ item.hardforkManager.consensusType = .proofOfStake

instance (item : Item) (td currentTdHeader : ℕ) :
    Decidable (shouldBecomeCanonical item td currentTdHeader) := by
  unfold shouldBecomeCanonical
  infer_instance

/-- The body of the `try` of `putBlockOrHeader`. -/
def putUnderLock (item : Item) : Action ChainError σ Unit :=
  if item.header.number = 0 then
    if cfg.hash cfg.genesisBlock.header = cfg.hash item.header then pure ()
    else Action.throw .differentGenesis
  else if item.hardforkManager.chainId ≠ cfg.chainId then
    Action.throw (.chainMismatch item.hardforkManager.chainId cfg.chainId)
  else do
    B.hookIf (cfg.validateBlocks && item.isBlock) (.validateBlock item.blockToProcess)
    B.hookIf cfg.validateConsensus (.validateConsensus item.blockToProcess)
    let state ← B.getState
    let currentTdHeader ← B.await (getTotalDifficulty state.headHeaderHash)
    let currentTdBlock ← B.await (getTotalDifficulty state.headBlockHash)
    let parentTd ← B.await (getParentTD item.header)
    let td := item.header.difficulty + parentTd
    let dbOps := createSetTDOp td item.header.number (cfg.hash item.header) ::
      createSetBlockOrHeaderOps cfg item.header item.bodyToStore
    if shouldBecomeCanonical item td currentTdHeader then
      putCanonical cfg B trackDeleted item dbOps
    else putBeside cfg B item dbOps td currentTdBlock

/-- The deleted blocks, once the event is emitted. -/
def emitDeleted : Action ChainError σ Unit :=
  B.modify fun state => { state with deletedBlocks := [] }

/-- **`putBlockOrHeader`**: a put that throws puts the heads back. -/
def putBlockOrHeader (item : Item) : Action ChainError σ Unit := do
  let old ← B.getState
  (putUnderLock cfg B trackDeleted item).onError fun s =>
    B.setState
      { B.state s with
        heads := old.heads
        headHeaderHash := old.headHeaderHash
        headBlockHash := old.headBlockHash } s
  emitDeleted B

/-! ## `resetCanonicalHead` and `setIteratorHead` -/

/-- **`resetCanonicalHead`**. -/
def resetCanonicalHead (canonicalHead : ℤ) : Action ChainError σ Unit := do
  match ← B.await (numberToHash canonicalHead) with
  | none => Action.throw (.noBlockFor canonicalHead)
  | some hash => do
    let _ ← B.await (getHeaderByHash cfg hash (some canonicalHead))
    let state ← B.getState
    let deleteResult ← B.await
      (createDeleteCanonicalChainOps cfg (canonicalHead + 1) hash state trackDeleted)
    let state : MutableState :=
      { heads := deleteResult.updatedHeads
        headHeaderHash := deleteResult.updatedHeadHeaderHash
        headBlockHash := deleteResult.updatedHeadBlockHash
        deletedBlocks := deleteResult.deletedBlocks }
    B.modify fun _ => state
    B.executeBatch (deleteResult.ops ++ createSaveHeadOps state)
    B.hook (.transition canonicalHead)
    emitDeleted B

/-- **`setIteratorHead`**. -/
def setIteratorHead (tag : String) (headHash : Bytes) : Action ChainError σ Unit := do
  B.modify fun state => { state with heads := Function.update state.heads tag (some headHash) }
  let state ← B.getState
  B.executeBatch (createSaveHeadOps state)

end

/-! ## The plain chain -/

/-- **A chain**: the mutable state, and the database. -/
structure Chain where
  state : MutableState
  db : Database

/-- The backend whose database answers every request, and whose hooks end as
`hooks` says. -/
def plain (hooks : Hook → Except ChainError Unit) : Backend Chain where
  state c := c.state
  setState state c := { c with state := state }
  await p := fun c => (p.eval c.db, c)
  executeBatch ops := fun c => (.ok (), { c with db := c.db.batch ops })
  hook h := fun c => (hooks h, c)

/-- A call of the manager. -/
inductive Op where
  /-- `putBlock` and `putHeader`. -/
  | put (item : Item)
  | resetCanonicalHead (canonicalHead : ℤ)
  | setIteratorHead (tag : String) (headHash : Bytes)

/-- A call, what its hooks do, and whether anyone listens for deleted
blocks. -/
structure Call where
  op : Op
  hooks : Hook → Except ChainError Unit
  trackDeleted : Bool

/-- A call over a backend. -/
def runOp (cfg : Config) {σ : Type} (B : Backend σ) (trackDeleted : Bool) :
    Op → Action ChainError σ Unit
  | .put item => putBlockOrHeader cfg B trackDeleted item
  | .resetCanonicalHead canonicalHead => resetCanonicalHead cfg B trackDeleted canonicalHead
  | .setIteratorHead tag headHash => setIteratorHead B tag headHash

namespace Chain

/-- What the creation of a manager writes to an empty database. -/
def genesisOps (cfg : Config) : List DBWrite :=
  let genesisHash := cfg.hash cfg.genesisBlock.header
  createSetTDOp cfg.genesisBlock.header.difficulty 0 genesisHash ::
    (createSetBlockOrHeaderOps cfg cfg.genesisBlock.header (some cfg.genesisBlock.body) ++
      createSaveLookupOps genesisHash 0)

/-- **A chain that holds its genesis alone.** -/
def init (cfg : Config) : Chain where
  state :=
    { heads := fun _ => none
      headHeaderHash := cfg.hash cfg.genesisBlock.header
      headBlockHash := cfg.hash cfg.genesisBlock.header
      deletedBlocks := [] }
  db := Store.batch (fun _ => none) (genesisOps cfg)

/-- **One call**: how it ends, and the chain after it. -/
def step (cfg : Config) (c : Chain) (call : Call) : Except ChainError Unit × Chain :=
  runOp cfg (plain call.hooks) call.trackDeleted call.op c

/-- The chain after it, whichever way it ended. -/
def after (cfg : Config) (c : Chain) (call : Call) : Chain := (c.step cfg call).2

/-- The chain after a call that returned. -/
def call (cfg : Config) (c : Chain) (call : Call) : Except ChainError Chain :=
  match c.step cfg call with
  | (.ok (), c') => .ok c'
  | (.error e, _) => .error e

theorem call_eq_ok_iff {cfg : Config} {c c' : Chain} {call : Call} :
    c.call cfg call = .ok c' ↔ c.step cfg call = (.ok (), c') := by
  unfold Chain.call
  rcases c.step cfg call with ⟨_ | u, c''⟩
  · simp
  · simp

theorem after_of_call {cfg : Config} {c c' : Chain} {call : Call} (h : c.call cfg call = .ok c') :
    c.after cfg call = c' := by
  rw [after, call_eq_ok_iff.1 h]

end Chain

end TsEthereum.Blockchain
