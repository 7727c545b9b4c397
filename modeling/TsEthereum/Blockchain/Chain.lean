import TsEthereum.Blockchain.DbManager
import TsEthereum.Common.Action
import TsEthereum.Common.Await
import TsEthereum.Rlp.Model

/-!
# Reading the chain, and what a new head writes

`helpers/db-accessors.ts` and `helpers/chain-helpers.ts`: the lookups, the
walk to the ancestor a header has in common with the canonical chain, and
the two loops that compute what a new head writes: the canonical references
above it are deleted, and those below it rebuilt down to the first block
that is canonical already. The loops read and return; nothing is written
here.

A record holds its decoded value, under the number its key is made of.
-/

namespace TsEthereum.Blockchain

open TsEthereum

/-- `KECCAK256_RLP`: the hash of the RLP of null. -/
def KECCAK256_RLP : Bytes :=
  [0x56, 0xe8, 0x1f, 0x17, 0x1b, 0xcc, 0x55, 0xa6, 0xff, 0x83, 0x45, 0xe6, 0x92, 0xc0, 0xf8, 0x6e,
    0x5b, 0x48, 0xe0, 0x1b, 0x99, 0x6c, 0xad, 0xc0, 0x01, 0x62, 0x2f, 0xb5, 0xe3, 0x63, 0xb4, 0x21]

/-- `KECCAK256_RLP_ARRAY`: the hash of the RLP of an empty array. -/
def KECCAK256_RLP_ARRAY : Bytes :=
  [0x1d, 0xcc, 0x4d, 0xe8, 0xde, 0xc7, 0x5d, 0x7a, 0xab, 0x85, 0xb5, 0x67, 0xb6, 0xcc, 0xd4, 0x1a,
    0xd3, 0x12, 0x45, 0x1b, 0x94, 0x8a, 0x74, 0x13, 0xf0, 0xa1, 0x42, 0xfd, 0x40, 0xd4, 0x93, 0x47]

/-! ## Headers and blocks -/

/-- A header: the fields the chain and its consensus read, and the rest. -/
structure BlockHeader where
  parentHash : Bytes
  uncleHash : Bytes
  coinbase : Bytes
  transactionsTrie : Bytes
  difficulty : ℕ
  number : ℕ
  extraData : Bytes
  nonce : Bytes
  withdrawalsRoot : Option Bytes
  rest : List Bytes
  deriving DecidableEq

/-- `BlockBodyBytes`: what a block's `raw()` holds after the header. -/
abbrev BlockBodyBytes : Type := List NestedUint8Array

structure Block where
  header : BlockHeader
  body : BlockBodyBytes
  deriving DecidableEq

/-- What the chain throws. -/
inductive ChainError where
  | blockNotFound (blockNumber : ℤ)
  | blockHashNotFound (hash : Bytes)
  | valueNotFound (blockHash : Bytes)
  | headerNotFound
  | notCanonical (blockNumber : ℤ)
  | noAncestor
  | invalidHeader (reason : String)
  | notEmpty (reason : String)
  | invalidBlock (reason : String)
  | differentGenesis
  | chainMismatch (block chain : ℕ)
  | noBlockFor (blockNumber : ℤ)
  /-- What a hook or `onBlock` threw. -/
  | thrown (message : String)
  /-- A rejected request. -/
  | rejected (message : String)
  /-- No error of the source: the loop is still running. -/
  | running
  deriving DecidableEq

def bytesToHex (b : Bytes) : String :=
  b.foldl (fun hex byte =>
    hex ++ String.ofList [Nat.digitChar (byte.toNat / 16), Nat.digitChar (byte.toNat % 16)]) "0x"

/-- The text of an error. -/
def ChainError.message : ChainError → String
  | .blockNotFound blockNumber => s!"Block number {blockNumber} not found in DB"
  | .blockHashNotFound hash => "Block with hash " ++ bytesToHex hash ++ " not found in DB"
  | .valueNotFound blockHash => "value for " ++ bytesToHex blockHash ++ " not found in DB"
  | .headerNotFound => "no header for hash found in DB"
  | .notCanonical blockNumber => s!"header with number {blockNumber} not found in canonical chain"
  | .noAncestor => "Failed to find ancient header"
  | .invalidHeader reason | .notEmpty reason | .invalidBlock reason => reason
  | .differentGenesis =>
    "Cannot put a different genesis block than current blockchain genesis"
  | .chainMismatch block chain =>
    s!"Chain mismatch: block chain ID {block}, blockchain chain ID {chain}"
  | .noBlockFor blockNumber => s!"no block for {blockNumber} found in DB"
  | .thrown message | .rejected message => message
  | .running => ""

/-- **What a chain is created with**: the hash of a header, the genesis
block, the options, and what the block package throws when it makes a
header or a block of what the database holds. -/
structure Config where
  hash : BlockHeader → Bytes
  genesisBlock : Block
  chainId : ℕ
  validateBlocks : Bool
  validateConsensus : Bool
  hardforkByHeadBlockNumber : Bool
  headerDefect : BlockHeader → Option String
  blockDefect : Block → Option String
  /-- How many times a loop goes round before it counts as running. -/
  fuel : ℕ
  genesis_number : genesisBlock.header.number = 0

/-! ## The records -/

/-- `BigInt.asUintN(64, n)`. -/
def asUintN64 (n : ℤ) : ℕ := (n % 2 ^ 64).toNat

/-- The iterator heads by their names. -/
abbrev Heads : Type := String → Option Bytes

/-- What a target holds. -/
abbrev DBTarget.Value : DBTarget → Type
  | .heads => Heads
  | .headHeader => Bytes
  | .headBlock => Bytes
  | .record (.header _ _) => BlockHeader
  | .record (.totalDifficulty _ _) => ℕ
  | .record (.body _ _) => BlockBodyBytes
  | .record (.numberToHash _) => Bytes
  | .record (.hashToNumber _) => ℕ

/-- The block database. -/
abbrev Database : Type := Store DBTarget.Value

/-- A `DBOp` that writes. -/
abbrev DBWrite : Type := Write DBTarget.Value

/-- Code that reads the database. -/
abbrev Reading (α : Type) : Type := Await DBTarget.Value ChainError α

namespace Database

def header (db : Database) (n : ℤ) (hash : Bytes) : Option BlockHeader :=
  db (.record (.header (asUintN64 n) hash))

def totalDifficulty (db : Database) (n : ℤ) (hash : Bytes) : Option ℕ :=
  db (.record (.totalDifficulty (asUintN64 n) hash))

def body (db : Database) (n : ℤ) (hash : Bytes) : Option BlockBodyBytes :=
  db (.record (.body (asUintN64 n) hash))

def numberToHash (db : Database) (n : ℤ) : Option Bytes :=
  db (.record (.numberToHash (asUintN64 n)))

def hashToNumber (db : Database) (hash : Bytes) : Option ℕ :=
  db (.record (.hashToNumber hash))

end Database

/-! ## Reading -/

/-- `get(DBTarget.Header, ..)`. -/
def lookupHeader (number : ℤ) (hash : Bytes) : Reading (Option BlockHeader) :=
  Await.lookup (DBTarget.record (.header (asUintN64 number) hash))

/-- `get(DBTarget.Body, ..)`. -/
def lookupBody (number : ℤ) (hash : Bytes) : Reading (Option BlockBodyBytes) :=
  Await.lookup (DBTarget.record (.body (asUintN64 number) hash))

/-- `get(DBTarget.TotalDifficulty, ..)`. -/
def lookupTotalDifficulty (number : ℤ) (hash : Bytes) : Reading (Option ℕ) :=
  Await.lookup (DBTarget.record (.totalDifficulty (asUintN64 number) hash))

/-- `get(DBTarget.HashToNumber, ..)`. -/
def lookupNumber (hash : Bytes) : Reading (Option ℕ) :=
  Await.lookup (DBTarget.record (.hashToNumber hash))

def numberToHash (blockNumber : ℤ) : Reading (Option Bytes) :=
  Await.lookup (DBTarget.record (.numberToHash (asUintN64 blockNumber)))

def DBManager.hashToNumber (blockHash : Bytes) : Reading ℕ := do
  match ← lookupNumber blockHash with
  | none => Await.throw (.valueNotFound blockHash)
  | some number => pure number

def hashToNumber (blockHash : Bytes) : Reading (Option ℕ) :=
  (DBManager.hashToNumber blockHash).attempt

/-- `getTotalDifficulty` of a known number: a record that is missing reads
as zero. -/
def getTotalDifficultyAt (hash : Bytes) (number : ℤ) : Reading ℕ := do
  let td ← lookupTotalDifficulty number hash
  pure (td.getD 0)

/-- `getTotalDifficulty(hash)`. -/
def getTotalDifficulty (hash : Bytes) : Reading ℕ := do
  match ← hashToNumber hash with
  | none => Await.throw (.blockHashNotFound hash)
  | some number => getTotalDifficultyAt hash number

def getParentTD (header : BlockHeader) : Reading ℕ :=
  if header.number = 0 then pure header.difficulty
  else getTotalDifficultyAt header.parentHash ((header.number : ℤ) - 1)

section

variable (cfg : Config)

/-- What `valuesArrayToHeaderData` throws where no header is stored. -/
def tooFewValues : String :=
  "invalid header. Less values than expected were received. Min: 15, got: 0"

def getHeader (hash : Bytes) (number : ℤ) : Reading BlockHeader := do
  match ← lookupHeader number hash with
  | none => Await.throw (.invalidHeader tooFewValues)
  | some header =>
    match cfg.headerDefect header with
    | none => pure header
    | some reason => Await.throw (.invalidHeader reason)

/-- `getHeaderByHash(hash, number)`. -/
def getHeaderByHash (hash : Bytes) (number : Option ℤ) : Reading BlockHeader := do
  match number with
  | some number => getHeader cfg hash number
  | none =>
    match ← hashToNumber hash with
    | none => Await.throw .headerNotFound
    | some number => getHeader cfg hash number

def getCanonicalHeader (blockNumber : ℤ) : Reading BlockHeader := do
  match ← numberToHash blockNumber with
  | none => Await.throw (.notCanonical blockNumber)
  | some hash => getHeaderByHash cfg hash (some blockNumber)

/-- The body `getBlock` takes where none is stored: an empty one, if the
header says so. -/
def emptyBody (header : BlockHeader) : Except ChainError BlockBodyBytes :=
  if header.transactionsTrie ≠ KECCAK256_RLP then
    .error (.notEmpty "transactionsTrie root should be equal to hash of null")
  else if header.uncleHash ≠ KECCAK256_RLP_ARRAY then
    .error (.notEmpty "uncle hash should be equal to hash of empty array")
  else
    match header.withdrawalsRoot with
    | none => .ok [.list [], .list []]
    | some withdrawalsRoot =>
      if withdrawalsRoot ≠ KECCAK256_RLP then
        .error (.notEmpty "withdrawals root shoot be equal to hash of null when no withdrawals")
      else .ok [.list [], .list [], .list []]

/-- `getBlock`, once the hash and the number are known. -/
def getBlockAt (hash : Bytes) (number : ℤ) : Reading Block := do
  let header ← getHeader cfg hash number
  let stored ← lookupBody number hash
  let body ← Await.done (stored.elim (emptyBody header) Except.ok)
  match cfg.blockDefect ⟨header, body⟩ with
  | none => pure ⟨header, body⟩
  | some reason => Await.throw (.invalidBlock reason)

/-- `getBlock` of a hash. -/
def getBlockByHash (hash : Bytes) : Reading Block := do
  let number ← DBManager.hashToNumber hash
  getBlockAt cfg hash number

/-- `getBlock` of a number. -/
def getBlockByNumber (number : ℤ) : Reading (Option Block) := do
  match ← numberToHash number with
  | none => pure none
  | some hash => do
    let block ← getBlockAt cfg hash number
    pure (some block)

/-! ## The common ancestor -/

/-- The walk of the new header back to the height of the head. -/
def walkBack (number : ℕ) :
    ℕ → BlockHeader → List BlockHeader → Reading (BlockHeader × List BlockHeader)
  | 0, _, _ => Await.throw .running
  | fuel + 1, newHeader, ancestorHeaders =>
    if number ≠ newHeader.number ∧ 0 < newHeader.number then do
      let newHeader ← getHeaderByHash cfg newHeader.parentHash (some ((newHeader.number : ℤ) - 1))
      walkBack number fuel newHeader (ancestorHeaders ++ [newHeader])
    else pure (newHeader, ancestorHeaders)

/-- The walk of both chains back until they meet. -/
def walkBoth : ℕ → BlockHeader → BlockHeader → List BlockHeader →
    Reading (BlockHeader × BlockHeader × List BlockHeader)
  | 0, _, _, _ => Await.throw .running
  | fuel + 1, header, newHeader, ancestorHeaders =>
    if cfg.hash header ≠ cfg.hash newHeader ∧ 0 < header.number then do
      let header ← getCanonicalHeader cfg ((header.number : ℤ) - 1)
      let newHeader ← getHeaderByHash cfg newHeader.parentHash (some ((newHeader.number : ℤ) - 1))
      walkBoth fuel header newHeader (ancestorHeaders ++ [header, newHeader])
    else pure (header, newHeader, ancestorHeaders)

/-- The two headers, once they are at one height if they can be: the canonical
one is looked up below a higher head, and the new one walked back to a lower
one. -/
def atOneHeight (header newHeader : BlockHeader) :
    Reading (BlockHeader × BlockHeader × List BlockHeader) :=
  if header.number > newHeader.number then do
    let header ← getCanonicalHeader cfg newHeader.number
    pure (header, newHeader, [header])
  else do
    let (newHeader, ancestorHeaders) ← walkBack cfg header.number cfg.fuel newHeader []
    pure (header, newHeader, ancestorHeaders)

/-- **`findCommonAncestor`**: the ancestor, and the headers passed on the way
to it. -/
def findCommonAncestor (newHeader : BlockHeader) (headHeaderHash : Bytes) :
    Reading (BlockHeader × List BlockHeader) := do
  let header ← getHeaderByHash cfg headHeaderHash none
  let (header, newHeader, ancestorHeaders) ← atOneHeight cfg header newHeader
  if header.number ≠ newHeader.number then Await.throw .noAncestor
  else do
    let (header, newHeader, ancestorHeaders) ←
      walkBoth cfg cfg.fuel header newHeader ancestorHeaders
    if cfg.hash header ≠ cfg.hash newHeader then Await.throw .noAncestor
    else pure (header, ancestorHeaders)

/-! ## What a new head writes -/

def createSetTDOp (td : ℕ) (blockNumber : ℕ) (blockHash : Bytes) : DBWrite :=
  ⟨.record (.totalDifficulty (asUintN64 blockNumber) blockHash), some td⟩

/-- `createSetHashToNumberOp`: the number is written as its key has it. -/
def createSetHashToNumberOp (blockHash : Bytes) (blockNumber : ℕ) : DBWrite :=
  ⟨.record (.hashToNumber blockHash), some (asUintN64 blockNumber)⟩

def createDeleteNumberToHashOp (blockNumber : ℤ) : DBWrite :=
  ⟨.record (.numberToHash (asUintN64 blockNumber)), none⟩

def createSaveLookupOps (blockHash : Bytes) (blockNumber : ℕ) : List DBWrite :=
  [⟨.record (.numberToHash (asUintN64 blockNumber)), some blockHash⟩,
    createSetHashToNumberOp blockHash blockNumber]

/-- `createSetBlockOrHeaderOps`: of a block, or of a header alone. -/
def createSetBlockOrHeaderOps (header : BlockHeader) (body : Option BlockBodyBytes) :
    List DBWrite :=
  ⟨.record (.header (asUintN64 header.number) (cfg.hash header)), some header⟩ ::
    body.toList.map fun body =>
      ⟨.record (.body (asUintN64 header.number) (cfg.hash header)), some body⟩

/-- **`BlockchainMutableState`**. The two hashes are set when the manager is
created, and from then on always. -/
structure MutableState where
  heads : Heads
  headHeaderHash : Bytes
  headBlockHash : Bytes
  deletedBlocks : List Block

def createSaveHeadOps (state : MutableState) : List DBWrite :=
  [⟨.heads, some state.heads⟩, ⟨.headHeader, some state.headHeaderHash⟩,
    ⟨.headBlock, some state.headBlockHash⟩]

/-- A pointer that moves to `new` if it is at `old`. -/
def repoint (old new hash : Bytes) : Bytes := if hash = old then new else hash

structure DeleteCanonicalResult where
  ops : List DBWrite
  deletedBlocks : List Block
  updatedHeads : Heads
  updatedHeadHeaderHash : Bytes
  updatedHeadBlockHash : Bytes

/-- What one turn of the loop adds: the reference is deleted, and what points
at it moves to the new head. -/
def DeleteCanonicalResult.add (result : DeleteCanonicalResult) (blockNumber : ℤ)
    (hash newHeadHash : Bytes) (deleted : Option Block) : DeleteCanonicalResult where
  ops := result.ops ++ [createDeleteNumberToHashOp blockNumber]
  deletedBlocks := result.deletedBlocks ++ deleted.toList
  updatedHeads := fun name => (result.updatedHeads name).map (repoint hash newHeadHash)
  updatedHeadHeaderHash := repoint hash newHeadHash result.updatedHeadHeaderHash
  updatedHeadBlockHash := repoint hash newHeadHash result.updatedHeadBlockHash

/-- The block of a deleted reference, if these are tracked. -/
def trackedBlock (trackDeletedBlocks : Bool) (blockNumber : ℤ) : Reading (Option Block) :=
  if trackDeletedBlocks then getBlockByNumber cfg blockNumber else pure none

/-- The loop of `createDeleteCanonicalChainOps`. -/
def deleteCanonicalFrom (newHeadHash : Bytes) (trackDeletedBlocks : Bool) :
    ℕ → ℤ → DeleteCanonicalResult → Reading DeleteCanonicalResult
  | 0, _, _ => Await.throw .running
  | fuel + 1, blockNumber, result => do
    match ← numberToHash blockNumber with
    | none => pure result
    | some hash => do
      let deleted ← trackedBlock cfg trackDeletedBlocks blockNumber
      deleteCanonicalFrom newHeadHash trackDeletedBlocks fuel (blockNumber + 1)
        (result.add blockNumber hash newHeadHash deleted)

/-- **`createDeleteCanonicalChainOps`**. -/
def createDeleteCanonicalChainOps (startBlockNumber : ℤ) (newHeadHash : Bytes)
    (currentState : MutableState) (trackDeletedBlocks : Bool) : Reading DeleteCanonicalResult :=
  deleteCanonicalFrom cfg newHeadHash trackDeletedBlocks cfg.fuel startBlockNumber
    ⟨[], [], currentState.heads, currentState.headHeaderHash, currentState.headBlockHash⟩

/-- What the loop of `createRebuildCanonicalOps` has gathered. -/
structure Rebuilding where
  ops : List DBWrite
  staleHeads : String → Bool
  staleHeadBlock : Bool

/-- What one turn of the loop adds: the lookups of a block, and what points at
the block it replaces. -/
def Rebuilding.add (r : Rebuilding) (currentState : MutableState) (header : BlockHeader)
    (staleHash : Option Bytes) : Rebuilding where
  ops := r.ops ++ createSaveLookupOps (cfg.hash header) header.number
  staleHeads := fun name =>
    r.staleHeads name || (staleHash.isSome && decide (currentState.heads name = staleHash))
  staleHeadBlock := r.staleHeadBlock || decide (some currentState.headBlockHash = staleHash)

/-- The loop of `createRebuildCanonicalOps`, with `currentCanonicalHash` when
it ends. -/
def rebuildCanonicalFrom (currentState : MutableState) :
    ℕ → BlockHeader → ℤ → Rebuilding → Reading (Rebuilding × Bytes)
  | 0, _, _, _ => Await.throw .running
  | fuel + 1, header, currentNumber, r => do
    let staleHash ← numberToHash currentNumber
    if staleHash = some (cfg.hash header) then pure (r, cfg.hash header)
    else if header.number = 0 then pure (r, cfg.hash header)
    else do
      let staleHash ← numberToHash currentNumber
      let r := r.add cfg currentState header staleHash
      match ← (getHeaderByHash cfg header.parentHash (some (currentNumber - 1))).attempt with
      -- the parent is not found: the heads stay where they are
      | none => pure ({ r with staleHeads := fun _ => false }, cfg.hash header)
      | some parent => rebuildCanonicalFrom currentState fuel parent (currentNumber - 1) r

structure RebuildCanonicalResult where
  ops : List DBWrite
  updatedHeads : Heads
  updatedHeadBlockHash : Bytes

/-- **`createRebuildCanonicalOps`**. -/
def createRebuildCanonicalOps (header : BlockHeader) (currentState : MutableState) :
    Reading RebuildCanonicalResult := do
  let (r, currentCanonicalHash) ←
    rebuildCanonicalFrom cfg currentState cfg.fuel header header.number
      ⟨[], fun _ => false, false⟩
  pure
    { ops := r.ops
      updatedHeads := fun name =>
        if r.staleHeads name then some currentCanonicalHash else currentState.heads name
      updatedHeadBlockHash :=
        if r.staleHeadBlock then currentCanonicalHash else currentState.headBlockHash }

end

end TsEthereum.Blockchain
