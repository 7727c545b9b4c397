import TsEthereum.Blockchain.Keys
import TsEthereum.ChainConfig.Manager
import TsEthereum.Common.Except
import TsEthereum.Common.Padding
import TsEthereum.Evm.World
import TsEthereum.State.Manager

/-!
# What a block records of its parent

Before its transactions a block writes to two system contracts: its timestamp
and the root of its parent beacon block to the ring buffers of EIP-4788, and
the hash of its parent to that of EIP-2935. Where a hardfork does not have the
EIP nothing is called, and where the contract has no code nothing is written.

A block is here what `runBlock` does of it to the state: what follows the two
calls, its transactions, withdrawals and rewards, is a field of the block, as
are the validations, which write nothing.
-/

namespace TsEthereum.Vm

open ChainConfig Evm

/-- What running a block throws. -/
inductive BlockError where
  /-- `Cannot call … : EIP … is not active` -/
  | eipNotActive (eip : ℕ)
  /-- `Storage value cannot be longer than 32 bytes` -/
  | storageValueLength
  /-- `putStorage() called on non-existing account` -/
  | nonExistingAccount
  /-- A number with `undefined`, or one divided by zero. -/
  | typeError
  /-- The bytes of a negative number. -/
  | invalidBytes
  /-- What the rest of the block throws. -/
  | rest (message : String)
  deriving DecidableEq

/-! ## The state manager -/

/-- `getCode`: only a contract has one. -/
def getCode (s : State) (address : Bytes20) : Bytes :=
  match s.accounts address with
  | none => []
  | some account => if account.codeHash = KECCAK256_NULL then [] else s.code address

/-- **`putStorage`**: the value is kept without its leading zeros. -/
def putStorage (w : World) (address : Bytes20) (key : Bytes32) (value : Bytes) :
    Except BlockError World :=
  if 32 < value.length then .error .storageValueLength
  else match w.state.accounts address with
    | none => .error .nonExistingAccount
    | some _ => .ok { w with state := w.state.putStorage address key (unpadBytes value) }

/-- **`journal.cleanup`**: the touched accounts that are empty are deleted, and the
journal starts anew. -/
def cleanup (m : HardforkManager) (hardfork : Hardfork) (w : World) : World :=
  let emptied (address : Bytes20) : Bool :=
    m.hardforkGte hardfork .spuriousDragon && decide (address ∈ w.touched) &&
      (w.state.accounts address).all AccountFields.isEmpty
  { w with
    state :=
      { w.state with
        accounts := fun a => if emptied a then none else w.state.accounts a
        code := fun a => if emptied a then [] else w.state.code a
        storage := fun a => if emptied a then fun _ => [] else w.state.storage a }
    touched := ∅
    journalHeight := 0 }

/-! ## The two contracts -/

def bigIntToAddressBytes (num : ℕ) : Bytes20 :=
  ⟨setLengthLeft (Blockchain.bigIntToBytes num) 20, length_setLengthLeft ..⟩

def parentBeaconBlockRootAddress : Bytes20 :=
  bigIntToAddressBytes 0x000F3df6D732807Ef1319fB7B8bB8522d0Beac02

/-- `historyStorageAddress`, which EIP-2935 alone sets. -/
def historyStorageAddress : Bytes20 :=
  bigIntToAddressBytes 0x0000f90827f1c53a10cb7a02335b175320002935

/-- `setLengthLeft(bigIntToBytes(…), 32)`. -/
def slotKey (num : ℕ) : Bytes32 := ⟨setLengthLeft (Blockchain.bigIntToBytes num) 32, length_setLengthLeft ..⟩

/-- A modulus: `undefined` and zero do not divide. -/
def modulus : Option ℕ → Except BlockError ℕ
  | none => .error .typeError
  | some n => if n = 0 then .error .typeError else .ok n

/-- A call of an EIP that is not active. -/
def checkActive (m : HardforkManager) (eip : ℕ) (hardfork : Hardfork) : Except BlockError Unit :=
  if m.isEIPActiveAtHardfork eip hardfork then .ok () else .error (.eipNotActive eip)

/-- The writes of `accumulateParentBeaconBlockRoot` to a contract that has code. -/
def putBeaconRoot (root : Bytes) (timestamp length : ℕ) (w : World) : Except BlockError World := do
  let timestampIndex := timestamp % length
  let timestampExtended := timestampIndex + length
  let w ← putStorage w parentBeaconBlockRootAddress (slotKey timestampIndex)
    (Blockchain.bigIntToBytes timestamp)
  putStorage w parentBeaconBlockRootAddress (slotKey timestampExtended) root

/-- **`accumulateParentBeaconBlockRoot`**. -/
def accumulateParentBeaconBlockRoot (m : HardforkManager) (root : Bytes) (timestamp : ℕ)
    (blockHardfork : Hardfork) (w : World) : Except BlockError World := do
  checkActive m 4788 blockHardfork
  let historicalRootsLength ← modulus (m.getParamAtHardfork .historicalRootsLength blockHardfork)
  let code := getCode w.state parentBeaconBlockRootAddress
  if code.length = 0 then .ok w
  else
    (putBeaconRoot root timestamp historicalRootsLength w).map (cleanup m blockHardfork)

/-- The write of `accumulateParentBlockHash` to a contract that has code: the hash
of the block before the current one. -/
def putBlockHash (m : HardforkManager) (currentBlockNumber : ℕ) (parentHash : Bytes)
    (blockHardfork : Hardfork) (w : World) : Except BlockError World := do
  let historyServeWindow ← modulus (m.getParamAtHardfork .historyServeWindow blockHardfork)
  if currentBlockNumber = 0 then .error .invalidBytes
  else
    let ringKey := (currentBlockNumber - 1) % historyServeWindow
    putStorage w historyStorageAddress (slotKey ringKey) parentHash

/-- **`accumulateParentBlockHash`**. -/
def accumulateParentBlockHash (m : HardforkManager) (currentBlockNumber : ℕ) (parentHash : Bytes)
    (blockHardfork : Hardfork) (w : World) : Except BlockError World := do
  checkActive m 2935 blockHardfork
  let code := getCode w.state historyStorageAddress
  if code.length = 0 then .ok w
  else
    (putBlockHash m currentBlockNumber parentHash blockHardfork w).map (cleanup m blockHardfork)

/-! ## A block -/

/-- The accounts of the DAO fork. -/
structure DAOConfig where
  DAOAccounts : List Bytes20
  DAORefundContract : Bytes20

/-- **`_applyDAOHardfork`**: the balances of the accounts go to the refund contract. -/
def _applyDAOHardfork (config : DAOConfig) (w : World) : World :=
  let w := if (w.state.accounts config.DAORefundContract).isNone
    then w.putAccount config.DAORefundContract .new else w
  let DAORefundAccount := w.state.account config.DAORefundContract
  let refunded := config.DAOAccounts.foldl (fun (r : World × ℕ) address =>
    let account := r.1.state.account address
    (r.1.putAccount address { account with balance := 0 }, r.2 + account.balance))
    (w, DAORefundAccount.balance)
  refunded.1.putAccount config.DAORefundContract { DAORefundAccount with balance := refunded.2 }

/-- What `runBlock` reads of a block, and what its transactions, withdrawals and
rewards do. -/
structure HistoryBlock where
  number : ℕ
  timestamp : ℕ
  parentHash : Bytes32
  parentBeaconBlockRoot : Bytes32
  rest : World → Except BlockError World

/-- The hardfork of a block. -/
def HistoryBlock.hardfork (m : HardforkManager) (block : HistoryBlock) : Hardfork :=
  m.getHardforkByBlock (some block.number) (some block.timestamp)

/-- A call of a hardfork that has the EIP. -/
def whenActive (m : HardforkManager) (eip : ℕ) (hardfork : Hardfork)
    (call : World → Except BlockError World) (w : World) : Except BlockError World :=
  if m.isEIPActiveAtHardfork eip hardfork then call w else .ok w

/-- The two calls of `applyBlock`. -/
def accumulate (m : HardforkManager) (block : HistoryBlock) (w : World) :
    Except BlockError World := do
  let blockHardfork := block.hardfork m
  let w ← whenActive m 4788 blockHardfork
    (accumulateParentBeaconBlockRoot m block.parentBeaconBlockRoot.1 block.timestamp
      blockHardfork) w
  whenActive m 2935 blockHardfork
    (accumulateParentBlockHash m block.number block.parentHash.1 blockHardfork) w

/-- The state `runBlock` opens its checkpoint on, with a new journal: after the DAO
fork on its block. -/
def beforeBlock (m : HardforkManager) (config : DAOConfig) (w : World) (block : HistoryBlock) :
    World :=
  let w := { w with touched := ∅, journalHeight := 0 }
  if m.hardforkBlock .dao = some block.number
  then (_applyDAOHardfork config w.checkpoint).commit else w

/-- **`runBlock`**. -/
def runBlock (m : HardforkManager) (config : DAOConfig) (w : World) (block : HistoryBlock) :
    Except BlockError World := do
  let w ← accumulate m block (beforeBlock m config w block).checkpoint
  let w ← block.rest w
  .ok w.commit

/-- A run of blocks. -/
def runBlocks (m : HardforkManager) (config : DAOConfig) (w : World)
    (blocks : List HistoryBlock) : Except BlockError World :=
  blocks.foldlM (runBlock m config) w

end TsEthereum.Vm
