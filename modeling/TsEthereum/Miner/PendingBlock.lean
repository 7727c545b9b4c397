import TsEthereum.Block.Validation

/-!
# The header of a pending block

`PendingBlock.start` says what the block builder starts from, its constructor fills in what is left
out, and `build` puts in what adding the transactions came to. The pending block looks at the
hardfork of the number alone, the builder at that of the number and the time; and the pending
block asks the parent for the base fee of every block that has one, the first one too.
-/

namespace TsEthereum

namespace Miner

open TsEthereum.ChainConfig TsEthereum.Block

/-- The header data a pending block is started with. -/
structure PayloadAttributes where
  timestamp : ℕ
  mixHash : Option Bytes32
  coinbase : Option Bytes20
  parentBeaconBlockRoot : Option Bytes32

/-- **What a builder has come to** when it builds: the gas of the transactions that were added, and
the roots and hashes of what they, the withdrawals and the requests left. -/
structure Accumulated where
  gasUsed : ℕ
  blobGasUsed : ℕ
  stateRoot : Bytes32
  transactionsTrie : Bytes32
  withdrawalsRoot : Option Bytes32
  receiptTrie : Bytes32
  logsBloom : { b : Bytes // b.length = 256 }
  requestsHash : Bytes32

/-- A hash, as a field. -/
def hashField (hash : Bytes32) : FlexibleTypeInput := .bytes hash.1

/-- The base fee a builder fills in: the initial one in the first London block, and the parent's
next in the others. -/
def filledBaseFee (m : HardforkManager) (parent : ValidatedHeader) (blockHardfork : Hardfork)
    (headerData : HeaderData) : Except HeaderError (Option FlexibleTypeInput) :=
  if m.isEIPActiveAtHardfork 1559 blockHardfork = true ∧ headerData.baseFeePerGas.isNone = true then
    if isLondonBlock m headerData.number then
      .ok (some (.bigint ((m.getParamAtHardfork .initialBaseFee blockHardfork).getD 0)))
    else (parent.calcNextBaseFee m).map fun fee => some (.bigint fee)
  else .ok headerData.baseFeePerGas

/-- The excess blob gas a builder fills in. -/
def filledExcessBlobGas (m : HardforkManager) (parent : ValidatedHeader) (blockHardfork : Hardfork)
    (headerData : HeaderData) : Except HeaderError (Option FlexibleTypeInput) :=
  if m.isEIPActiveAtHardfork 4844 blockHardfork = true ∧ headerData.excessBlobGas.isNone = true then
    (parent.calcNextExcessBlobGas m blockHardfork).map fun excess => some (.bigint excess)
  else .ok headerData.excessBlobGas

/-- The constructor of **`BlockBuilder`**: the header data with what is left out filled in. A gas
limit is always there when the first London block would double it. -/
def newBlockBuilder (keccak256 : Bytes → Bytes32) (m : HardforkManager) (parent : ValidatedHeader)
    (now : ℕ) (headerData : HeaderData) : Except HeaderError HeaderData := do
  let number := headerData.number.getD (.bigint (parent.number + 1))
  let timestamp := headerData.timestamp.getD (.bigint now)
  let blockHardfork := m.getHardforkByBlock (some (zBigInt 0 (some number)))
    (some (zBigInt 0 (some timestamp)))
  let headerData : HeaderData := { headerData with
    parentHash := headerData.parentHash.getD (hashField (parent.computeHash keccak256 m))
    number := number
    gasLimit := headerData.gasLimit.getD (.bigint parent.gasLimit)
    timestamp := timestamp }
  let baseFeePerGas ← filledBaseFee m parent blockHardfork headerData
  let excessBlobGas ← filledExcessBlobGas m parent blockHardfork headerData
  return { headerData with baseFeePerGas, excessBlobGas }

/-- The base fee a pending block is started with: the parent's next, when the number alone says
that there is one. -/
def pendingBaseFee (m : HardforkManager) (parent : ValidatedHeader) :
    Except HeaderError (Option FlexibleTypeInput) :=
  if m.isEIPActiveAtHardfork 1559 (m.getHardforkByBlock (some (parent.number + 1)) none) then
    (parent.calcNextBaseFee m).map fun fee => some (.bigint fee)
  else .ok none

/-- The gas limit it is started with. -/
def pendingGasLimit (m : HardforkManager) (parent : ValidatedHeader) : ℕ :=
  if m.hardforkBlock .london = some (parent.number + 1) then parent.gasLimit * 2 else parent.gasLimit

/-- **`PendingBlock.start`**, as far as the header goes. -/
def start (keccak256 : Bytes → Bytes32) (m : HardforkManager) (parent : ValidatedHeader) (now : ℕ)
    (attributes : PayloadAttributes) : Except HeaderError HeaderData := do
  let baseFeePerGas ← pendingBaseFee m parent
  newBlockBuilder keccak256 m parent now {
    timestamp := some (.bigint attributes.timestamp)
    mixHash := attributes.mixHash.map hashField
    coinbase := attributes.coinbase.map .address
    parentBeaconBlockRoot := attributes.parentBeaconBlockRoot.map hashField
    number := some (.bigint (parent.number + 1))
    gasLimit := some (.bigint (pendingGasLimit m parent))
    baseFeePerGas }

/-- **`BlockBuilder.build`**, as far as the header goes. -/
def build (m : HardforkManager) (headerData : HeaderData) (acc : Accumulated) :
    Except HeaderError ValidatedHeader :=
  let blockHardfork := m.getHardforkByBlock (some (zBigInt 0 headerData.number))
    (some (zBigInt 0 headerData.timestamp))
  fromHeaderData { headerData with
      stateRoot := some (hashField acc.stateRoot)
      transactionsTrie := some (hashField acc.transactionsTrie)
      withdrawalsRoot := acc.withdrawalsRoot.map hashField
      receiptTrie := some (hashField acc.receiptTrie)
      logsBloom := some (.bytes acc.logsBloom.1)
      gasUsed := some (.bigint acc.gasUsed)
      blobGasUsed :=
        if m.isEIPActiveAtHardfork 4844 blockHardfork then some (.bigint acc.blobGasUsed) else none
      requestsHash :=
        if m.isEIPActiveAtHardfork 7685 blockHardfork then some (hashField acc.requestsHash)
        else none }
    ⟨m, none, false⟩

/-- A pending block, started and built. -/
def pendingHeader (keccak256 : Bytes → Bytes32) (m : HardforkManager) (parent : ValidatedHeader)
    (now : ℕ) (attributes : PayloadAttributes) (acc : Accumulated) :
    Except HeaderError ValidatedHeader := do
  let headerData ← start keccak256 m parent now attributes
  build m headerData acc

end Miner

end TsEthereum
