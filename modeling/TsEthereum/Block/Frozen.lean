import TsEthereum.Block.Header
import TsEthereum.Tx.Factory

/-!
# Blocks

The `block` package's block: a header, transactions, uncle headers and, since EIP-4895,
withdrawals; the nested list it is written as and read from, and the validation of its
constructor.

`RLP.decode` gives a nested list that the source takes for a `BlockBytes`: what is not of that
form is refused here. Of several issues of the constructor's schema the first is thrown.
-/

namespace TsEthereum

namespace Block

open TsEthereum.ChainConfig
open TsEthereum.Blockchain (bigIntToBytes ofBigEndian_bigIntToBytes)

/-- What is thrown. -/
inductive BlockError where
  | header (error : HeaderError)
  | tx (error : Tx.TxError)
  | rlp (error : Rlp.DecodeError)
  /-- 'Invalid serialized block input. Must be array' -/
  | notArray
  /-- 'invalid: More values=6 than expected were received (at most 5)' -/
  | moreValues (length : ℕ)
  /-- 'Invalid serialized block input: EIP-4895 is active, and no withdrawals were provided as
  array' -/
  | noWithdrawals
  /-- 'too many uncle headers: got 3, max 2' -/
  | tooManyUncles (length : ℕ)
  /-- 'duplicate uncles' -/
  | duplicateUncles
  /-- 'Block initialization with uncleHeaders on a PoA network is not allowed' -/
  | uncleHeaders (consensusType : ConsensusType)
  /-- 'Cannot have a withdrawals field if EIP 4895 is not active' -/
  | withdrawals
  /-- 'Invalid address length' -/
  | addressLength
  /-- 'Block size exceeds limit: 10485761 > 10485760' -/
  | blockSize (length maxRlpBlockSize : ℕ)

/-! ## Withdrawals -/

structure Withdrawal where
  index : ℕ
  validatorIndex : ℕ
  address : Bytes20
  amount : ℕ
  deriving DecidableEq

structure WithdrawalBytes where
  index : Bytes
  validatorIndex : Bytes
  address : Bytes
  amount : Bytes

/-- `toType` of a number, where 0 is nothing. -/
def withdrawalField (n : ℕ) : Bytes := if n = 0 then [] else bigIntToBytes n

/-- `withdrawalToBytesArray`. -/
def Withdrawal.raw (withdrawal : Withdrawal) : WithdrawalBytes where
  index := withdrawalField withdrawal.index
  validatorIndex := withdrawalField withdrawal.validatorIndex
  address := withdrawal.address.1
  amount := withdrawalField withdrawal.amount

/-- **`createWithdrawal`**. -/
def createWithdrawal (data : WithdrawalBytes) : Except BlockError Withdrawal :=
  if h : data.address.length = 20 then
    .ok ⟨ofBigEndian data.index, ofBigEndian data.validatorIndex, ⟨data.address, h⟩,
      ofBigEndian data.amount⟩
  else .error .addressLength

/-! ## The nested list -/

/-- **`BlockBytes`**. -/
structure BlockBytes where
  headerData : List Bytes
  txsData : List NestedUint8Array
  uhsData : List (List Bytes)
  valuesTail : List (List WithdrawalBytes)

/-- A list of byte strings, as a value. -/
def bytesValue (values : List Bytes) : NestedUint8Array := .list (values.map .bytes)

/-- Withdrawals, as a value. -/
def WithdrawalBytes.toValue (data : WithdrawalBytes) : NestedUint8Array :=
  bytesValue [data.index, data.validatorIndex, data.address, data.amount]

/-- A list of withdrawals, as a value. -/
def withdrawalsValue (withdrawals : List WithdrawalBytes) : NestedUint8Array :=
  .list (withdrawals.map WithdrawalBytes.toValue)

/-- The nested list. -/
def BlockBytes.toValues (values : BlockBytes) : List NestedUint8Array :=
  [bytesValue values.headerData, .list values.txsData, .list (values.uhsData.map bytesValue)] ++
    values.valuesTail.map withdrawalsValue

/-- A byte string. -/
def bytesOf : NestedUint8Array → Option Bytes
  | .bytes b => some b
  | .list _ => none

/-- A list. -/
def listOf : NestedUint8Array → Option (List NestedUint8Array)
  | .bytes _ => none
  | .list values => some values

/-- A list of byte strings. -/
def bytesListOf (value : NestedUint8Array) : Option (List Bytes) :=
  (listOf value).bind fun values => values.mapM bytesOf

/-- A withdrawal. -/
def withdrawalOf (value : NestedUint8Array) : Option WithdrawalBytes :=
  match bytesListOf value with
  | some [index, validatorIndex, address, amount] => some ⟨index, validatorIndex, address, amount⟩
  | _ => none

/-- Uncle headers. -/
def uncleHeadersOf (value : NestedUint8Array) : Option (List (List Bytes)) :=
  (listOf value).bind fun values => values.mapM bytesListOf

/-- Withdrawals. -/
def withdrawalsOf (value : NestedUint8Array) : Option (List WithdrawalBytes) :=
  (listOf value).bind fun values => values.mapM withdrawalOf

/-- `values as BlockBytes`: transactions and uncles may be left out. -/
def BlockBytes.ofValues : List NestedUint8Array → Option BlockBytes
  | [] => none
  | headerData :: rest => do
    let headerData ← bytesListOf headerData
    let txsData ← listOf (rest[0]?.getD (.list []))
    let uhsData ← uncleHeadersOf (rest[1]?.getD (.list []))
    let valuesTail ← (rest.drop 2).mapM withdrawalsOf
    return { headerData, txsData, uhsData, valuesTail }

/-! ## The block -/

/-- **`FrozenBlock`**. -/
structure FrozenBlock where
  header : ValidatedHeader
  transactions : List Tx.TxData
  uncleHeaders : List ValidatedHeader
  withdrawals : Option (List Withdrawal)
  deriving DecidableEq

/-- A transaction in the body: a typed one is a byte string, a legacy one is a list. -/
def bodyData (tx : Tx.TxData) : Except Tx.TxError NestedUint8Array :=
  match tx with
  | .legacy tx => .ok (.list tx.raw)
  | tx => tx.serialize.map .bytes

/-- **`createTxManagerFromBlockBodyData`**. -/
def createTxManagerFromBlockBodyData : NestedUint8Array → Except Tx.TxError Tx.TxData
  | .bytes data => Tx.createTxManagerFromRLP data
  | .list data => Tx.createLegacyTxManagerFromBytesArray data

namespace FrozenBlock

variable (keccak256 : Bytes → Bytes32) (m : HardforkManager) (block : FrozenBlock)

/-- **`toRaw`**, or what `RLP.encode` throws of it. -/
def toRaw : Except BlockError BlockBytes := do
  let txsData ← (block.transactions.mapM bodyData).mapError .tx
  return {
    headerData := block.header.toRaw m
    txsData
    uhsData := block.uncleHeaders.map (ValidatedHeader.toRaw m)
    valuesTail := block.withdrawals.toList.map fun withdrawals => withdrawals.map Withdrawal.raw }

/-- **`serialize`**. -/
def serialize : Except BlockError Bytes :=
  (block.toRaw m).map fun values => Rlp.encode (.list values.toValues)

/-- `getHash`: that of the header. -/
def getHash : Bytes32 := block.header.computeHash keccak256 m

end FrozenBlock

/-! ## The constructor's validation -/

def MAX_UNCLE_HEADERS : ℕ := 2

structure BlockConstructorInput where
  uncleHeaders : List ValidatedHeader
  withdrawals : Option (List Withdrawal)
  isGenesis : Bool

structure BlockValidatorOptions where
  hardforkManager : HardforkManager
  number : ℕ
  timestamp : Option ℕ

structure ValidatedBlockData where
  uncleHeaders : List ValidatedHeader
  withdrawals : Option (List Withdrawal)

def zUncleHeadersSchema (keccak256 : Bytes → Bytes32) (m : HardforkManager)
    (uncles : List ValidatedHeader) : Except BlockError Unit :=
  if MAX_UNCLE_HEADERS < uncles.length then .error (.tooManyUncles uncles.length)
  else if (uncles.map (ValidatedHeader.computeHash keccak256 m)).Nodup then .ok ()
  else .error .duplicateUncles

/-- There are no uncles on a PoA or PoS network, but in a genesis block. -/
def checkUncleHeaders (m : HardforkManager) (isGenesis : Bool)
    (uncleHeaders : List ValidatedHeader) : Except BlockError Unit :=
  if isGenesis = false ∧ uncleHeaders ≠ [] ∧
      (m.consensusType = .proofOfAuthority ∨ m.consensusType = .proofOfStake) then
    .error (.uncleHeaders m.consensusType)
  else .ok ()

/-- EIP-4895: withdrawals are there only when it is active. -/
def checkWithdrawals (isEIP4895Active : Bool) (withdrawals : Option (List Withdrawal)) :
    Except BlockError Unit :=
  if isEIP4895Active = false ∧ withdrawals.isSome = true then .error .withdrawals else .ok ()

/-- **`validateBlockConstructor`**: withdrawals that are left out are none at all, when they are
active. -/
def validateBlockConstructor (keccak256 : Bytes → Bytes32) (input : BlockConstructorInput)
    (opts : BlockValidatorOptions) (number : ℕ) : Except BlockError ValidatedBlockData := do
  let m := opts.hardforkManager
  zUncleHeadersSchema keccak256 m input.uncleHeaders
  checkUncleHeaders m input.isGenesis input.uncleHeaders
  checkWithdrawals (m.isEIPActiveAtBlock 4895 opts.number opts.timestamp) input.withdrawals
  let finalWithdrawals := input.withdrawals.or
    (if m.isEIPActiveAtBlock 4895 number opts.timestamp then some [] else none)
  return ⟨input.uncleHeaders, finalWithdrawals⟩

/-! ## Reading a block -/

/-- There are five values at most. -/
def checkValuesLength (length : ℕ) : Except BlockError Unit :=
  if 5 < length then .error (.moreValues length) else .ok ()

/-- The withdrawals' list has to be there when EIP-4895 is active. -/
def checkWithdrawalBytes (isEIP4895Active : Bool)
    (withdrawalBytes : Option (List WithdrawalBytes)) : Except BlockError Unit :=
  if isEIP4895Active = true ∧ withdrawalBytes = none then .error .noWithdrawals else .ok ()

/-- `withdrawalBytes?.map(createWithdrawal)`. -/
def createWithdrawals : Option (List WithdrawalBytes) → Except BlockError (Option (List Withdrawal))
  | none => .ok none
  | some withdrawalBytes => (withdrawalBytes.mapM createWithdrawal).map some

/-- **`fromBytesArray`**, of a block: the constructor's validation is given the number, and no
time. -/
def FrozenBlock.fromBytesArray (keccak256 : Bytes → Bytes32) (values : BlockBytes)
    (opts : CreateHeaderOptions) : Except BlockError FrozenBlock := do
  let m := opts.hardforkManager
  checkValuesLength (3 + values.valuesTail.length)
  let header ← (Block.fromBytesArray values.headerData opts).mapError .header
  let withdrawalBytes := if header.isEIPActive m 4895 then values.valuesTail.head? else none
  checkWithdrawalBytes (header.isEIPActive m 4895) withdrawalBytes
  let transactions ← (values.txsData.mapM createTxManagerFromBlockBodyData).mapError .tx
  let uncleHeaders ← values.uhsData.mapM fun uncleHeaderData =>
    (Block.fromBytesArray uncleHeaderData { opts with calcDifficultyFromHeader := none }).mapError
      .header
  let withdrawals ← createWithdrawals withdrawalBytes
  let validated ← validateBlockConstructor keccak256
    ⟨uncleHeaders, withdrawals, header.number = 0⟩ ⟨m, header.number, none⟩ header.number
  return { header, transactions, uncleHeaders, withdrawals := validated.withdrawals }

/-- EIP-7934: a block has a size, when Osaka has a limit. -/
def checkBlockSize (m : HardforkManager) (serialized : Bytes) : Except BlockError Unit :=
  let maxRlpBlockSize := (m.getParamAtHardfork .maxRlpBlockSize .osaka).getD 1000000000
  if m.isEIPActiveAtHardfork 7934 .osaka = true ∧ maxRlpBlockSize < serialized.length then
    .error (.blockSize serialized.length maxRlpBlockSize)
  else .ok ()

/-- What `RLP.decode` gives, as a list. -/
def decodeArray (serialized : Bytes) : Except BlockError (List NestedUint8Array) :=
  match Rlp.decode serialized false with
  | .error e => .error (.rlp e)
  | .ok (.data (.list values)) => .ok values
  | .ok _ => .error .notArray

/-- What is of the form, or is refused. -/
def orNotArray {α : Type} : Option α → Except BlockError α
  | some a => .ok a
  | none => .error .notArray

/-- **`fromRLP`**, of a block. -/
def FrozenBlock.fromRLP (keccak256 : Bytes → Bytes32) (serialized : Bytes)
    (opts : CreateHeaderOptions) : Except BlockError FrozenBlock := do
  checkBlockSize opts.hardforkManager serialized
  let values ← decodeArray serialized
  let values ← orNotArray (BlockBytes.ofValues values)
  FrozenBlock.fromBytesArray keccak256 values opts

/-- **`fromRLP`**, of a header. -/
def headerFromRLP (serializedHeaderData : Bytes) (opts : CreateHeaderOptions) :
    Except BlockError ValidatedHeader := do
  let values ← decodeArray serializedHeaderData
  let values ← orNotArray (values.mapM bytesOf)
  (fromBytesArray values opts).mapError .header

/-! ## Valid blocks -/

/-- **A valid block**: its headers are valid, and the constructor's validation, with its time, lets
its uncles and its withdrawals through. -/
structure FrozenBlock.Valid (keccak256 : Bytes → Bytes32) (m : HardforkManager)
    (validateConsensus : Bool) (block : FrozenBlock) : Prop where
  header : block.header.Valid m validateConsensus
  uncleHeaders : ∀ uncle ∈ block.uncleHeaders, uncle.Valid m validateConsensus
  uncles : zUncleHeadersSchema keccak256 m block.uncleHeaders = .ok ()
  network : checkUncleHeaders m (block.header.number = 0) block.uncleHeaders = .ok ()
  withdrawals : block.withdrawals.isSome = block.header.isEIPActive m 4895

end Block

end TsEthereum
