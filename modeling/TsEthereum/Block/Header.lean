import TsEthereum.Blockchain.Keys
import TsEthereum.ChainConfig.Manager
import TsEthereum.Common.Except
import TsEthereum.State.Account

/-!
# Block headers

The `block` package's header: the schema that `validateBlockHeader` parses it with, the list of
byte strings it is written as and read from, and its hash.

A field of the schema is optional where there is a default. The fields that came with an EIP are
parsed with a default when the EIP is active at the header's number and time, and must not be
there otherwise. A field of a set length may also be empty: the schema lets it through.

A `number` is here a `bigint`, a hex string the bytes it spells. All issues of a header are
reported at once: here the first of them is thrown.
-/

namespace TsEthereum

namespace Block

open TsEthereum.ChainConfig
open TsEthereum.Blockchain (bigIntToBytes ofBigEndian_bigIntToBytes)

/-- What is thrown. -/
inductive HeaderError where
  /-- 'parentHash must be 32 bytes' -/
  | length (field : String)
  /-- 'baseFeePerGas cannot be set before EIP-1559' -/
  | setBefore (field : String) (eip : ℕ)
  /-- 'gasUsed (2) exceeds gasLimit (1)' -/
  | gasUsed (gasUsed gasLimit : ℕ)
  /-- 'Initial EIP-1559 block must have baseFeePerGas of 1000000000, got 7' -/
  | initialBaseFee (initialBaseFee : Option ℕ) (baseFeePerGas : ℕ)
  /-- 'invalid amount of extra data' -/
  | extraData
  /-- 'invalid header. More values than expected were received. Max: 20, got: 22' -/
  | moreValues (length : ℕ)
  /-- 'invalid header. Less values than expected were received. Min: 15, got: 14' -/
  | lessValues (length : ℕ)
  /-- 'invalid header. baseFeePerGas should be provided' -/
  | missing (field : String)
  /-- 'difficulty calculation only supported on PoW chains' -/
  | powOnly
  /-- 'calcNextBaseFee() requires EIP1559 activation' -/
  | requires1559
  /-- 'excessBlobGas field not populated' -/
  | excessBlobGas
  /-- 'gas limit increased too much: 1025 >= 1025' -/
  | gasLimitIncreased (gasLimit maxGasLimit : ℕ)
  /-- 'gas limit decreased too much: 1023 <= 1023' -/
  | gasLimitDecreased (gasLimit minGasLimit : ℕ)
  /-- 'Division by zero' -/
  | divisionByZero
  /-- A `TypeError`, of what is not there. -/
  | typeError
  deriving DecidableEq

/-! ## The schema -/

inductive FlexibleTypeInput where
  | bytes (b : Bytes)
  | bigint (n : ℕ)

/-- `toBytes` of `zFlexibleType`. -/
def FlexibleTypeInput.toBytes : FlexibleTypeInput → Bytes
  | .bytes b => b
  | .bigint n => bigIntToBytes n

inductive AddressInput where
  | address (address : Bytes20)
  | bytes (b : Bytes)

/-- A byte string of a set length, or none. -/
abbrev BytesOrEmpty (length : ℕ) : Type := { b : Bytes // b.length = length ∨ b = [] }

def zBigInt (defaultValue : ℕ) : Option FlexibleTypeInput → ℕ
  | some val => ofBigEndian val.toBytes
  | none => defaultValue

/-- `zBytes`: a length is checked of what is not empty. -/
def zBytes (field : String) (byteLength : ℕ) (defaultValue : BytesOrEmpty byteLength) :
    Option FlexibleTypeInput → Except HeaderError (BytesOrEmpty byteLength)
  | some val =>
    if h : val.toBytes.length = byteLength ∨ val.toBytes = [] then .ok ⟨val.toBytes, h⟩
    else .error (.length field)
  | none => .ok defaultValue

def zBytesVar (defaultValue : Bytes) : Option FlexibleTypeInput → Bytes
  | some val => val.toBytes
  | none => defaultValue

def zAddress (field : String) (defaultValue : Bytes20) :
    Option AddressInput → Except HeaderError Bytes20
  | some (.address address) => .ok address
  | some (.bytes b) => if h : b.length = 20 then .ok ⟨b, h⟩ else .error (.length field)
  | none => .ok defaultValue

/-- A field that is parsed when its EIP is active, and must not be there otherwise. -/
def zActive {α : Type} (active : Bool) (field : String) (eip : ℕ)
    (parse : Option FlexibleTypeInput → Except HeaderError α) (val : Option FlexibleTypeInput) :
    Except HeaderError (Option α) :=
  if active then (parse val).map some
  else if val.isSome then .error (.setBefore field eip)
  else .ok none

/-- As many zeros as are said. -/
def zeros (length : ℕ) : BytesOrEmpty length := ⟨List.replicate length 0, .inl List.length_replicate⟩

def KECCAK256_RLP_ARRAY : BytesOrEmpty 32 :=
  ⟨[0x1d, 0xcc, 0x4d, 0xe8, 0xde, 0xc7, 0x5d, 0x7a, 0xab, 0x85, 0xb5, 0x67, 0xb6, 0xcc, 0xd4, 0x1a, 0xd3,
    0x12, 0x45, 0x1b, 0x94, 0x8a, 0x74, 0x13, 0xf0, 0xa1, 0x42, 0xfd, 0x40, 0xd4, 0x93, 0x47],
    .inl rfl⟩

def SHA256_NULL : BytesOrEmpty 32 :=
  ⟨[0xe3, 0xb0, 0xc4, 0x42, 0x98, 0xfc, 0x1c, 0x14, 0x9a, 0xfb, 0xf4, 0xc8, 0x99, 0x6f, 0xb9, 0x24, 0x27,
    0xae, 0x41, 0xe4, 0x64, 0x9b, 0x93, 0x4c, 0xa4, 0x95, 0x99, 0x1b, 0x78, 0x52, 0xb8, 0x55],
    .inl rfl⟩

/-- `KECCAK256_RLP`, as a field. -/
def emptyTrieRoot : BytesOrEmpty 32 := ⟨KECCAK256_RLP.1, .inl KECCAK256_RLP.2⟩

/-- **`HeaderData`**, that a header is made of: each field may be left out. -/
structure HeaderData where
  parentHash : Option FlexibleTypeInput := none
  uncleHash : Option FlexibleTypeInput := none
  coinbase : Option AddressInput := none
  stateRoot : Option FlexibleTypeInput := none
  transactionsTrie : Option FlexibleTypeInput := none
  receiptTrie : Option FlexibleTypeInput := none
  logsBloom : Option FlexibleTypeInput := none
  difficulty : Option FlexibleTypeInput := none
  number : Option FlexibleTypeInput := none
  gasLimit : Option FlexibleTypeInput := none
  gasUsed : Option FlexibleTypeInput := none
  timestamp : Option FlexibleTypeInput := none
  extraData : Option FlexibleTypeInput := none
  mixHash : Option FlexibleTypeInput := none
  nonce : Option FlexibleTypeInput := none
  baseFeePerGas : Option FlexibleTypeInput := none
  withdrawalsRoot : Option FlexibleTypeInput := none
  blobGasUsed : Option FlexibleTypeInput := none
  excessBlobGas : Option FlexibleTypeInput := none
  parentBeaconBlockRoot : Option FlexibleTypeInput := none
  requestsHash : Option FlexibleTypeInput := none

structure ValidatedCoreHeaderFields where
  parentHash : BytesOrEmpty 32
  uncleHash : BytesOrEmpty 32
  coinbase : Bytes20
  stateRoot : BytesOrEmpty 32
  transactionsTrie : BytesOrEmpty 32
  receiptTrie : BytesOrEmpty 32
  logsBloom : BytesOrEmpty 256
  difficulty : ℕ
  number : ℕ
  gasLimit : ℕ
  gasUsed : ℕ
  timestamp : ℕ
  extraData : Bytes
  mixHash : BytesOrEmpty 32
  nonce : BytesOrEmpty 8
  deriving DecidableEq

structure ValidatedEIPHeaderFields where
  baseFeePerGas : Option ℕ
  withdrawalsRoot : Option (BytesOrEmpty 32)
  blobGasUsed : Option ℕ
  excessBlobGas : Option ℕ
  parentBeaconBlockRoot : Option (BytesOrEmpty 32)
  requestsHash : Option (BytesOrEmpty 32)
  deriving DecidableEq

/-- **`ValidatedHeader`**. -/
structure ValidatedHeader extends ValidatedCoreHeaderFields, ValidatedEIPHeaderFields
  deriving DecidableEq

/-- `coreDefaults`, at a number and a time, with no field of an EIP. -/
def coreDefaults (number timestamp : ℕ) : ValidatedHeader where
  parentHash := zeros 32
  uncleHash := KECCAK256_RLP_ARRAY
  coinbase := repeated 0
  stateRoot := zeros 32
  transactionsTrie := emptyTrieRoot
  receiptTrie := emptyTrieRoot
  logsBloom := zeros 256
  difficulty := 0
  number := number
  gasLimit := 0xffffffffffffff
  gasUsed := 0
  timestamp := timestamp
  extraData := []
  mixHash := zeros 32
  nonce := zeros 8
  baseFeePerGas := none
  withdrawalsRoot := none
  blobGasUsed := none
  excessBlobGas := none
  parentBeaconBlockRoot := none
  requestsHash := none

def zCoreHeaderSchema (header : HeaderData) : Except HeaderError ValidatedCoreHeaderFields := do
  let parentHash ← zBytes "parentHash" 32 (zeros 32) header.parentHash
  let uncleHash ← zBytes "uncleHash" 32 KECCAK256_RLP_ARRAY header.uncleHash
  let coinbase ← zAddress "coinbase" (repeated 0) header.coinbase
  let stateRoot ← zBytes "stateRoot" 32 (zeros 32) header.stateRoot
  let transactionsTrie ← zBytes "transactionsTrie" 32 emptyTrieRoot header.transactionsTrie
  let receiptTrie ← zBytes "receiptTrie" 32 emptyTrieRoot header.receiptTrie
  let logsBloom ← zBytes "logsBloom" 256 (zeros 256) header.logsBloom
  let mixHash ← zBytes "mixHash" 32 (zeros 32) header.mixHash
  let nonce ← zBytes "nonce" 8 (zeros 8) header.nonce
  return {
    parentHash, uncleHash, coinbase, stateRoot, transactionsTrie, receiptTrie, logsBloom
    difficulty := zBigInt 0 header.difficulty
    number := zBigInt 0 header.number
    gasLimit := zBigInt 0xffffffffffffff header.gasLimit
    gasUsed := zBigInt 0 header.gasUsed
    timestamp := zBigInt 0 header.timestamp
    extraData := zBytesVar [] header.extraData
    mixHash, nonce }

/-- `opts.header.number === common.hardforkBlock(Hardfork.London)`: of numbers, not of bytes. -/
def isLondonBlock (m : HardforkManager) (number : Option FlexibleTypeInput) : Bool :=
  match number, m.hardforkBlock .london with
  | some (.bigint n), some block => n = block
  | _, _ => false

/-- The fields that came with EIPs. -/
def zEIPFieldsSchema (m : HardforkManager) (header : HeaderData) (blockNumber : ℕ)
    (timestamp : Option ℕ) : Except HeaderError ValidatedEIPHeaderFields := do
  let active (eip : ℕ) : Bool := m.isEIPActiveAtBlock eip blockNumber timestamp
  let defaultBaseFee : ℕ :=
    if isLondonBlock m header.number then (m.getParamAtHardfork .initialBaseFee .london).getD 0
    else 7
  let baseFeePerGas ← zActive (active 1559) "baseFeePerGas" 1559
    (fun val => .ok (zBigInt defaultBaseFee val)) header.baseFeePerGas
  let withdrawalsRoot ← zActive (active 4895) "withdrawalsRoot" 4895
    (zBytes "withdrawalsRoot" 32 emptyTrieRoot) header.withdrawalsRoot
  let blobGasUsed ← zActive (active 4844) "blobGasUsed" 4844
    (fun val => .ok (zBigInt 0 val)) header.blobGasUsed
  let excessBlobGas ← zActive (active 4844) "excessBlobGas" 4844
    (fun val => .ok (zBigInt 0 val)) header.excessBlobGas
  let parentBeaconBlockRoot ← zActive (active 4788) "parentBeaconBlockRoot" 4788
    (zBytes "parentBeaconBlockRoot" 32 (zeros 32)) header.parentBeaconBlockRoot
  let requestsHash ← zActive (active 7685) "requestsHash" 7685
    (zBytes "requestsHash" 32 SHA256_NULL) header.requestsHash
  return {
    baseFeePerGas, withdrawalsRoot, blobGasUsed, excessBlobGas, parentBeaconBlockRoot
    requestsHash }

/-- `superRefine`: the gas that is used is within the limit. -/
def checkGasUsed (data : ValidatedHeader) : Except HeaderError Unit :=
  if data.gasUsed > data.gasLimit then .error (.gasUsed data.gasUsed data.gasLimit) else .ok ()

/-- `superRefine`: the first London block has the initial base fee. A field of an EIP that is
active has been parsed, so what is said of one that is not there never is. -/
def checkInitialBaseFee (m : HardforkManager) (data : ValidatedHeader) (active : Bool) :
    Except HeaderError Unit :=
  match active, data.baseFeePerGas, m.hardforkBlock .london with
  | true, some baseFeePerGas, some londonBlock =>
    if londonBlock ≠ 0 ∧ data.number = londonBlock ∧
        some baseFeePerGas ≠ m.getParamAtHardfork .initialBaseFee .london then
      .error (.initialBaseFee (m.getParamAtHardfork .initialBaseFee .london) baseFeePerGas)
    else .ok ()
  | _, _, _ => .ok ()

/-- The consensus format: what is looked up is the hardfork of the number alone. -/
def checkExtraData (m : HardforkManager) (data : ValidatedHeader) (blockNumber : ℕ)
    (validateConsensus : Bool) : Except HeaderError Unit :=
  let maxExtraDataSize :=
    (m.getParamAtHardfork .maxExtraDataSize (m.getHardforkByBlock (some blockNumber) none)).getD 32
  if validateConsensus ∧ m.consensusAlgorithm = .ethash ∧ 0 < data.number ∧
      maxExtraDataSize < data.extraData.length then
    .error .extraData
  else .ok ()

/-- **`validateBlockHeader`**. -/
def validateBlockHeader (m : HardforkManager) (header : HeaderData) (validateConsensus : Bool) :
    Except HeaderError ValidatedHeader := do
  let blockNumber := zBigInt 0 header.number
  let timestamp := header.timestamp.map fun timestamp => zBigInt 0 (some timestamp)
  let core ← zCoreHeaderSchema header
  let eipFields ← zEIPFieldsSchema m header blockNumber timestamp
  let data : ValidatedHeader := { core, eipFields with }
  checkGasUsed data
  checkInitialBaseFee m data (m.isEIPActiveAtBlock 1559 blockNumber timestamp)
  checkExtraData m data blockNumber validateConsensus
  return data

/-! ## A header's hardfork -/

namespace ValidatedHeader

variable (m : HardforkManager) (data : ValidatedHeader)

def getHardfork : Hardfork := m.getHardforkByBlock (some data.number) (some data.timestamp)

def isEIPActive (eip : ℕ) : Bool := m.isEIPActiveAtBlock eip data.number (some data.timestamp)

end ValidatedHeader

structure ParentHeaderData where
  timestamp : ℕ
  difficulty : ℕ
  uncleHash : BytesOrEmpty 32

/-- **`ethashCanonicalDifficulty`**: `bigint`s that may be negative are integers, and their
quotients go to zero. -/
def ethashCanonicalDifficulty (m : HardforkManager) (data : ValidatedHeader)
    (parentBlockHeader : Option ParentHeaderData) : Except HeaderError ℕ :=
  match parentBlockHeader with
  | none => .ok data.difficulty
  | some parent =>
    if m.consensusAlgorithm ≠ .ethash then .ok data.difficulty
    else if m.consensusType ≠ .proofOfWork then .error .powOnly
    else
      let hardfork := data.getHardfork m
      let params := m.getParamsAtHardfork hardfork
      let minimumDifficulty : ℤ := (params .minimumDifficulty).getD 0
      let difficultyBoundDivisor : ℤ := (params .difficultyBoundDivisor).getD 0
      if difficultyBoundDivisor = 0 then .error .divisionByZero
      else
        let offset : ℤ := (parent.difficulty : ℤ) / difficultyBoundDivisor
        let elapsed : ℤ := (data.timestamp : ℤ) - parent.timestamp
        let num : ℤ :=
          if m.hardforkGte hardfork .byzantium then
            max ((data.number : ℤ) - ((params .difficultyBombDelay).getD 0 : ℕ)) 0
          else data.number
        let dif : ℤ :=
          if m.hardforkGte hardfork .byzantium then
            let uncleAddend : ℤ := if parent.uncleHash = KECCAK256_RLP_ARRAY then 1 else 2
            parent.difficulty + offset * max (uncleAddend - elapsed.tdiv 9) (-99)
          else if m.hardforkGte hardfork .homestead then
            parent.difficulty + offset * max (1 - elapsed.tdiv 10) (-99)
          else if data.timestamp < parent.timestamp + (params .durationLimit).getD 13 then
            offset + parent.difficulty
          else parent.difficulty - offset
        let exp : ℤ := num / 100000 - 2
        let dif : ℤ := if 0 ≤ exp then dif + 2 ^ exp.toNat else dif
        .ok (max dif minimumDifficulty).toNat

/-! ## The list of values -/

/-- The value of a field that is there. -/
def pushed (active : Bool) (val : Option Bytes) : List Bytes :=
  if active then val.toList else []

/-- The fields that came with EIPs, those that are active. -/
def ValidatedHeader.rawEIPFields (m : HardforkManager) (data : ValidatedHeader) : List Bytes :=
  pushed (data.isEIPActive m 1559) (data.baseFeePerGas.map bigEndian) ++
    pushed (data.isEIPActive m 4895) (data.withdrawalsRoot.map Subtype.val) ++
    (pushed (data.isEIPActive m 4844) (data.blobGasUsed.map bigEndian) ++
      pushed (data.isEIPActive m 4844) (data.excessBlobGas.map bigEndian)) ++
    pushed (data.isEIPActive m 4788) (data.parentBeaconBlockRoot.map Subtype.val) ++
    pushed (data.isEIPActive m 7685) (data.requestsHash.map Subtype.val)

/-- The first fifteen fields. -/
def ValidatedCoreHeaderFields.raw (data : ValidatedCoreHeaderFields) : List Bytes :=
  [data.parentHash.1, data.uncleHash.1, data.coinbase.1, data.stateRoot.1,
    data.transactionsTrie.1, data.receiptTrie.1, data.logsBloom.1, bigEndian data.difficulty,
    bigEndian data.number, bigEndian data.gasLimit, bigEndian data.gasUsed,
    bigEndian data.timestamp, data.extraData, data.mixHash.1, data.nonce.1]

/-- **`toRaw`**. -/
def ValidatedHeader.toRaw (m : HardforkManager) (data : ValidatedHeader) : List Bytes :=
  data.toValidatedCoreHeaderFields.raw ++ data.rawEIPFields m

def ValidatedHeader.serialize (m : HardforkManager) (data : ValidatedHeader) : Bytes :=
  Rlp.encode (.list ((data.toRaw m).map .bytes))

/-- **`computeHash`**. -/
def ValidatedHeader.computeHash (keccak256 : Bytes → Bytes32) (m : HardforkManager)
    (data : ValidatedHeader) : Bytes32 :=
  keccak256 (data.serialize m)

/-- The fields that values are: what is beyond the end is not there. -/
def headerDataOf (values : List Bytes) : HeaderData :=
  let value (i : ℕ) : Option FlexibleTypeInput := values[i]?.map .bytes
  { parentHash := value 0
    uncleHash := value 1
    coinbase := values[2]?.map .bytes
    stateRoot := value 3
    transactionsTrie := value 4
    receiptTrie := value 5
    logsBloom := value 6
    difficulty := value 7
    number := value 8
    gasLimit := value 9
    gasUsed := value 10
    timestamp := value 11
    extraData := value 12
    mixHash := value 13
    nonce := value 14
    baseFeePerGas := value 15
    withdrawalsRoot := value 16
    blobGasUsed := value 17
    excessBlobGas := value 18
    parentBeaconBlockRoot := value 19
    requestsHash := value 20 }

/-- **`valuesArrayToHeaderData`**. -/
def valuesArrayToHeaderData (values : List Bytes) : Except HeaderError HeaderData :=
  if 21 < values.length then .error (.moreValues values.length)
  else if values.length < 15 then .error (.lessValues values.length)
  else .ok (headerDataOf values)

/-! ## Creating a header -/

structure CreateHeaderOptions where
  hardforkManager : HardforkManager
  calcDifficultyFromHeader : Option ParentHeaderData
  skipConsensusFormatValidation : Bool

/-- **`fromHeaderData`**. -/
def fromHeaderData (headerData : HeaderData) (opts : CreateHeaderOptions) :
    Except HeaderError ValidatedHeader := do
  let data ← validateBlockHeader opts.hardforkManager headerData (!opts.skipConsensusFormatValidation)
  let difficulty ← ethashCanonicalDifficulty opts.hardforkManager data opts.calcDifficultyFromHeader
  return { data with difficulty }

/-- The base fee that may be left out: not in the block the hardfork is at, and not when it is at
none, when `bigIntToBytes` is called of `null`. -/
def checkBaseFeeProvided (m : HardforkManager) (header : ValidatedHeader) (headerData : HeaderData) :
    Except HeaderError Unit :=
  if header.isEIPActive m 1559 ∧ headerData.baseFeePerGas.isNone then
    match m.hardforkBlock .london with
    | none => .error .typeError
    | some londonBlock =>
      if headerData.number.map FlexibleTypeInput.toBytes = some (bigIntToBytes londonBlock) then
        .error (.missing "baseFeePerGas")
      else .ok ()
  else .ok ()

/-- A field that must be there when its EIP is active. -/
def checkProvided (active : Bool) (field : String) (val : Option FlexibleTypeInput) :
    Except HeaderError Unit :=
  if active ∧ val.isNone then .error (.missing field) else .ok ()

/-- **`fromBytesArray`**. -/
def fromBytesArray (values : List Bytes) (opts : CreateHeaderOptions) :
    Except HeaderError ValidatedHeader := do
  let m := opts.hardforkManager
  let headerData ← valuesArrayToHeaderData values
  let header ← fromHeaderData headerData opts
  checkBaseFeeProvided m header headerData
  checkProvided (header.isEIPActive m 4844) "excessBlobGas" headerData.excessBlobGas
  checkProvided (header.isEIPActive m 4844) "blobGasUsed" headerData.blobGasUsed
  checkProvided (header.isEIPActive m 4788) "parentBeaconBlockRoot" headerData.parentBeaconBlockRoot
  checkProvided (header.isEIPActive m 7685) "requestsHash" headerData.requestsHash
  return header

/-! ## Valid headers -/

/-- **A valid header**: the fields of EIPs are there when they are active, and the checks pass. -/
structure ValidatedHeader.Valid (m : HardforkManager) (validateConsensus : Bool)
    (data : ValidatedHeader) : Prop where
  baseFeePerGas : data.baseFeePerGas.isSome = data.isEIPActive m 1559
  withdrawalsRoot : data.withdrawalsRoot.isSome = data.isEIPActive m 4895
  blobGasUsed : data.blobGasUsed.isSome = data.isEIPActive m 4844
  excessBlobGas : data.excessBlobGas.isSome = data.isEIPActive m 4844
  parentBeaconBlockRoot : data.parentBeaconBlockRoot.isSome = data.isEIPActive m 4788
  requestsHash : data.requestsHash.isSome = data.isEIPActive m 7685
  gasUsed : checkGasUsed data = .ok ()
  initialBaseFee : checkInitialBaseFee m data (data.isEIPActive m 1559) = .ok ()
  extraData : checkExtraData m data data.number validateConsensus = .ok ()

end Block

end TsEthereum
