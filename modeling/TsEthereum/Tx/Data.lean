import TsEthereum.Rlp.Model
import TsEthereum.State.Account

/-!
# Transactions

The five classes of transaction data of the `tx` package, each with its list of
RLP values, `raw`, and the list that is signed; on them `serialize`, `hash` and
`sigHash`. A `bigint` is a natural number: none of these is negative.

`data`, the access list and the authorization list are kept as the RLP values
they are in the source when they have been decoded, which does not look at them.
A hex string is the bytes it spells. The sidecar of a blob transaction, that
nothing here reads, is left out.
-/

namespace TsEthereum

namespace Tx

inductive TransactionType where
  | legacy
  | accessListEIP2930
  | feeMarketEIP1559
  | blobEIP4844
  | eoaCodeEIP7702
  deriving DecidableEq

/-- The first byte of a typed transaction. -/
def TransactionType.byte : TransactionType → UInt8
  | .legacy => 0
  | .accessListEIP2930 => 1
  | .feeMarketEIP1559 => 2
  | .blobEIP4844 => 3
  | .eoaCodeEIP7702 => 4

/-- What is thrown. -/
inductive TxError where
  /-- What `RLP.decode` throws. -/
  | rlp (error : Rlp.DecodeError)
  /-- 'Invalid serialized tx input. Must be array' -/
  | notArray
  /-- 'Invalid transaction. Only expecting 6 values (for unsigned tx) or 9 values
  (for signed tx).' -/
  | valuesLength
  /-- 'nonce cannot have leading zeroes' -/
  | leadingZeroes (field : String)
  /-- What `bytesToHex` throws of what is not a byte string. -/
  | notBytes
  /-- 'Invalid address, too long: 21' -/
  | addressTooLong (length : ℕ)
  /-- 'EIP-4844 blob transactions require a "to" address' -/
  | blobTo
  /-- 'EIP-7702 set code transactions require a "to" address' -/
  | setCodeTo
  /-- 'TypedTransaction with ID 5 unknown' -/
  | unknownType (type : UInt8)
  /-- 'toBytes: received unsupported type object' -/
  | unsupportedType
  /-- 'Cannot hash unsigned transaction' -/
  | hashUnsigned
  deriving DecidableEq

structure LegacyTxData where
  nonce : ℕ
  gasPrice : ℕ
  gasLimit : ℕ
  to_ : Option Bytes20
  value : ℕ
  data : NestedUint8Array
  v : Option ℕ
  r : Option ℕ
  s : Option ℕ
  deriving DecidableEq

structure AccessListTxData where
  chainId : ℕ
  nonce : ℕ
  gasPrice : ℕ
  gasLimit : ℕ
  to_ : Option Bytes20
  value : ℕ
  data : NestedUint8Array
  accessList : NestedUint8Array
  v : Option ℕ
  r : Option ℕ
  s : Option ℕ
  deriving DecidableEq

structure DynamicFeeTxData where
  chainId : ℕ
  nonce : ℕ
  maxPriorityFeePerGas : ℕ
  maxFeePerGas : ℕ
  gasLimit : ℕ
  to_ : Option Bytes20
  value : ℕ
  data : NestedUint8Array
  accessList : NestedUint8Array
  v : Option ℕ
  r : Option ℕ
  s : Option ℕ
  deriving DecidableEq

/-- `blobVersionedHashes`. Decoding makes an empty byte string of one, which has no
hashes either and is encoded as one. -/
inductive BlobVersionedHashes where
  | emptyBytes
  | list (hashes : List Bytes)
  deriving DecidableEq

structure BlobTxData where
  chainId : ℕ
  nonce : ℕ
  maxPriorityFeePerGas : ℕ
  maxFeePerGas : ℕ
  gasLimit : ℕ
  to_ : Bytes20
  value : ℕ
  data : NestedUint8Array
  accessList : NestedUint8Array
  maxFeePerBlobGas : ℕ
  blobVersionedHashes : BlobVersionedHashes
  v : Option ℕ
  r : Option ℕ
  s : Option ℕ
  deriving DecidableEq

/-- `authorizationList`, in either of the formats `createSetCodeTxManager` takes: byte
strings, or as many objects as are said and one more. -/
inductive AuthorizationList where
  | bytes (list : NestedUint8Array)
  | json (more : ℕ)
  deriving DecidableEq

structure SetCodeTxData where
  chainId : ℕ
  nonce : ℕ
  maxPriorityFeePerGas : ℕ
  maxFeePerGas : ℕ
  gasLimit : ℕ
  to_ : Bytes20
  value : ℕ
  data : NestedUint8Array
  accessList : NestedUint8Array
  authorizationList : AuthorizationList
  v : Option ℕ
  r : Option ℕ
  s : Option ℕ
  deriving DecidableEq

/-- **A transaction's data.** -/
inductive TxData where
  | legacy (tx : LegacyTxData)
  | accessList (tx : AccessListTxData)
  | dynamicFee (tx : DynamicFeeTxData)
  | blob (tx : BlobTxData)
  | setCode (tx : SetCodeTxData)
  deriving DecidableEq

/-! ## RLP values -/

def bigIntToUnpaddedBytes (n : ℕ) : NestedUint8Array := .bytes (bigEndian n)

/-- `to?.bytes ?? new Uint8Array(0)`. -/
def toBytes : Option Bytes20 → NestedUint8Array
  | some address => .bytes address.1
  | none => .bytes []

/-- A signature value, or the empty string. -/
def signatureBytes : Option ℕ → NestedUint8Array
  | some n => bigIntToUnpaddedBytes n
  | none => .bytes []

/-- `hashes.map(hexToBytes)`. -/
def BlobVersionedHashes.toValue : BlobVersionedHashes → NestedUint8Array
  | .emptyBytes => .bytes []
  | .list hashes => .list (hashes.map .bytes)

/-- What `RLP.encode` makes a list of: it throws on objects. -/
def AuthorizationList.toValue : AuthorizationList → Except TxError NestedUint8Array
  | .bytes list => .ok list
  | .json _ => .error .unsupportedType

namespace LegacyTxData

variable (tx : LegacyTxData)

/-- The first six values. -/
def fields : List NestedUint8Array :=
  [bigIntToUnpaddedBytes tx.nonce, bigIntToUnpaddedBytes tx.gasPrice,
    bigIntToUnpaddedBytes tx.gasLimit, toBytes tx.to_, bigIntToUnpaddedBytes tx.value, tx.data]

def getMessageToSign (chainId : ℕ) (supportsEIP155 : Bool) : List NestedUint8Array :=
  if supportsEIP155 then tx.fields ++ [bigIntToUnpaddedBytes chainId, .bytes [], .bytes []]
  else tx.fields

def raw : List NestedUint8Array :=
  tx.fields ++ [signatureBytes tx.v, signatureBytes tx.r, signatureBytes tx.s]

def chainID : ℕ :=
  match tx.v with
  | none => 0
  | some v => if v ≥ 37 then (v - 35) / 2 else 0

end LegacyTxData

namespace AccessListTxData

variable (tx : AccessListTxData)

def getMessageToSign : List NestedUint8Array :=
  [bigIntToUnpaddedBytes tx.chainId, bigIntToUnpaddedBytes tx.nonce,
    bigIntToUnpaddedBytes tx.gasPrice, bigIntToUnpaddedBytes tx.gasLimit, toBytes tx.to_,
    bigIntToUnpaddedBytes tx.value, tx.data, tx.accessList]

def raw : List NestedUint8Array :=
  tx.getMessageToSign ++ [signatureBytes tx.v, signatureBytes tx.r, signatureBytes tx.s]

end AccessListTxData

namespace DynamicFeeTxData

variable (tx : DynamicFeeTxData)

def getMessageToSign : List NestedUint8Array :=
  [bigIntToUnpaddedBytes tx.chainId, bigIntToUnpaddedBytes tx.nonce,
    bigIntToUnpaddedBytes tx.maxPriorityFeePerGas, bigIntToUnpaddedBytes tx.maxFeePerGas,
    bigIntToUnpaddedBytes tx.gasLimit, toBytes tx.to_, bigIntToUnpaddedBytes tx.value, tx.data,
    tx.accessList]

def raw : List NestedUint8Array :=
  tx.getMessageToSign ++ [signatureBytes tx.v, signatureBytes tx.r, signatureBytes tx.s]

end DynamicFeeTxData

namespace BlobTxData

variable (tx : BlobTxData)

def getMessageToSign : List NestedUint8Array :=
  [bigIntToUnpaddedBytes tx.chainId, bigIntToUnpaddedBytes tx.nonce,
    bigIntToUnpaddedBytes tx.maxPriorityFeePerGas, bigIntToUnpaddedBytes tx.maxFeePerGas,
    bigIntToUnpaddedBytes tx.gasLimit, .bytes tx.to_.1, bigIntToUnpaddedBytes tx.value, tx.data,
    tx.accessList, bigIntToUnpaddedBytes tx.maxFeePerBlobGas, tx.blobVersionedHashes.toValue]

def raw : List NestedUint8Array :=
  tx.getMessageToSign ++ [signatureBytes tx.v, signatureBytes tx.r, signatureBytes tx.s]

end BlobTxData

namespace SetCodeTxData

variable (tx : SetCodeTxData)

/-- `getMessageToSign`, or what `RLP.encode` throws of it. -/
def getMessageToSign : Except TxError (List NestedUint8Array) :=
  tx.authorizationList.toValue >>= fun authorizationList =>
    .ok [bigIntToUnpaddedBytes tx.chainId, bigIntToUnpaddedBytes tx.nonce,
      bigIntToUnpaddedBytes tx.maxPriorityFeePerGas, bigIntToUnpaddedBytes tx.maxFeePerGas,
      bigIntToUnpaddedBytes tx.gasLimit, .bytes tx.to_.1, bigIntToUnpaddedBytes tx.value, tx.data,
      tx.accessList, authorizationList]

/-- `raw`, or what `RLP.encode` throws of it. -/
def raw : Except TxError (List NestedUint8Array) :=
  tx.getMessageToSign >>= fun message =>
    .ok (message ++ [signatureBytes tx.v, signatureBytes tx.r, signatureBytes tx.s])

end SetCodeTxData

namespace TxData

variable (tx : TxData) (keccak256 : Bytes → Bytes32)

def type : TransactionType :=
  match tx with
  | .legacy _ => .legacy
  | .accessList _ => .accessListEIP2930
  | .dynamicFee _ => .feeMarketEIP1559
  | .blob _ => .blobEIP4844
  | .setCode _ => .eoaCodeEIP7702

def raw : Except TxError (List NestedUint8Array) :=
  match tx with
  | .legacy tx => .ok tx.raw
  | .accessList tx => .ok tx.raw
  | .dynamicFee tx => .ok tx.raw
  | .blob tx => .ok tx.raw
  | .setCode tx => tx.raw

def rawSignatureValues : Option ℕ × Option ℕ × Option ℕ :=
  match tx with
  | .legacy tx => (tx.v, tx.r, tx.s)
  | .accessList tx => (tx.v, tx.r, tx.s)
  | .dynamicFee tx => (tx.v, tx.r, tx.s)
  | .blob tx => (tx.v, tx.r, tx.s)
  | .setCode tx => (tx.v, tx.r, tx.s)

def setSignatureValues (v r s : ℕ) : TxData :=
  match tx with
  | .legacy tx => .legacy { tx with v := some v, r := some r, s := some s }
  | .accessList tx => .accessList { tx with v := some v, r := some r, s := some s }
  | .dynamicFee tx => .dynamicFee { tx with v := some v, r := some r, s := some s }
  | .blob tx => .blob { tx with v := some v, r := some r, s := some s }
  | .setCode tx => .setCode { tx with v := some v, r := some r, s := some s }

def chainID : ℕ :=
  match tx with
  | .legacy tx => tx.chainID
  | .accessList tx => tx.chainId
  | .dynamicFee tx => tx.chainId
  | .blob tx => tx.chainId
  | .setCode tx => tx.chainId

/-- The list that is signed: legacy transactions sign the chain ID they are given,
where it is not 0. -/
def message (chainId : ℕ) : Except TxError (List NestedUint8Array) :=
  match tx with
  | .legacy tx => .ok (tx.getMessageToSign chainId (chainId > 0))
  | .accessList tx => .ok tx.getMessageToSign
  | .dynamicFee tx => .ok tx.getMessageToSign
  | .blob tx => .ok tx.getMessageToSign
  | .setCode tx => tx.getMessageToSign

/-- The type byte goes before the encoding, but for legacy transactions. -/
def envelope (values : List NestedUint8Array) : Bytes :=
  match tx.type with
  | .legacy => Rlp.encode (.list values)
  | type => type.byte :: Rlp.encode (.list values)

/-- **`sigHash`.** -/
def sigHash (chainId : ℕ) : Except TxError Bytes32 :=
  tx.message chainId >>= fun message => .ok (keccak256 (tx.envelope message))

/-- **`serialize`.** -/
def serialize : Except TxError Bytes := tx.raw >>= fun values => .ok (tx.envelope values)

def isSigned : Bool :=
  match tx.rawSignatureValues with
  | (some _, some _, some _) => true
  | _ => false

/-- **`hash`.** -/
def hash : Except TxError Bytes32 :=
  if tx.isSigned = false then .error .hashUnsigned
  else tx.serialize >>= fun serialized => .ok (keccak256 serialized)

def isProtected : Bool :=
  match tx with
  | .legacy tx => tx.v.any fun v => v ≠ 27 ∧ v ≠ 28 ∧ v ≠ 1 ∧ v ≠ 0
  | _ => true

end TxData

end Tx

end TsEthereum
