import TsEthereum.Tx.Data

/-!
# Decoding transactions

The `FromRLP` creators of `tx-functional.ts/factory.ts` and
`createTxManagerFromRLP`, which chooses one by the first byte. A creator takes a
decoded list apart by position: what is missing is `undefined`, and what is too
much is not looked at. An item may be a list where a byte string is expected;
`length` is then the number of its items, and `bytesToBigInt` throws.
-/

namespace TsEthereum

namespace Tx

/-- `length`, of an item. -/
def itemLength : NestedUint8Array → ℕ
  | .bytes b => b.length
  | .list xs => xs.length

/-- `item && item.length > 0`. -/
def present (item : Option NestedUint8Array) : Bool := item.any fun value => itemLength value > 0

/-- An item has a leading zero: `length > 0 && item[0] === 0`. -/
def hasLeadingZero : Option NestedUint8Array → Bool
  | some (.bytes b) => b.head? = some 0
  | _ => false

/-- **`validateNoLeadingZeroes`.** -/
def validateNoLeadingZeroes (values : List (String × Option NestedUint8Array)) :
    Except TxError Unit :=
  match values.find? fun value => hasLeadingZero value.2 with
  | some value => .error (.leadingZeroes value.1)
  | none => .ok ()

/-- **`bytesToBigInt`**, which throws of what is not a byte string. -/
def bytesToBigInt : NestedUint8Array → Except TxError ℕ
  | .bytes b => .ok (ofBigEndian b)
  | .list _ => .error .notBytes

/-- `bytesToBigInt(item ?? new Uint8Array(0))`. -/
def toBigInt (item : Option NestedUint8Array) : Except TxError ℕ :=
  bytesToBigInt (item.getD (.bytes []))

/-- `setLengthLeft(bytes, 20)`, of no more bytes. -/
def setLengthLeft20 (b : Bytes) (h : b.length ≤ 20) : Bytes20 :=
  ⟨List.replicate (20 - b.length) 0 ++ b, by rw [List.length_append, List.length_replicate]; omega⟩

/-- **`bytesToAddress`.** -/
def bytesToAddress (item : NestedUint8Array) : Except TxError Bytes20 :=
  match item with
  | .bytes b =>
    if h : b.length ≤ 20 then .ok (setLengthLeft20 b h) else .error (.addressTooLong b.length)
  | .list xs => if xs.length > 20 then .error (.addressTooLong xs.length) else .error .notBytes

/-- `to && to.length > 0 ? bytesToAddress(to) : undefined`. -/
def optionalTo (to_ : Option NestedUint8Array) : Except TxError (Option Bytes20) :=
  match to_ with
  | none => .ok none
  | some item => if itemLength item > 0 then (bytesToAddress item).map some else .ok none

/-- `item && item.length > 0 ? bytesToBigInt(item) : undefined`. -/
def optionalBigInt (item : Option NestedUint8Array) : Except TxError (Option ℕ) :=
  match item with
  | none => .ok none
  | some item => if itemLength item > 0 then (bytesToBigInt item).map some else .ok none

def hasSig (r s : Option NestedUint8Array) : Bool := present r && present s

/-- `hasSig ? bytesToBigInt(item) : undefined`. -/
def signatureBigInt (hasSig : Bool) (item : Option NestedUint8Array) : Except TxError (Option ℕ) :=
  if hasSig then (toBigInt item).map some else .ok none

/-- A hash as a hex string: `bytesToHex`. -/
def itemBytes : NestedUint8Array → Except TxError Bytes
  | .bytes b => .ok b
  | .list _ => .error .notBytes

/-- `(blobVersionedHashes ?? []).map(bytesToHex)`: also a byte string has a `map`, of
its bytes, which `bytesToHex` throws of. -/
def toBlobVersionedHashes (item : Option NestedUint8Array) : Except TxError BlobVersionedHashes :=
  match item with
  | none => .ok (.list [])
  | some (.bytes b) => if b = [] then .ok .emptyBytes else .error .notBytes
  | some (.list items) =>
    (items.mapM itemBytes).map .list

/-- **`createLegacyTxManagerFromBytesArray`.** -/
def createLegacyTxManagerFromBytesArray (values : List NestedUint8Array) : Except TxError TxData :=
  if values.length ≠ 6 ∧ values.length ≠ 9 then .error .valuesLength
  else do
    let nonce := values[0]?
    let gasPrice := values[1]?
    let gasLimit := values[2]?
    let to_ := values[3]?
    let value := values[4]?
    let data := values[5]?
    let v := values[6]?
    let r := values[7]?
    let s := values[8]?
    validateNoLeadingZeroes [("nonce", nonce), ("gasPrice", gasPrice), ("gasLimit", gasLimit),
      ("value", value), ("v", v), ("r", r), ("s", s)]
    return .legacy
      { nonce := ← toBigInt nonce
        gasPrice := ← toBigInt gasPrice
        gasLimit := ← toBigInt gasLimit
        to_ := ← optionalTo to_
        value := ← toBigInt value
        data := data.getD (.bytes [])
        v := ← optionalBigInt v
        r := ← optionalBigInt r
        s := ← optionalBigInt s }

/-- `RLP.decode`, and the items of the list it has to be. -/
def decodeValues (serialized : Bytes) : Except TxError (List NestedUint8Array) :=
  match Rlp.decode serialized false with
  | .error e => .error (.rlp e)
  | .ok (.data (.list values)) => .ok values
  | .ok _ => .error .notArray

/-- **`createLegacyTxManagerFromRLP`.** -/
def createLegacyTxManagerFromRLP (serialized : Bytes) : Except TxError TxData :=
  decodeValues serialized >>= createLegacyTxManagerFromBytesArray

/-- `createAccessListTxManagerFromRLP`, of the decoded values. -/
def accessListFromValues (values : List NestedUint8Array) : Except TxError TxData := do
  let chainId := values[0]?
  let nonce := values[1]?
  let gasPrice := values[2]?
  let gasLimit := values[3]?
  let to_ := values[4]?
  let value := values[5]?
  let data := values[6]?
  let accessList := values[7]?
  let v := values[8]?
  let r := values[9]?
  let s := values[10]?
  validateNoLeadingZeroes [("chainId", chainId), ("nonce", nonce), ("gasPrice", gasPrice),
    ("gasLimit", gasLimit), ("value", value), ("v", v), ("r", r), ("s", s)]
  return .accessList
    { chainId := ← toBigInt chainId
      nonce := ← toBigInt nonce
      gasPrice := ← toBigInt gasPrice
      gasLimit := ← toBigInt gasLimit
      to_ := ← optionalTo to_
      value := ← toBigInt value
      data := data.getD (.bytes [])
      accessList := accessList.getD (.list [])
      v := ← signatureBigInt (hasSig r s) v
      r := ← signatureBigInt (hasSig r s) r
      s := ← signatureBigInt (hasSig r s) s }

/-- `createDynamicFeeTxManagerFromRLP`, of the decoded values. -/
def dynamicFeeFromValues (values : List NestedUint8Array) : Except TxError TxData := do
  let chainId := values[0]?
  let nonce := values[1]?
  let maxPriorityFeePerGas := values[2]?
  let maxFeePerGas := values[3]?
  let gasLimit := values[4]?
  let to_ := values[5]?
  let value := values[6]?
  let data := values[7]?
  let accessList := values[8]?
  let v := values[9]?
  let r := values[10]?
  let s := values[11]?
  validateNoLeadingZeroes [("chainId", chainId), ("nonce", nonce),
    ("maxPriorityFeePerGas", maxPriorityFeePerGas), ("maxFeePerGas", maxFeePerGas),
    ("gasLimit", gasLimit), ("value", value), ("v", v), ("r", r), ("s", s)]
  return .dynamicFee
    { chainId := ← toBigInt chainId
      nonce := ← toBigInt nonce
      maxPriorityFeePerGas := ← toBigInt maxPriorityFeePerGas
      maxFeePerGas := ← toBigInt maxFeePerGas
      gasLimit := ← toBigInt gasLimit
      to_ := ← optionalTo to_
      value := ← toBigInt value
      data := data.getD (.bytes [])
      accessList := accessList.getD (.list [])
      v := ← signatureBigInt (hasSig r s) v
      r := ← signatureBigInt (hasSig r s) r
      s := ← signatureBigInt (hasSig r s) s }

/-- `createBlobTxManagerFromRLP`, of the decoded values. -/
def blobFromValues (values : List NestedUint8Array) : Except TxError TxData := do
  let chainId := values[0]?
  let nonce := values[1]?
  let maxPriorityFeePerGas := values[2]?
  let maxFeePerGas := values[3]?
  let gasLimit := values[4]?
  let to_ := values[5]?
  let value := values[6]?
  let data := values[7]?
  let accessList := values[8]?
  let maxFeePerBlobGas := values[9]?
  let blobVersionedHashes := values[10]?
  let v := values[11]?
  let r := values[12]?
  let s := values[13]?
  validateNoLeadingZeroes [("chainId", chainId), ("nonce", nonce),
    ("maxPriorityFeePerGas", maxPriorityFeePerGas), ("maxFeePerGas", maxFeePerGas),
    ("gasLimit", gasLimit), ("value", value), ("maxFeePerBlobGas", maxFeePerBlobGas), ("v", v),
    ("r", r), ("s", s)]
  if present to_ = false then throw .blobTo
  return .blob
    { chainId := ← toBigInt chainId
      nonce := ← toBigInt nonce
      maxPriorityFeePerGas := ← toBigInt maxPriorityFeePerGas
      maxFeePerGas := ← toBigInt maxFeePerGas
      gasLimit := ← toBigInt gasLimit
      to_ := ← bytesToAddress (to_.getD (.bytes []))
      value := ← toBigInt value
      data := data.getD (.bytes [])
      accessList := accessList.getD (.list [])
      maxFeePerBlobGas := ← toBigInt maxFeePerBlobGas
      blobVersionedHashes := ← toBlobVersionedHashes blobVersionedHashes
      v := ← signatureBigInt (hasSig r s) v
      r := ← signatureBigInt (hasSig r s) r
      s := ← signatureBigInt (hasSig r s) s }

/-- `createSetCodeTxManagerFromRLP`, of the decoded values. -/
def setCodeFromValues (values : List NestedUint8Array) : Except TxError TxData := do
  let chainId := values[0]?
  let nonce := values[1]?
  let maxPriorityFeePerGas := values[2]?
  let maxFeePerGas := values[3]?
  let gasLimit := values[4]?
  let to_ := values[5]?
  let value := values[6]?
  let data := values[7]?
  let accessList := values[8]?
  let authorizationList := values[9]?
  let v := values[10]?
  let r := values[11]?
  let s := values[12]?
  validateNoLeadingZeroes [("chainId", chainId), ("nonce", nonce),
    ("maxPriorityFeePerGas", maxPriorityFeePerGas), ("maxFeePerGas", maxFeePerGas),
    ("gasLimit", gasLimit), ("value", value), ("v", v), ("r", r), ("s", s)]
  if present to_ = false then throw .setCodeTo
  return .setCode
    { chainId := ← toBigInt chainId
      nonce := ← toBigInt nonce
      maxPriorityFeePerGas := ← toBigInt maxPriorityFeePerGas
      maxFeePerGas := ← toBigInt maxFeePerGas
      gasLimit := ← toBigInt gasLimit
      to_ := ← bytesToAddress (to_.getD (.bytes []))
      value := ← toBigInt value
      data := data.getD (.bytes [])
      accessList := accessList.getD (.list [])
      authorizationList := .bytes (authorizationList.getD (.list []))
      v := ← signatureBigInt (hasSig r s) v
      r := ← signatureBigInt (hasSig r s) r
      s := ← signatureBigInt (hasSig r s) s }

/-- The creator of a type, on the decoded values. -/
def fromValues : TransactionType → List NestedUint8Array → Except TxError TxData
  | .legacy => createLegacyTxManagerFromBytesArray
  | .accessListEIP2930 => accessListFromValues
  | .feeMarketEIP1559 => dynamicFeeFromValues
  | .blobEIP4844 => blobFromValues
  | .eoaCodeEIP7702 => setCodeFromValues

/-- **`createTxManagerFromRLP`.** Of no bytes the first is `undefined`, and the input is
taken for a legacy transaction. -/
def createTxManagerFromRLP (data : Bytes) : Except TxError TxData :=
  match data with
  | [] => createLegacyTxManagerFromRLP data
  | type :: encoded =>
    if type ≤ 0x7f then
      if type = 1 then decodeValues encoded >>= fromValues .accessListEIP2930
      else if type = 2 then decodeValues encoded >>= fromValues .feeMarketEIP1559
      else if type = 3 then decodeValues encoded >>= fromValues .blobEIP4844
      else if type = 4 then decodeValues encoded >>= fromValues .eoaCodeEIP7702
      else .error (.unknownType type)
    else createLegacyTxManagerFromRLP data

end Tx

end TsEthereum
