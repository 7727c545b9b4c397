import TsEthereum.Common.JsMap
import TsEthereum.State.Account
import Mathlib.Data.List.Sort

/-!
# The transaction pool

`service/txpool.ts`: the transactions that wait to be mined, by sender, in two
maps, `pending` and `queued`; beside them two counters, the heap `priced`, the
indexes `hashIndex` and `handled`, the set `locals` and the cached nonces. Each
method below is one call, made in the state the one before left; a call that
throws keeps what it had changed. What the pool reads of the chain is handed to
the call as a `ChainView`, and `now` is what `Date.now()` returns.

Peers, statistics and the blobs of a transaction are left out: nothing here
reads them.
-/

namespace TsEthereum

/-! ## Transactions -/

structure GasPrice where
  tip : ℕ
  maxFee : ℕ
  deriving DecidableEq

/-- The types of transaction, each with what it pays. -/
inductive TxType where
  | legacy (gasPrice : ℕ)
  | accessListEIP2930 (gasPrice : ℕ)
  | feeMarketEIP1559 (maxFeePerGas maxPriorityFeePerGas : ℕ)
  | blobEIP4844 (maxFeePerGas maxPriorityFeePerGas maxFeePerBlobGas : ℕ)
  | eoaCodeEIP7702 (maxFeePerGas maxPriorityFeePerGas : ℕ)
  deriving DecidableEq

/-- What `txGasPrice` returns, `none` where it throws. -/
def TxType.gasPrice : TxType → Option GasPrice
  | .legacy gasPrice => some ⟨gasPrice, gasPrice⟩
  | .accessListEIP2930 gasPrice => some ⟨gasPrice, gasPrice⟩
  | .feeMarketEIP1559 maxFee tip => some ⟨tip, maxFee⟩
  | .blobEIP4844 maxFee tip _ => some ⟨tip, maxFee⟩
  | .eoaCodeEIP7702 _ _ => none

/-- `maxFeePerBlobGas`, of a blob transaction. -/
def TxType.maxFeePerBlobGas : TxType → Option ℕ
  | .blobEIP4844 _ _ maxFeePerBlobGas => some maxFeePerBlobGas
  | _ => none

/-- **A transaction**, as much of it as the pool reads. -/
structure TxManager where
  /-- `hash()`, of a signed one. -/
  hash : Bytes32
  isSigned : Bool
  /-- `getSenderAddress()`, `none` where it throws. -/
  getSenderAddress : Option Bytes20
  nonce : ℕ
  gasLimit : ℕ
  value : ℕ
  /-- `data.length`. -/
  dataLength : ℕ
  type : TxType
  deriving DecidableEq

/-- The list a transaction is in. -/
inductive PoolType where
  | pending
  | queued
  deriving DecidableEq

/-- What is thrown, with the values its message reports. -/
inductive TxPoolError where
  /-- 'Cannot hash unsigned transaction' -/
  | unsigned
  /-- What `getSenderAddress` throws. -/
  | noSender
  /-- 'Attempting to add tx to txpool which is not signed' -/
  | notSigned
  /-- 'Tx is too large' -/
  | tooLarge (dataLength : ℕ)
  /-- 'tx of type 4 unknown' -/
  | unknownType
  /-- 'Cannot add tx: pool is full' -/
  | poolFull
  /-- 'Tx does not pay the minimum gas price' -/
  | minimumGasPrice
  /-- 'Transaction underpriced' -/
  | underpriced (txPrice minPrice : ℕ)
  /-- 'already have max amount of txs for this account' -/
  | accountFull (sender : Bytes20)
  /-- 'this transaction is already in the TxPool' -/
  | alreadyPooled (hash : Bytes32)
  /-- 'replacement gas too low' -/
  | replacementGas (price : GasPrice) (minTipCap minFeeCap : ℕ)
  /-- 'replacement blob gas too low' -/
  | replacementBlobGas (maxFeePerBlobGas minBlobGasFee : ℕ)
  /-- 'Tx cannot pay basefee' -/
  | baseFee (baseFeePerGas maxFee : ℕ)
  /-- 'exceeds last block gas limit' -/
  | gasLimit (tx block : ℕ)
  /-- 'tx nonce too low' -/
  | nonceTooLow (tx account : ℕ)
  /-- 'insufficient balance' -/
  | insufficientBalance (minimumBalance balance : ℕ)
  /-- 'account exceeds pending limit', 'account exceeds queued limit' -/
  | accountLimit (address : Bytes20) (pool : PoolType) (limit : ℕ)
  /-- What a call on the chain or the state manager threw. -/
  | thrown (message : String)
  deriving DecidableEq

/-- **`txGasPrice`.** -/
def TxManager.txGasPrice (tx : TxManager) :
    Except TxPoolError {price : GasPrice // tx.type.gasPrice = some price} :=
  if h : tx.type.gasPrice.isSome then .ok ⟨tx.type.gasPrice.get h, (Option.some_get h).symm⟩
  else .error .unknownType

/-- **A pooled transaction.** `price` is what `txGasPrice` returns of it: none
for which that throws is pooled. -/
structure TxPoolObject where
  tx : TxManager
  hash : Bytes32
  added : ℕ
  price : GasPrice
  hash_eq : hash = tx.hash
  price_eq : tx.type.gasPrice = some price
  deriving DecidableEq

structure HandledObject where
  address : Bytes20
  added : ℕ
  error : Option TxPoolError
  deriving DecidableEq

/-- An entry of `hashIndex`. -/
structure HashIndexEntry where
  address : Bytes20
  poolType : PoolType
  deriving DecidableEq

/-- What the pool reads of the head header. -/
structure HeadHeader where
  baseFeePerGas : Option ℕ
  gasLimit : ℕ
  deriving DecidableEq

/-- **What a call reads of the chain.** The accounts are those of the state of
the canonical head, and of the VM head's: `setStateRoot` and then `getAccount`,
a new account where there is none. -/
structure ChainView where
  getCanonicalHeadHeader : Except TxPoolError HeadHeader
  headAccount : Bytes20 → Except TxPoolError Account
  /-- `none` where `setStateRoot` throws. -/
  vmAccounts : Except TxPoolError (Option (Bytes20 → Except TxPoolError Account))

/-! ## The state -/

/-- **The pool.** `pending` and `queued` are `lists`, `pendingCount` and
`queuedCount` are `counts`. The heap is the list of its items; what its `peek`
returns has the lowest tip of them. -/
structure TxPool where
  running : Bool
  lists : PoolType → JsMap Bytes20 (List TxPoolObject)
  counts : PoolType → ℤ
  accountNonces : Bytes20 → Option ℕ
  locals : Bytes32 → Bool
  priced : List TxPoolObject
  handled : Bytes32 → Option HandledObject
  hashIndex : Bytes32 → Option HashIndexEntry

def MIN_GAS_PRICE_BUMP_PERCENT : ℕ := 10
def MIN_GAS_PRICE : ℕ := 100000000
def TX_MAX_DATA_SIZE : ℕ := 128 * 1024
def MAX_TXS_PER_ACCOUNT : ℕ := 100
def MAX_POOL_SIZE : ℤ := 5000
def GLOBAL_SLOTS : ℤ := 4096
def GLOBAL_QUEUE : ℤ := 1024
def ACCOUNT_SLOTS : ℕ := 16
def ACCOUNT_QUEUE : ℕ := 64

/-- `(GLOBAL_SLOTS + GLOBAL_QUEUE) * 0.9`. -/
def NEAR_CAPACITY : ℤ := 4608

/-- `POOLED_STORAGE_TIME_LIMIT * 1000 * 60`. -/
def POOLED_STORAGE_TIME : ℕ := 20 * 1000 * 60

/-- `HANDLED_CLEANUP_TIME_LIMIT * 1000 * 60`. -/
def HANDLED_CLEANUP_TIME : ℕ := 60 * 1000 * 60

def MAX_SAFE_INTEGER : ℕ := 9007199254740991

/-- `objs.sort((a, b) => Number(a.tx.nonce - b.tx.nonce))`. -/
def sortByNonce (objs : List TxPoolObject) : List TxPoolObject :=
  objs.insertionSort fun a b => a.tx.nonce ≤ b.tx.nonce

/-- The highest nonce of a list, which has one. -/
def maxNonce : List TxPoolObject → Option ℕ
  | [] => none
  | obj :: objs => some (objs.foldl (fun max obj => if obj.tx.nonce > max then obj.tx.nonce else max)
      obj.tx.nonce)

namespace TxPool

/-- `new TxPool()`. -/
def new : TxPool where
  running := false
  lists _ := JsMap.empty
  counts _ := 0
  accountNonces _ := none
  locals _ := false
  priced := []
  handled _ := none
  hashIndex _ := none

variable (s : TxPool)

def start : TxPool := { s with running := true }

/-- What `pending` or `queued` has of a sender. -/
def list (pool : PoolType) (address : Bytes20) : List TxPoolObject := (s.lists pool).list address

/-- A list is set. -/
def setList (pool : PoolType) (address : Bytes20) (objs : List TxPoolObject) : TxPool :=
  { s with lists := Function.update s.lists pool ((s.lists pool).set address objs) }

/-- A list is set, or deleted where it is empty. -/
def replaceList (pool : PoolType) (address : Bytes20) (objs : List TxPoolObject) : TxPool :=
  { s with lists := Function.update s.lists pool ((s.lists pool).replace address objs) }

/-- A counter is changed. -/
def addCount (pool : PoolType) (difference : ℤ) : TxPool :=
  { s with counts := Function.update s.counts pool (s.counts pool + difference) }

/-- `removeFromPriced`: the heap is built again, without the items of a hash. -/
def removeFromPriced (txObj : TxPoolObject) : TxPool :=
  { s with priced := s.priced.filter fun item => item.hash ≠ txObj.hash }

def deleteHandled (hash : Bytes32) : TxPool :=
  { s with handled := Function.update s.handled hash none }

def deleteHashIndex (hash : Bytes32) : TxPool :=
  { s with hashIndex := Function.update s.hashIndex hash none }

def setHashIndex (hash : Bytes32) (entry : HashIndexEntry) : TxPool :=
  { s with hashIndex := Function.update s.hashIndex hash (some entry) }

def deleteLocal (hash : Bytes32) : TxPool :=
  { s with locals := Function.update s.locals hash false }

def setNonce (address : Bytes20) (nonce : ℕ) : TxPool :=
  { s with accountNonces := Function.update s.accountNonces address (some nonce) }

def setHandled (hash : Bytes32) (object : HandledObject) : TxPool :=
  { s with handled := Function.update s.handled hash (some object) }

def getMinPrice : ℕ := (s.priced.map fun item => item.price.tip).min?.getD 0

/-- The nonce of an account: the cached one, or that of the head state, which is
cached. -/
def getNonce (chain : ChainView) (address : Bytes20) : Except TxPoolError (ℕ × TxPool) :=
  match s.accountNonces address with
  | some nonce => .ok (nonce, s)
  | none =>
    match chain.headAccount address with
    | .error e => .error e
    | .ok account => .ok (account.nonce, s.setNonce address account.nonce)

/-- A method is called for one address after the other, until it throws. -/
def forAddresses (method : TxPool → Bytes20 → Except TxPoolError TxPool) :
    TxPool → List Bytes20 → Option TxPoolError × TxPool
  | s, [] => (none, s)
  | s, address :: addresses =>
    match method s address with
    | .error e => (some e, s)
    | .ok s' => forAddresses method s' addresses

end TxPool

end TsEthereum
