import TsEthereum.TxPool.Pool
import TsEthereum.Common.Except

/-!
# The methods of the transaction pool

`add` with what it calls, `promoteExecutables`, `demoteUnexecutables`,
`removeByHash`, `removeNewBlockTxs`, `cleanup`, `close`, `handleReorg` and
`getByHash`, as the source has them.
-/

namespace TsEthereum

namespace TxPool

variable (s : TxPool)

/-! ## Lookups and removals -/

/-- What `getByHash` finds under one hash. -/
def find (txHash : Bytes32) : Option TxManager :=
  match s.handled txHash, s.hashIndex txHash with
  | some ⟨_, _, none⟩, some indexEntry =>
    ((s.list indexEntry.poolType indexEntry.address).find? fun obj => obj.hash = txHash).map
      TxPoolObject.tx
  | _, _ => none

/-- **`getByHash`.** -/
def getByHash (txHashes : List Bytes32) : List TxManager := txHashes.filterMap s.find

/-- **`removeByHash`.** -/
def removeByHash (txHash : Bytes32) : TxPool :=
  match s.handled txHash with
  | none => s
  | some handled =>
    let address := handled.address
    let pool := if (s.list .pending address).any (fun obj => obj.hash = txHash) then .pending
      else .queued
    match (s.list pool address).find? fun obj => obj.hash = txHash with
    | none => s
    | some txObj =>
      ((((s.replaceList pool address
        ((s.list pool address).filter fun obj => obj.hash ≠ txHash)).addCount pool (-1)
        ).removeFromPriced txObj).deleteHashIndex txHash).deleteLocal txHash

/-- **`removeNewBlockTxs`**, of the transactions of the blocks. -/
def removeNewBlockTxs (newBlocks : List (List TxManager)) : TxPool :=
  if s.running then
    newBlocks.flatten.foldl (fun s tx => s.removeByHash tx.hash) s
  else s

/-! ## Limits -/

/-- The search of `evictLowestPriced`: the first transaction of the lowest tip that is
not local. -/
def lowestPriced (pool : PoolType) : Option TxPoolObject :=
  (((s.lists pool).entries.flatMap Prod.snd).foldl
    (fun (lowest : ℕ × Option TxPoolObject) txObj =>
      if s.locals txObj.hash then lowest
      else if txObj.price.tip < lowest.1 then (txObj.price.tip, some txObj)
      else lowest)
    (MAX_SAFE_INTEGER, none)).2

/-- **`evictLowestPriced`**, `none` where it returns `false`. -/
def evictLowestPriced (pool : PoolType) : Option TxPool :=
  (s.lowestPriced pool).map fun lowestTx => s.removeByHash lowestTx.hash

/-- A loop of `enforcePoolLimits`, of at most so many turns. -/
def enforceLimit (pool : PoolType) (limit : ℤ) : ℕ → TxPool → TxPool
  | 0, s => s
  | turns + 1, s =>
    if s.counts pool > limit then
      match s.evictLowestPriced pool with
      | none => s
      | some s' => enforceLimit pool limit turns s'
    else s

/-- **`enforcePoolLimits`.** A turn takes one transaction out, so that there are
no more turns than there are transactions over the limit. -/
def enforcePoolLimits : TxPool :=
  let s := enforceLimit .pending GLOBAL_SLOTS (s.counts .pending - GLOBAL_SLOTS).toNat s
  enforceLimit .queued GLOBAL_QUEUE (s.counts .queued - GLOBAL_QUEUE).toNat s

/-! ## Promotion and demotion -/

/-- What `promoteExecutables` does with the queued transactions of a sender. -/
structure Promotion where
  toPromote : List TxPoolObject
  stale : List TxPoolObject
  remaining : List TxPoolObject

/-- The loop of `promoteExecutables` over the queued transactions. -/
def promotion (accountNonce : ℕ) : ℕ → List TxPoolObject → Promotion
  | _, [] => ⟨[], [], []⟩
  | nextNonce, txObj :: objs =>
    if txObj.tx.nonce = nextNonce then
      let rest := promotion accountNonce (txObj.tx.nonce + 1) objs
      { rest with toPromote := txObj :: rest.toPromote }
    else
      let rest := promotion accountNonce nextNonce objs
      if txObj.tx.nonce < accountNonce then { rest with stale := txObj :: rest.stale }
      else { rest with remaining := txObj :: rest.remaining }

/-- A stale transaction is removed entirely. -/
def removeStale (txObj : TxPoolObject) : TxPool :=
  (((s.addCount .queued (-1)).removeFromPriced txObj).deleteHandled txObj.hash).deleteHashIndex
    txObj.hash

/-- The index entry of a promoted transaction. -/
def indexPromoted (address : Bytes20) (s : TxPool) (txObj : TxPoolObject) : TxPool :=
  s.setHashIndex txObj.hash ⟨address, .pending⟩

/-- The promoted transactions are moved to `pending`. -/
def movePromoted (address : Bytes20) (toPromote : List TxPoolObject) : TxPool :=
  if toPromote.isEmpty then s
  else
    toPromote.foldl (indexPromoted address)
      (((s.setList .pending address (sortByNonce (s.list .pending address ++ toPromote))).addCount
        .pending toPromote.length).addCount .queued (-toPromote.length))

/-- The next nonce after those of `pending`, from the account's on. -/
def nextExpectedNonce (accountNonce : ℕ) (pendingTxs : List TxPoolObject) : ℕ :=
  match maxNonce pendingTxs with
  | none => accountNonce
  | some maxPendingNonce => maxPendingNonce + 1

/-- The queued transactions of a sender are sorted out. -/
def promote (accountNonce : ℕ) (address : Bytes20) : TxPool :=
  let promoted := promotion accountNonce
    (nextExpectedNonce accountNonce (s.list .pending address))
    (sortByNonce (s.list .queued address))
  ((promoted.stale.foldl removeStale s).movePromoted address promoted.toPromote).replaceList .queued
    address promoted.remaining

/-- `promoteExecutables`, for one address. -/
def promoteAddress (chain : ChainView) (address : Bytes20) : Except TxPoolError TxPool :=
  if (s.list .queued address).isEmpty then .ok s
  else
    match s.getNonce chain address with
    | .error e => .error e
    | .ok (accountNonce, s) => .ok (s.promote accountNonce address)

/-- **`promoteExecutables`**, of one address or of all that have queued
transactions. -/
def promoteExecutables (chain : ChainView) (address : Option Bytes20) :
    Option TxPoolError × TxPool :=
  forAddresses (fun s address => s.promoteAddress chain address) s
    (match address with
    | some address => [address]
    | none => (s.lists .queued).keys)

/-- What `demoteUnexecutables` does with the pending transactions of a sender. -/
structure Demotion where
  stillPending : List TxPoolObject
  toDemote : List TxPoolObject
  toRemove : List TxPoolObject

/-- The most a transaction can cost. -/
def cost (txObj : TxPoolObject) : ℕ := txObj.tx.value + txObj.price.maxFee * txObj.tx.gasLimit

/-- The loop of `demoteUnexecutables` over the pending transactions;
`lastValidNonce + 1` is the first argument. -/
def demotion (account : Account) : ℕ → List TxPoolObject → Demotion
  | _, [] => ⟨[], [], []⟩
  | validNonce, txObj :: objs =>
    if txObj.tx.nonce < account.nonce then
      let rest := demotion account validNonce objs
      { rest with toRemove := txObj :: rest.toRemove }
    else if account.balance < cost txObj then
      let rest := demotion account validNonce objs
      { rest with toDemote := txObj :: rest.toDemote }
    else if txObj.tx.nonce ≠ validNonce then
      let rest := demotion account validNonce objs
      { rest with toDemote := txObj :: rest.toDemote }
    else
      let rest := demotion account (txObj.tx.nonce + 1) objs
      { rest with stillPending := txObj :: rest.stillPending }

/-- A transaction that was mined is removed. -/
def removeMined (txObj : TxPoolObject) : TxPool :=
  (((s.addCount .pending (-1)).removeFromPriced txObj).deleteHandled txObj.hash).deleteLocal
    txObj.hash

/-- The demoted transactions are moved to `queued`. -/
def moveDemoted (address : Bytes20) (toDemote : List TxPoolObject) : TxPool :=
  if toDemote.isEmpty then s
  else
    ((s.setList .queued address (sortByNonce (s.list .queued address ++ toDemote))).addCount
      .pending (-toDemote.length)).addCount .queued toDemote.length

/-- `demoteUnexecutables`, for one address. -/
def demoteAddress (accounts : Bytes20 → Except TxPoolError Account) (address : Bytes20) :
    Except TxPoolError TxPool :=
  match accounts address with
  | .error e => .error e
  | .ok account =>
    let demoted := demotion account account.nonce (sortByNonce (s.list .pending address))
    let s := demoted.toRemove.foldl removeMined (s.setNonce address account.nonce)
    .ok ((s.moveDemoted address demoted.toDemote).replaceList .pending address
      demoted.stillPending)

/-- **`demoteUnexecutables`.** -/
def demoteUnexecutables (chain : ChainView) : Option TxPoolError × TxPool :=
  match chain.vmAccounts with
  | .error e => (some e, s)
  | .ok none => (none, s)
  | .ok (some accounts) =>
    forAddresses (fun s address => s.demoteAddress accounts address) s (s.lists .pending).keys

/-! ## Adding -/

/-- **`validateTxGasBump`.** -/
def validateTxGasBump (existing : TxPoolObject) (addedTx : TxManager) (newGasPrice : GasPrice) :
    Except TxPoolError Unit :=
  let minTipCap := existing.price.tip + existing.price.tip * MIN_GAS_PRICE_BUMP_PERCENT / 100
  let minFeeCap := existing.price.maxFee + existing.price.maxFee * MIN_GAS_PRICE_BUMP_PERCENT / 100
  if newGasPrice.tip < minTipCap ∨ newGasPrice.maxFee < minFeeCap then
    .error (.replacementGas newGasPrice minTipCap minFeeCap)
  else
    match addedTx.type.maxFeePerBlobGas, existing.tx.type.maxFeePerBlobGas with
    | some maxFeePerBlobGas, some existingFee =>
      let minBlobGasFee := existingFee + existingFee * MIN_GAS_PRICE_BUMP_PERCENT / 100
      if maxFeePerBlobGas < minBlobGasFee then
        .error (.replacementBlobGas maxFeePerBlobGas minBlobGasFee)
      else .ok ()
    | _, _ => .ok ()

/-- The checks of `validate` that a local transaction is spared. -/
def validatePrice (currentTip : ℕ) : Except TxPoolError Unit :=
  let totalTxs := s.counts .pending + s.counts .queued
  if totalTxs ≥ MAX_POOL_SIZE then .error .poolFull
  else if currentTip < MIN_GAS_PRICE then .error .minimumGasPrice
  else if totalTxs ≥ NEAR_CAPACITY ∧ currentTip ≤ s.getMinPrice then
    .error (.underpriced currentTip s.getMinPrice)
  else .ok ()

/-- The checks of `validate` against the transactions of the sender. -/
def validateSender (tx : TxManager) (sender : Bytes20) (currentGasPrice : GasPrice)
    (isLocalTransaction : Bool) : Except TxPoolError Unit :=
  let allTxsForSender := s.list .pending sender ++ s.list .queued sender
  if isLocalTransaction = false ∧ allTxsForSender.length ≥ MAX_TXS_PER_ACCOUNT then
    .error (.accountFull sender)
  else
    match allTxsForSender.find? fun poolObj => poolObj.tx.nonce = tx.nonce with
    | none => .ok ()
    | some existingTxn =>
      if existingTxn.tx.hash = tx.hash then .error (.alreadyPooled tx.hash)
      else validateTxGasBump existingTxn tx currentGasPrice

/-- The checks of `validate` against the head. -/
def validateHead (chain : ChainView) (tx : TxManager) (sender : Bytes20)
    (currentGasPrice : GasPrice) (isLocalTransaction : Bool) : Except TxPoolError Unit :=
  chain.getCanonicalHeadHeader >>= fun block =>
    let baseFeePerGas := block.baseFeePerGas.getD 0
    if baseFeePerGas ≠ 0 ∧ currentGasPrice.maxFee < baseFeePerGas / 2 ∧ isLocalTransaction = false then
      .error (.baseFee baseFeePerGas currentGasPrice.maxFee)
    else if tx.gasLimit > block.gasLimit then .error (.gasLimit tx.gasLimit block.gasLimit)
    else
      chain.headAccount sender >>= fun account =>
        let minimumBalance := tx.value + currentGasPrice.maxFee * tx.gasLimit
        if account.nonce > tx.nonce then .error (.nonceTooLow tx.nonce account.nonce)
        else if account.balance < minimumBalance then
          .error (.insufficientBalance minimumBalance account.balance)
        else .ok ()

/-- **`validate`**, which returns what the transaction pays. -/
def validate (chain : ChainView) (tx : TxManager) (sender : Bytes20) (isLocalTransaction : Bool) :
    Except TxPoolError {price : GasPrice // tx.type.gasPrice = some price} :=
  if tx.isSigned = false then .error .notSigned
  else if tx.dataLength > TX_MAX_DATA_SIZE then .error (.tooLarge tx.dataLength)
  else
    tx.txGasPrice >>= fun currentGasPrice =>
      (if isLocalTransaction then .ok () else s.validatePrice currentGasPrice.1.tip) >>= fun _ =>
        s.validateSender tx sender currentGasPrice.1 isLocalTransaction >>= fun _ =>
          validateHead chain tx sender currentGasPrice.1 isLocalTransaction >>= fun _ =>
            .ok currentGasPrice

/-- The list a transaction belongs to by its nonce. -/
def classify (accountNonce nonce : ℕ) (pendingTxs : List TxPoolObject) : PoolType :=
  if (maxNonce pendingTxs).any (fun maxPendingNonce => nonce = maxPendingNonce + 1) then .pending
  else if nonce = accountNonce then .pending
  else .queued

/-- **`classifyTransaction`.** -/
def classifyTransaction (chain : ChainView) (tx : TxManager) (senderAddress : Bytes20) :
    Except TxPoolError (PoolType × TxPool) :=
  match s.getNonce chain senderAddress with
  | .error e => .error e
  | .ok (accountNonce, s) =>
    .ok (classify accountNonce tx.nonce (s.list .pending senderAddress), s)

/-- The limit of a sender's list. -/
def accountLimit : PoolType → ℕ
  | .pending => ACCOUNT_SLOTS
  | .queued => ACCOUNT_QUEUE

/-- A transaction that is replaced leaves the heap, the index and the count. -/
def takeReplaced (pool : PoolType) (oldTxObj : TxPoolObject) : TxPool :=
  ((s.removeFromPriced oldTxObj).deleteHashIndex oldTxObj.hash).addCount pool (-1)

/-- The pool when the replaced transaction, if there is one, has left. -/
def takeExisting (tx : TxManager) (address : Bytes20) (pool : PoolType) : TxPool :=
  match (s.list pool address).find? fun obj => obj.tx.nonce = tx.nonce with
  | none => s
  | some oldTxObj => s.takeReplaced pool oldTxObj

/-- The list a transaction goes into, without the one it replaces. -/
def existingTxs (tx : TxManager) (address : Bytes20) (pool : PoolType) : List TxPoolObject :=
  (s.list pool address).eraseP fun obj => obj.tx.nonce = tx.nonce

/-- A transaction is put in, after `objs`. -/
def insert (txObj : TxPoolObject) (address : Bytes20) (pool : PoolType) (objs : List TxPoolObject)
    (isLocalTransaction : Bool) : TxPool :=
  let s := s.setList pool address (sortByNonce (objs ++ [txObj]))
  let s := { s with priced := txObj :: s.priced }
  let s := if isLocalTransaction then { s with locals := Function.update s.locals txObj.hash true }
    else s
  let s := (s.addCount pool 1).setHandled txObj.hash ⟨address, txObj.added, none⟩
  s.setHashIndex txObj.hash ⟨address, pool⟩

/-- What `add` does in its `try`, up to `enforcePoolLimits`. -/
def offer (chain : ChainView) (now : ℕ) (tx : TxManager) (address : Bytes20)
    (isLocalTransaction : Bool) : Option TxPoolError × TxPool :=
  match s.validate chain tx address isLocalTransaction with
  | .error e => (some e, s)
  | .ok price =>
    match s.classifyTransaction chain tx address with
    | .error e => (some e, s)
    | .ok (pool, s) =>
      let existing := s.existingTxs tx address pool
      let s := s.takeExisting tx address pool
      if isLocalTransaction = false ∧ existing.length ≥ accountLimit pool then
        (some (.accountLimit address pool (accountLimit pool)), s)
      else
        let txObj : TxPoolObject := ⟨tx, tx.hash, now, price.1, rfl, price.2⟩
        let s := s.insert txObj address pool existing isLocalTransaction
        match pool with
        | .queued => (none, s)
        | .pending => s.promoteExecutables chain (some address)

/-- What `add` does in its `try`. -/
def tryAdd (chain : ChainView) (now : ℕ) (tx : TxManager) (address : Bytes20)
    (isLocalTransaction : Bool) : Option TxPoolError × TxPool :=
  match s.offer chain now tx address isLocalTransaction with
  | (some e, s) => (some e, s)
  | (none, s) => (none, s.enforcePoolLimits)

/-- **`add`**, with what it throws. The hash and the sender are asked for before the
`try`. -/
def add (chain : ChainView) (now : ℕ) (tx : TxManager) (isLocalTransaction : Bool) :
    Option TxPoolError × TxPool :=
  if tx.isSigned = false then (some .unsigned, s)
  else
    match tx.getSenderAddress with
    | none => (some .noSender, s)
    | some address =>
      match s.tryAdd chain now tx address isLocalTransaction with
      | (none, s) => (none, s)
      | (some e, s) => (some e, s.setHandled tx.hash ⟨address, now, some e⟩)

/-! ## Cleaning up -/

/-- A transaction that is too old is removed. -/
def removeOld (txObj : TxPoolObject) : TxPool :=
  (((s.removeFromPriced txObj).deleteHandled txObj.hash).deleteHashIndex txObj.hash).deleteLocal
    txObj.hash

/-- `cleanup`, for one list. -/
def cleanupList (compDate : ℕ) (pool : PoolType) (address : Bytes20) : TxPool :=
  let txObjs := s.list pool address
  let updatedObjects := txObjs.filter fun obj => obj.added ≥ compDate
  let removedCount := txObjs.length - updatedObjects.length
  if removedCount > 0 then
    let s := (txObjs.filter fun obj => obj.added < compDate).foldl removeOld
      (s.addCount pool (-removedCount))
    s.replaceList pool address updatedObjects
  else s

/-- **`cleanup`.** -/
def cleanup (now : ℕ) : TxPool :=
  let compDate := now - POOLED_STORAGE_TIME
  let s := (s.lists .pending).keys.foldl (fun s address => s.cleanupList compDate .pending address) s
  let s := (s.lists .queued).keys.foldl (fun s address => s.cleanupList compDate .queued address) s
  { s with handled := fun hash =>
      (s.handled hash).filter fun handleObj => handleObj.added ≥ now - HANDLED_CLEANUP_TIME }

/-- **`close`.** -/
def close : TxPool :=
  { s with
    lists := fun _ => JsMap.empty
    handled := fun _ => none
    accountNonces := fun _ => none
    locals := fun _ => false
    counts := fun _ => 0
    priced := [] }

/-! ## Reorgs -/

/-- The transactions of the old blocks are added again, as local ones, but for
those of the new blocks and those that have been handled. -/
def reinject (chain : ChainView) (now : ℕ) (newTxs : List TxManager) (tx : TxManager) : TxPool :=
  if newTxs.any (fun newTx => newTx.hash = tx.hash) then s
  else if (s.handled tx.hash).isSome then s
  else (s.add chain now tx true).2

/-- **`handleReorg`.** What `add` throws is caught. -/
def handleReorg (chain : ChainView) (now : ℕ) (oldBlocks newBlocks : List (List TxManager)) :
    Option TxPoolError × TxPool :=
  let s := oldBlocks.flatten.foldl (fun s tx => s.reinject chain now newBlocks.flatten tx) s
  let s := { s with accountNonces := fun _ => none }
  match (s.removeNewBlockTxs newBlocks).demoteUnexecutables chain with
  | (some e, s) => (some e, s)
  | (none, s) => s.promoteExecutables chain none

end TxPool

end TsEthereum
