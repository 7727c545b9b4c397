import TsEthereum.TxPool.Calls

/-!
# Additions that are interleaved

`add` awaits: the chain, in `validate` and where `classifyTransaction` does not
have the nonce of the account, and each of the methods it calls. Between two
awaits it runs by itself, so an addition under way is where it awaits
(`Stage`), and a run is the calls that are made and, in whatever order, the
additions that go on (`Event`). One that is not interleaved with others is
`TxPool.add` (`add_alone`).

A transaction is compared with the one of its nonce before the first await, and
is put in the place of the one that is there after the last. The two are not
always the same (`replacements_not_bumped`); where they are, what is put pays
the bump (`replacements_bumped`).
-/

namespace TsEthereum

namespace TxPool

variable {s : TxPool} {chain : ChainView} {tx : TxManager} {sender : Bytes20} {now : ℕ}
variable {isLocalTransaction : Bool}

/-- **The bump of `MIN_GAS_PRICE_BUMP_PERCENT`** over what a transaction pays. -/
def Bumped (old : GasPrice) (price : GasPrice) : Prop :=
  old.tip + old.tip * 10 / 100 ≤ price.tip ∧ old.maxFee + old.maxFee * 10 / 100 ≤ price.maxFee

instance (old price : GasPrice) : Decidable (Bumped old price) :=
  inferInstanceAs (Decidable (_ ∧ _))

theorem bumped_of_validateTxGasBump {existing : TxPoolObject} {price : GasPrice}
    (h : validateTxGasBump existing tx price = .ok ()) : Bumped existing.price price := by
  rw [validateTxGasBump] at h
  dsimp only at h
  split at h
  · cases h
  · rename_i hprice
    rw [MIN_GAS_PRICE_BUMP_PERCENT] at hprice
    rw [Bumped]
    omega

/-! ## Validation, up to its first await -/

/-- `existingTxn` of `validate`. -/
def existingTxn (s : TxPool) (tx : TxManager) (sender : Bytes20) : Option TxPoolObject :=
  (s.list .pending sender ++ s.list .queued sender).find? fun poolObj => poolObj.tx.nonce = tx.nonce

/-- **What `validate` has found** when it awaits the head: what the transaction pays,
and the one of its nonce, over which it pays the bump. -/
structure Checked (tx : TxManager) where
  currentGasPrice : {price : GasPrice // tx.type.gasPrice = some price}
  existingTxn : Option TxPoolObject
  bumped : ∀ existing, existingTxn = some existing → Bumped existing.price currentGasPrice.1

theorem bumped_of_validateSender {price : GasPrice} {existing : TxPoolObject}
    (h : s.validateSender tx sender price isLocalTransaction = .ok ())
    (hexisting : s.existingTxn tx sender = some existing) : Bumped existing.price price := by
  rw [existingTxn] at hexisting
  rw [validateSender] at h
  split at h
  · cases h
  · rw [hexisting] at h
    dsimp only at h
    split at h
    · cases h
    · exact bumped_of_validateTxGasBump h

/-- **`validate`, up to its first await.** -/
def validateSync (s : TxPool) (tx : TxManager) (sender : Bytes20) (isLocalTransaction : Bool) :
    Except TxPoolError (Checked tx) :=
  if tx.isSigned = false then .error .notSigned
  else if tx.dataLength > TX_MAX_DATA_SIZE then .error (.tooLarge tx.dataLength)
  else
    tx.txGasPrice >>= fun currentGasPrice =>
      (if isLocalTransaction then .ok () else s.validatePrice currentGasPrice.1.tip) >>= fun _ =>
        match h : s.validateSender tx sender currentGasPrice.1 isLocalTransaction with
        | .error e => .error e
        | .ok () =>
          .ok ⟨currentGasPrice, s.existingTxn tx sender, fun _ => bumped_of_validateSender h⟩

theorem validate_eq (s : TxPool) (chain : ChainView) (tx : TxManager) (sender : Bytes20)
    (isLocalTransaction : Bool) :
    s.validate chain tx sender isLocalTransaction =
      s.validateSync tx sender isLocalTransaction >>= fun checked =>
        validateHead chain tx sender checked.currentGasPrice.1 isLocalTransaction >>= fun _ =>
          .ok checked.currentGasPrice := by
  rw [validate, validateSync]
  split
  · rfl
  · split
    · rfl
    · cases tx.txGasPrice with
      | error e => rfl
      | ok price =>
        simp only [ok_bind]
        cases (if isLocalTransaction = true then .ok () else s.validatePrice price.1.tip :
          Except TxPoolError Unit) with
        | error e => rfl
        | ok _ =>
          simp only [ok_bind]
          split
          · rename_i e herror
            rw [herror]
            rfl
          · rename_i hok
            simp only [ok_bind]
            rw [hok]
            rfl

/-! ## An addition under way -/

/-- **Where an addition awaits.** -/
inductive Stage (tx : TxManager) where
  /-- The head and the account, in `validate`. -/
  | validating (checked : Checked tx)
  /-- `validate` itself. -/
  | classifying (checked : Checked tx)
  /-- The account, in `classifyTransaction`. -/
  | fetching (checked : Checked tx)
  /-- `classifyTransaction` itself. -/
  | putting (checked : Checked tx) (pool : PoolType)
  /-- `promoteExecutables`. -/
  | promoted
  /-- One of these, which has thrown. -/
  | failing (error : TxPoolError)

/-- **An addition**: the call's arguments and variables, and where it awaits. -/
structure Adding where
  tx : TxManager
  isLocalTransaction : Bool
  added : ℕ
  address : Bytes20
  stage : Stage tx

/-- What an addition leaves when it awaits again or is done: the pool, itself, and the
transaction it has put with the one that was in its place. -/
structure Resumed where
  pool : TxPool
  adding : Option Adding
  replaced : Option (TxPoolObject × TxPoolObject)

/-- `handled` is told of the error, which is thrown. -/
def fail (s : TxPool) (a : Adding) (e : TxPoolError) : Resumed :=
  ⟨s.setHandled a.tx.hash ⟨a.address, a.added, some e⟩, none, none⟩

/-- **The transaction is put in its list**, in the place of the one of its nonce, and
promotions are made. -/
def put (s : TxPool) (a : Adding) (checked : Checked a.tx) (pool : PoolType) (chain : ChainView) :
    Resumed :=
  let oldTxObj := (s.list pool a.address).find? fun obj => obj.tx.nonce = a.tx.nonce
  let existing := s.existingTxs a.tx a.address pool
  let s := s.takeExisting a.tx a.address pool
  if a.isLocalTransaction = false ∧ existing.length ≥ accountLimit pool then
    s.fail a (.accountLimit a.address pool (accountLimit pool))
  else
    let txObj : TxPoolObject :=
      ⟨a.tx, a.tx.hash, a.added, checked.currentGasPrice.1, rfl, checked.currentGasPrice.2⟩
    let s := s.insert txObj a.address pool existing a.isLocalTransaction
    let replaced := oldTxObj.map fun oldTxObj => (oldTxObj, txObj)
    match pool with
    | .queued => ⟨s.enforcePoolLimits, none, replaced⟩
    | .pending =>
      match s.promoteExecutables chain (some a.address) with
      | (some e, s) => ⟨s, some { a with stage := .failing e }, replaced⟩
      | (none, s) => ⟨s, some { a with stage := .promoted }, replaced⟩

/-- **An addition goes on**, up to its next await. -/
def resume (s : TxPool) (a : Adding) (chain : ChainView) : Resumed :=
  match a.stage with
  | .validating checked =>
    match validateHead chain a.tx a.address checked.currentGasPrice.1 a.isLocalTransaction with
    | .error e => ⟨s, some { a with stage := .failing e }, none⟩
    | .ok _ => ⟨s, some { a with stage := .classifying checked }, none⟩
  | .classifying checked =>
    match s.accountNonces a.address with
    | none => ⟨s, some { a with stage := .fetching checked }, none⟩
    | some accountNonce =>
      let pool := classify accountNonce a.tx.nonce (s.list .pending a.address)
      ⟨s, some { a with stage := .putting checked pool }, none⟩
  | .fetching checked =>
    match chain.headAccount a.address with
    | .error e => ⟨s, some { a with stage := .failing e }, none⟩
    | .ok account =>
      let pool := classify account.nonce a.tx.nonce (s.list .pending a.address)
      ⟨s.setNonce a.address account.nonce, some { a with stage := .putting checked pool }, none⟩
  | .putting checked pool => s.put a checked pool chain
  | .promoted => ⟨s.enforcePoolLimits, none, none⟩
  | .failing e => s.fail a e

/-! ## What is awaited -/

/-! ## Runs -/

/-- **A pool with the additions under way**, and the transactions that have been
replaced, each with what is in its place. -/
structure Interleaving where
  pool : TxPool
  adds : List Adding
  replaced : List (TxPoolObject × TxPoolObject)

/-- **What happens**: `add` is called, or the addition at a position goes on, with what
the chain reports then. -/
inductive Event where
  | add (now : ℕ) (tx : TxManager) (isLocalTransaction : Bool)
  | resume (i : ℕ) (chain : ChainView)

/-- **A call of `add`**, up to its first await. -/
def addSync (s : TxPool) (now : ℕ) (tx : TxManager) (isLocalTransaction : Bool) : Option Adding :=
  if tx.isSigned = false then none
  else
    tx.getSenderAddress.map fun address =>
      ⟨tx, isLocalTransaction, now, address,
        match s.validateSync tx address isLocalTransaction with
        | .error e => .failing e
        | .ok checked => .validating checked⟩

/-- **An event.** -/
def Interleaving.step (w : Interleaving) : Event → Interleaving
  | .add now tx isLocalTransaction =>
    { w with adds := w.adds ++ (w.pool.addSync now tx isLocalTransaction).toList }
  | .resume i chain =>
    match w.adds[i]? with
    | none => w
    | some a =>
      let resumed := w.pool.resume a chain
      { pool := resumed.pool
        adds :=
          match resumed.adding with
          | none => w.adds.eraseIdx i
          | some a => w.adds.set i a
        replaced := w.replaced ++ resumed.replaced.toList }

namespace Interleaving

variable {w : Interleaving} {events : List Event}

/-- A pool with no addition under way. -/
def start (s : TxPool) : Interleaving := ⟨s, [], []⟩

/-! ### An addition that is alone -/

/-- **The one addition is done**, when it has gone on so many times, and leaves a
pool. -/
def Ends (chain : ChainView) (times : ℕ) (s : TxPool) (a : Adding) (s' : TxPool) : Prop :=
  ∀ replaced, ∃ replaced',
    (List.replicate times (.resume 0 chain)).foldl step (⟨s, [a], replaced⟩ : Interleaving) =
      ⟨s', [], replaced'⟩

variable {a a' : Adding} {s' : TxPool} {times : ℕ}

theorem foldl_idle (s : TxPool) (replaced : List (TxPoolObject × TxPoolObject)) (chain : ChainView)
    (times : ℕ) :
    (List.replicate times (.resume 0 chain)).foldl step (⟨s, [], replaced⟩ : Interleaving) =
      ⟨s, [], replaced⟩ := by
  induction times with
  | zero => rfl
  | succ times ih => exact ih

theorem ends_of_done (times : ℕ) (h : (s.resume a chain).adding = none) :
    Ends chain (times + 1) s a (s.resume a chain).pool := by
  intro replaced
  refine ⟨replaced ++ (s.resume a chain).replaced.toList, ?_⟩
  rw [List.replicate_succ, List.foldl_cons, step]
  dsimp only [List.getElem?_cons_zero]
  rw [h]
  exact foldl_idle _ _ _ _

theorem Ends.after (h : Ends chain times (s.resume a chain).pool a' s')
    (ha' : (s.resume a chain).adding = some a') : Ends chain (times + 1) s a s' := by
  intro replaced
  obtain ⟨replaced', hrun⟩ := h (replaced ++ (s.resume a chain).replaced.toList)
  refine ⟨replaced', ?_⟩
  rw [List.replicate_succ, List.foldl_cons, step]
  dsimp only [List.getElem?_cons_zero]
  rw [ha']
  exact hrun

/-- What `add` makes of what its `try` has left, up to `enforcePoolLimits`. -/
def settle (tx : TxManager) (address : Bytes20) (now : ℕ) :
    Option TxPoolError × TxPool → TxPool
  | (none, s) => s.enforcePoolLimits
  | (some e, s) => s.setHandled tx.hash ⟨address, now, some e⟩

theorem add_eq_settle (hsigned : tx.isSigned = true) (hsender : tx.getSenderAddress = some sender) :
    (s.add chain now tx isLocalTransaction).2 =
      settle tx sender now (s.offer chain now tx sender isLocalTransaction) := by
  rw [add, if_neg (by rw [hsigned]; decide), hsender]
  dsimp only
  rw [tryAdd]
  rcases s.offer chain now tx sender isLocalTransaction with ⟨- | e, s'⟩
  · rfl
  · rfl

theorem ends_putting {checked : Checked tx} {pool : PoolType} :
    Ends chain (times + 2) s ⟨tx, isLocalTransaction, now, sender, .putting checked pool⟩
      (settle tx sender now
        (if isLocalTransaction = false ∧
            (s.existingTxs tx sender pool).length ≥ accountLimit pool then
          (some (.accountLimit sender pool (accountLimit pool)), s.takeExisting tx sender pool)
        else
          let s' := (s.takeExisting tx sender pool).insert
            ⟨tx, tx.hash, now, checked.currentGasPrice.1, rfl, checked.currentGasPrice.2⟩ sender pool
            (s.existingTxs tx sender pool) isLocalTransaction
          match pool with
          | .queued => (none, s')
          | .pending => s'.promoteExecutables chain (some sender))) := by
  generalize ha : (⟨tx, isLocalTransaction, now, sender, .putting checked pool⟩ : Adding) = a
  have hresume : s.resume a chain = s.put ⟨tx, isLocalTransaction, now, sender,
      .putting checked pool⟩ checked pool chain := by
    rw [← ha]
    rfl
  rw [put] at hresume
  dsimp only at hresume
  split
  · rename_i hlimit
    rw [if_pos hlimit] at hresume
    have hends := ends_of_done (times + 1) (by rw [hresume]; rfl)
    rw [hresume] at hends
    exact hends
  · rename_i hlimit
    rw [if_neg hlimit] at hresume
    cases pool with
    | queued =>
      have hends := ends_of_done (times + 1) (by rw [hresume])
      rw [hresume] at hends
      exact hends
    | pending =>
      dsimp only at hresume ⊢
      split at hresume
      · rename_i e s' hpromote
        rw [hpromote]
        refine Ends.after ?_ (by rw [hresume])
        rw [hresume]
        exact ends_of_done _ rfl
      · rename_i s' hpromote
        rw [hpromote]
        refine Ends.after ?_ (by rw [hresume])
        rw [hresume]
        exact ends_of_done _ rfl

theorem ends_classifying {checked : Checked tx}
    (hvalidate : s.validate chain tx sender isLocalTransaction = .ok checked.currentGasPrice) :
    Ends chain (times + 4) s ⟨tx, isLocalTransaction, now, sender, .classifying checked⟩
      (settle tx sender now (s.offer chain now tx sender isLocalTransaction)) := by
  rw [offer, hvalidate]
  dsimp only
  cases hcached : s.accountNonces sender with
  | some accountNonce =>
    have hclassify : s.classifyTransaction chain tx sender =
        .ok (classify accountNonce tx.nonce (s.list .pending sender), s) := by
      rw [classifyTransaction, getNonce, hcached]
    have hresume : s.resume ⟨tx, isLocalTransaction, now, sender, .classifying checked⟩ chain =
        ⟨s, some ⟨tx, isLocalTransaction, now, sender,
          .putting checked (classify accountNonce tx.nonce (s.list .pending sender))⟩, none⟩ := by
      rw [resume]
      dsimp only
      rw [hcached]
    rw [hclassify]
    refine Ends.after ?_ (by rw [hresume])
    rw [hresume]
    exact ends_putting
  | none =>
    have hresume : s.resume ⟨tx, isLocalTransaction, now, sender, .classifying checked⟩ chain =
        ⟨s, some ⟨tx, isLocalTransaction, now, sender, .fetching checked⟩, none⟩ := by
      rw [resume]
      dsimp only
      rw [hcached]
    refine Ends.after ?_ (by rw [hresume])
    rw [hresume]
    cases haccount : chain.headAccount sender with
    | error e =>
      have hclassify : s.classifyTransaction chain tx sender = .error e := by
        rw [classifyTransaction, getNonce, hcached, haccount]
      have hresume : s.resume ⟨tx, isLocalTransaction, now, sender, .fetching checked⟩ chain =
          ⟨s, some ⟨tx, isLocalTransaction, now, sender, .failing e⟩, none⟩ := by
        rw [resume]
        dsimp only
        rw [haccount]
      rw [hclassify]
      refine Ends.after ?_ (by rw [hresume])
      rw [hresume]
      exact ends_of_done _ rfl
    | ok account =>
      have hclassify : s.classifyTransaction chain tx sender =
          .ok (classify account.nonce tx.nonce (s.list .pending sender),
            s.setNonce sender account.nonce) := by
        rw [classifyTransaction, getNonce, hcached, haccount]
        rfl
      have hresume : s.resume ⟨tx, isLocalTransaction, now, sender, .fetching checked⟩ chain =
          ⟨s.setNonce sender account.nonce, some ⟨tx, isLocalTransaction, now, sender,
            .putting checked (classify account.nonce tx.nonce (s.list .pending sender))⟩, none⟩ := by
        rw [resume]
        dsimp only
        rw [haccount]
      rw [hclassify]
      refine Ends.after ?_ (by rw [hresume])
      rw [hresume]
      exact ends_putting

theorem ends_validated :
    Ends chain 5 s ⟨tx, isLocalTransaction, now, sender,
        match s.validateSync tx sender isLocalTransaction with
        | .error e => .failing e
        | .ok checked => .validating checked⟩
      (settle tx sender now (s.offer chain now tx sender isLocalTransaction)) := by
  have hvalidate := validate_eq s chain tx sender isLocalTransaction
  cases hsync : s.validateSync tx sender isLocalTransaction with
  | error e =>
    rw [hsync] at hvalidate
    rw [offer, hvalidate]
    exact ends_of_done _ rfl
  | ok checked =>
    rw [hsync, ok_bind] at hvalidate
    dsimp only
    have hresume : s.resume ⟨tx, isLocalTransaction, now, sender, .validating checked⟩ chain =
        match validateHead chain tx sender checked.currentGasPrice.1 isLocalTransaction with
        | .error e => ⟨s, some ⟨tx, isLocalTransaction, now, sender, .failing e⟩, none⟩
        | .ok _ => ⟨s, some ⟨tx, isLocalTransaction, now, sender, .classifying checked⟩, none⟩ :=
      rfl
    cases hhead : validateHead chain tx sender checked.currentGasPrice.1 isLocalTransaction with
    | error e =>
      rw [hhead] at hvalidate hresume
      rw [offer, hvalidate]
      refine Ends.after ?_ (by rw [hresume])
      rw [hresume]
      exact ends_of_done _ rfl
    | ok _ =>
      rw [hhead] at hvalidate hresume
      refine Ends.after ?_ (by rw [hresume])
      rw [hresume]
      exact ends_classifying hvalidate

/-- **The one of its nonce is the one that was compared**, where a transaction is put:
what `validate` has found is what is in its place now, if anything is. -/
def StageReplacesChecked (s : TxPool) (address : Bytes20) : Stage tx → Prop
  | .putting checked pool =>
    ∀ old ∈ (s.list pool address).find? fun obj => obj.tx.nonce = tx.nonce,
      checked.existingTxn = some old
  | .validating _ | .classifying _ | .fetching _ | .promoted | .failing _ => True

instance (s : TxPool) (address : Bytes20) :
    (stage : Stage tx) → Decidable (StageReplacesChecked s address stage)
  | .putting checked pool =>
    inferInstanceAs (Decidable (∀ old ∈ (s.list pool address).find? fun obj =>
      obj.tx.nonce = tx.nonce, checked.existingTxn = some old))
  | .validating _ | .classifying _ | .fetching _ | .promoted | .failing _ => .isTrue trivial

/-- So it is for the addition that goes on. -/
def ReplacesChecked (w : Interleaving) : Event → Prop
  | .add _ _ _ => True
  | .resume i _ => ∀ a ∈ w.adds[i]?, StageReplacesChecked w.pool a.address a.stage

instance (w : Interleaving) : (event : Event) → Decidable (w.ReplacesChecked event)
  | .add _ _ _ => .isTrue trivial
  | .resume i _ =>
    inferInstanceAs (Decidable (∀ a ∈ w.adds[i]?, StageReplacesChecked w.pool a.address a.stage))

/-- What is replaced pays less than what is in its place, by the bump. -/
def ReplacementsBumped (w : Interleaving) : Prop :=
  ∀ replacement ∈ w.replaced, Bumped replacement.1.price replacement.2.price

instance (w : Interleaving) : Decidable w.ReplacementsBumped :=
  inferInstanceAs (Decidable (∀ replacement ∈ w.replaced, _))

theorem put_replaced {a : Adding} {checked : Checked a.tx} {pool : PoolType}
    {replacement : TxPoolObject × TxPoolObject}
    (h : replacement ∈ (s.put a checked pool chain).replaced) :
    (s.list pool a.address).find? (fun obj => obj.tx.nonce = a.tx.nonce) = some replacement.1 ∧
      replacement.2.price = checked.currentGasPrice.1 := by
  have hreplaced : ∀ txObj : TxPoolObject, txObj.price = checked.currentGasPrice.1 →
      replacement ∈ ((s.list pool a.address).find? fun obj => obj.tx.nonce = a.tx.nonce).map
        (fun oldTxObj => (oldTxObj, txObj)) →
      (s.list pool a.address).find? (fun obj => obj.tx.nonce = a.tx.nonce) = some replacement.1 ∧
        replacement.2.price = checked.currentGasPrice.1 := by
    intro txObj hprice hmem
    obtain ⟨old, hold, rfl⟩ := Option.map_eq_some_iff.1 hmem
    exact ⟨hold, hprice⟩
  rw [put] at h
  dsimp only at h
  split at h
  · cases h
  · cases pool with
    | queued => exact hreplaced _ rfl h
    | pending =>
      dsimp only at h
      split at h
      · exact hreplaced _ rfl h
      · exact hreplaced _ rfl h

theorem step_bumped (hw : w.ReplacementsBumped) {event : Event} (h : w.ReplacesChecked event) :
    (w.step event).ReplacementsBumped := by
  cases event with
  | add now tx isLocalTransaction => exact hw
  | resume i chain =>
    rw [step]
    cases ha : w.adds[i]? with
    | none => exact hw
    | some a =>
      have h := h a ha
      intro replacement hmem
      rcases List.mem_append.1 hmem with hmem | hmem
      · exact hw replacement hmem
      · rw [Option.mem_toList, resume] at hmem
        cases hstage : a.stage with
        | putting checked pool =>
          rw [hstage] at hmem
          rw [hstage] at h
          obtain ⟨hold, hprice⟩ := put_replaced hmem
          rw [hprice]
          exact checked.bumped _ (h _ hold)
        | validating checked =>
          rw [hstage] at hmem
          dsimp only at hmem
          split at hmem
          · cases hmem
          · cases hmem
        | classifying checked =>
          rw [hstage] at hmem
          dsimp only at hmem
          split at hmem
          · cases hmem
          · cases hmem
        | fetching checked =>
          rw [hstage] at hmem
          dsimp only at hmem
          split at hmem
          · cases hmem
          · cases hmem
        | promoted =>
          rw [hstage] at hmem
          cases hmem
        | failing e =>
          rw [hstage] at hmem
          cases hmem

/-- **Replacements are bumped**, in every run where each is of the transaction that
was compared. -/
theorem replacements_bumped (s : TxPool) (events : List Event)
    (h : AlongRun step ReplacesChecked (start s) events) :
    (events.foldl step (start s)).ReplacementsBumped := by
  refine h.inv (fun w event hw hevent => step_bumped hw hevent) ?_
  intro replacement hmem
  cases hmem

/-- An addition that is made alone. -/
def aloneAdd (nonce gasPrice : ℕ) (byte : UInt8) : List Event :=
  .add 0 (sampleTx nonce gasPrice byte) false :: List.replicate 5 (.resume 0 sampleChain)

/-- A transaction that pays a tenth more than the one it replaces, which it has been
compared with. -/
theorem replacements_bumped_alone :
    ((aloneAdd 0 200000000 1 ++ aloneAdd 0 220000000 2).foldl step
      (start TxPool.new)).ReplacementsBumped :=
  replacements_bumped TxPool.new _ (by decide +kernel)

/-- Two additions of one sender and nonce that are both validated before the first is
put in. -/
def racingAdds : List Event :=
  [.add 0 (sampleTx 0 200000000 1) false, .add 0 (sampleTx 0 100000000 2) false,
    .resume 0 sampleChain, .resume 1 sampleChain, .resume 0 sampleChain, .resume 0 sampleChain,
    .resume 0 sampleChain, .resume 1 sampleChain, .resume 1 sampleChain]

/-- **A transaction is replaced by one that pays half.** -/
theorem replacements_not_bumped :
    ¬ (racingAdds.foldl step (start TxPool.new)).ReplacementsBumped := by
  decide +kernel

end Interleaving

end TxPool

end TsEthereum
