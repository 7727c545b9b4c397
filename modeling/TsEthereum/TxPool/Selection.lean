import Mathlib.Algebra.Order.BigOperators.Group.List
import Mathlib.Data.List.TakeWhile
import TsEthereum.Miner.Ordering
import TsEthereum.TxPool.Contiguous

/-!
# The transactions to mine

`txsByPriceAndNonce`: of each sender the pending transactions in the order of their nonces, if the
lowest one is the account's, up to the first that does not pay the base fee. The set that they are
handed to leaves out those that do not pay the minimum, each by itself, so what comes after such a
one is offered all the same.
-/

namespace TsEthereum

namespace Miner

namespace TransactionsByPriceAndNonce

variable {s : TransactionsByPriceAndNonce} {address : Bytes20} {queues : Bytes20 → List TxPoolObject}

/-! ## What a set can offer -/

/-- **A transaction is offered**, of an account, after some calls. -/
def Offered (s : TransactionsByPriceAndNonce) (address : Bytes20) (obj : TxPoolObject) : Prop :=
  ∃ takes head, (s.run takes).peek = some head ∧ head.from_ = address ∧ head.txObj = obj

theorem Holds.step_suffix (h : s.Holds queues) (take : Take) :
    ∃ queues', (s.step take).Holds queues' ∧ ∀ address, queues' address <:+ queues address := by
  cases hpeek : s.peek with
  | none =>
    refine ⟨queues, ?_, fun address => List.suffix_rfl⟩
    cases take with
    | shift => rwa [TransactionsByPriceAndNonce.step, shift_of_peek_eq_none hpeek]
    | pop => rwa [TransactionsByPriceAndNonce.step, pop_of_peek_eq_none hpeek]
  | some head =>
    cases take with
    | shift =>
      refine ⟨_, h.shift hpeek, fun address => ?_⟩
      rw [Function.update_apply]
      split
      · rename_i heq
        rw [heq]
        exact List.tail_suffix _
      · exact List.suffix_rfl
    | pop =>
      refine ⟨_, h.pop hpeek, fun address => ?_⟩
      rw [Function.update_apply]
      split
      · exact List.nil_suffix
      · exact List.suffix_rfl

theorem Holds.run_suffix (h : s.Holds queues) (takes : List Take) :
    ∃ queues', (s.run takes).Holds queues' ∧ ∀ address, queues' address <:+ queues address := by
  induction takes generalizing s queues with
  | nil => exact ⟨queues, h, fun address => List.suffix_rfl⟩
  | cons take takes ih =>
    obtain ⟨queues', h', hsuffix⟩ := h.step_suffix take
    obtain ⟨queues'', h'', hsuffix'⟩ := ih h'
    exact ⟨queues'', h'', fun address => (hsuffix' address).trans (hsuffix address)⟩

theorem offered_of_mem_drain {n : ℕ} {head : TxWithMinerFee} (h : head ∈ drain n s) :
    s.Offered head.from_ head.txObj := by
  induction n generalizing s with
  | zero => cases h
  | succ n ih =>
    rw [drain] at h
    cases hpeek : s.peek with
    | none =>
      rw [hpeek] at h
      cases h
    | some first =>
      rw [hpeek] at h
      rcases List.mem_cons.1 h with rfl | h
      · exact ⟨[], head, hpeek, rfl, rfl⟩
      · obtain ⟨takes, other, hother⟩ := ih h
        exact ⟨.shift :: takes, other, hother⟩

/-- **What a new set can offer of an account**: those of its list that pay the minimum. -/
theorem offered_new_iff {txsByAccount : JsMap Bytes20 (List TxPoolObject)}
    {getGasPrice : TxManager → ℤ} {minGasPrice : ℤ} {obj : TxPoolObject} :
    (new txsByAccount getGasPrice minGasPrice).Offered address obj ↔
      obj ∈ filterByPrice getGasPrice minGasPrice (txsByAccount.list address) := by
  have hnew := new_holds txsByAccount getGasPrice minGasPrice
  constructor
  · rintro ⟨takes, head, hpeek, rfl, rfl⟩
    obtain ⟨queues, hqueues, hsuffix⟩ := hnew.run_suffix takes
    refine (hsuffix head.from_).subset ?_
    rw [hqueues.peeked hpeek]
    exact List.mem_cons_self
  · intro hobj
    have hdrained := hnew.drain txsByAccount.nodup (fun other hother => ?_) le_rfl address
    · rw [← hdrained] at hobj
      obtain ⟨head, hhead, rfl⟩ := List.mem_map.1 hobj
      obtain ⟨hmem, hfrom⟩ := List.mem_filter.1 hhead
      obtain rfl : head.from_ = address := of_decide_eq_true hfrom
      exact offered_of_mem_drain hmem
    · by_contra hnotMem
      refine hother ?_
      rw [JsMap.list, JsMap.get_eq_none.2 hnotMem]
      rfl

end TransactionsByPriceAndNonce

end Miner

namespace TxPool

open TsEthereum.Miner (TransactionsByPriceAndNonce)

/-! ## The selection -/

/-- What `txsByPriceAndNonce` is given: `priorityAddresses` are none where they are left out. -/
structure SelectionOptions where
  baseFee : Option ℤ
  minGasPrice : Option ℤ
  priorityAddresses : List Bytes20

/-- **`normalizedGasPrice`**, without a base fee; `none` is `undefined`. -/
def normalizedGasPrice (tx : TxManager) : Option ℕ :=
  match tx.type with
  | .legacy gasPrice => some gasPrice
  | .accessListEIP2930 gasPrice => some gasPrice
  | .feeMarketEIP1559 maxFeePerGas _ => some maxFeePerGas
  | .blobEIP4844 maxFeePerGas _ _ => some maxFeePerGas
  | .eoaCodeEIP7702 _ _ => none

/-- `this.normalizedGasPrice(txObj.tx) < baseFee`: what is `undefined` is not less. -/
def insufficient (baseFee : ℤ) (txObj : TxPoolObject) : Bool :=
  match normalizedGasPrice txObj.tx with
  | some price => decide ((price : ℤ) < baseFee)
  | none => false

/-- The filter by the base fee. -/
def filterByBaseFee (baseFee : Option ℤ) (txsSortedByNonce : List TxPoolObject) :
    List TxPoolObject :=
  match baseFee with
  | none => txsSortedByNonce
  | some baseFee =>
    if baseFee = 0 then txsSortedByNonce
    else
      match txsSortedByNonce.findIdx? (insufficient baseFee) with
      | some found => txsSortedByNonce.take found
      | none => txsSortedByNonce

/-- The nonce of an account, of a new one where there is none. -/
def nonceOf : Option Account → ℕ
  | some account => account.nonce
  | none => 0

/-- **What the loop does of a sender.** -/
def executable (getAccount : Bytes20 → Except TxPoolError (Option Account))
    (options : SelectionOptions) (address : Bytes20) (poolObjects : List TxPoolObject) :
    Except TxPoolError (List TxPoolObject) := do
  let txsSortedByNonce := sortByNonce poolObjects
  let account ← getAccount address
  match txsSortedByNonce with
  | [] => .error (.thrown "Cannot read properties of undefined")
  | first :: _ =>
    if first.tx.nonce ≠ nonceOf account then .ok []
    else .ok (filterByBaseFee options.baseFee txsSortedByNonce)

/-- `priorityTxs` and `normalTxs`. -/
structure Split where
  priorityTxs : JsMap Bytes20 (List TxPoolObject)
  normalTxs : JsMap Bytes20 (List TxPoolObject)

/-- Where a sender's transactions go: nowhere if there are none. -/
def Split.add (options : SelectionOptions) (split : Split) (address : Bytes20)
    (txs : List TxPoolObject) : Split :=
  if txs = [] then split
  else if address ∈ options.priorityAddresses then
    { split with priorityTxs := split.priorityTxs.set address txs }
  else { split with normalTxs := split.normalTxs.set address txs }

/-- **The loop over the senders.** -/
def splitByPriority (getAccount : Bytes20 → Except TxPoolError (Option Account))
    (options : SelectionOptions) :
    List (Bytes20 × List TxPoolObject) → Split → Except TxPoolError Split
  | [], split => .ok split
  | (address, poolObjects) :: entries, split => do
    let txs ← executable getAccount options address poolObjects
    splitByPriority getAccount options entries (split.add options address txs)

/-- What the set keeps of a pooled transaction. -/
def minerObject (obj : TxPoolObject) : Miner.TxPoolObject := ⟨obj.tx, obj.added⟩

/-- Entries are set, one after the other. -/
def setAll (allTxs : JsMap Bytes20 (List Miner.TxPoolObject))
    (txs : JsMap Bytes20 (List TxPoolObject)) : JsMap Bytes20 (List Miner.TxPoolObject) :=
  txs.entries.foldl (fun all entry => all.set entry.1 (entry.2.map minerObject)) allTxs

/-- **`txsByPriceAndNonce`.** -/
def txsByPriceAndNonce (s : TxPool) (getAccount : Bytes20 → Except TxPoolError (Option Account))
    (options : SelectionOptions) : Except TxPoolError TransactionsByPriceAndNonce := do
  let split ← splitByPriority getAccount options (s.lists .pending).entries ⟨.empty, .empty⟩
  let allTxs := setAll (setAll .empty split.priorityTxs) split.normalTxs
  return .new allTxs TransactionsByPriceAndNonce.tip (options.minGasPrice.getD 0)

/-! ## The prices -/

variable {s : TxPool} {getAccount : Bytes20 → Except TxPoolError (Option Account)}
  {options : SelectionOptions} {address : Bytes20} {objs : List TxPoolObject}

theorem normalizedGasPrice_eq (obj : TxPoolObject) :
    normalizedGasPrice obj.tx = some obj.price.maxFee := by
  have hprice := obj.price_eq
  rw [normalizedGasPrice]
  cases htype : obj.tx.type with
  | eoaCodeEIP7702 =>
    rw [htype] at hprice
    cases hprice
  | _ =>
    rw [htype] at hprice
    rw [← Option.some.inj hprice]

theorem tip_minerObject (obj : TxPoolObject) :
    TransactionsByPriceAndNonce.tip (minerObject obj).tx = obj.price.tip := by
  rw [TransactionsByPriceAndNonce.tip, show (minerObject obj).tx.type.gasPrice = some obj.price from
    obj.price_eq]

theorem filterByBaseFee_eq (baseFee : Option ℤ) (objs : List TxPoolObject) :
    filterByBaseFee baseFee objs =
      objs.takeWhile fun obj => decide (baseFee.getD 0 ≤ obj.price.maxFee) := by
  have hall : ∀ objs : List TxPoolObject,
      objs.takeWhile (fun obj => decide ((0 : ℤ) ≤ obj.price.maxFee)) = objs := by
    intro objs
    exact List.takeWhile_eq_self_iff.2 fun obj _ => decide_eq_true (Int.natCast_nonneg _)
  cases baseFee with
  | none => exact (hall objs).symm
  | some baseFee =>
    rw [filterByBaseFee, Option.getD_some]
    split
    · rename_i hzero
      rw [hzero, hall]
    · have hinsufficient : (fun obj => !decide (baseFee ≤ (obj.price.maxFee : ℤ))) =
          insufficient baseFee := by
        funext obj
        rw [insufficient, normalizedGasPrice_eq, ← decide_not]
        exact decide_eq_decide.2 not_le
      rw [List.takeWhile_eq_take_findIdx_not, hinsufficient]
      cases hfound : objs.findIdx? (insufficient baseFee) with
      | none =>
        rw [List.findIdx?_eq_none_iff_findIdx_eq] at hfound
        rw [hfound, List.take_length]
      | some found =>
        rw [List.findIdx?_eq_some_iff_findIdx_eq] at hfound
        rw [hfound.2]

/-! ## What is handed over -/

theorem get_add_of_ne (split : Split) {address' : Bytes20} (h : address' ≠ address) :
    (split.add options address objs).priorityTxs.get address' = split.priorityTxs.get address' ∧
      (split.add options address objs).normalTxs.get address' = split.normalTxs.get address' := by
  rw [Split.add]
  split
  · exact ⟨rfl, rfl⟩
  · split
    · exact ⟨by rw [JsMap.get_set, if_neg h], rfl⟩
    · exact ⟨rfl, by rw [JsMap.get_set, if_neg h]⟩

theorem get_add_congr {split split' : Split}
    (hpriority : split.priorityTxs.get address = split'.priorityTxs.get address)
    (hnormal : split.normalTxs.get address = split'.normalTxs.get address) :
    (split.add options address objs).priorityTxs.get address =
        (split'.add options address objs).priorityTxs.get address ∧
      (split.add options address objs).normalTxs.get address =
        (split'.add options address objs).normalTxs.get address := by
  rw [Split.add, Split.add]
  split
  · exact ⟨hpriority, hnormal⟩
  · split
    · exact ⟨by rw [JsMap.get_set, JsMap.get_set, if_pos rfl, if_pos rfl], hnormal⟩
    · exact ⟨hpriority, by rw [JsMap.get_set, JsMap.get_set, if_pos rfl, if_pos rfl]⟩

theorem get_splitByPriority {entries : List (Bytes20 × List TxPoolObject)}
    (hnodup : (entries.map Prod.fst).Nodup) {split result : Split}
    (h : splitByPriority getAccount options entries split = .ok result) (address : Bytes20) :
    (address ∉ entries.map Prod.fst →
      result.priorityTxs.get address = split.priorityTxs.get address ∧
      result.normalTxs.get address = split.normalTxs.get address) ∧
    ∀ objs, (address, objs) ∈ entries →
      ∃ txs, executable getAccount options address objs = .ok txs ∧
        result.priorityTxs.get address = (split.add options address txs).priorityTxs.get address ∧
        result.normalTxs.get address = (split.add options address txs).normalTxs.get address := by
  induction entries generalizing split with
  | nil =>
    obtain rfl := Except.ok.inj h
    exact ⟨fun _ => ⟨rfl, rfl⟩, fun objs hmem => absurd hmem List.not_mem_nil⟩
  | cons entry entries ih =>
    obtain ⟨hnotMem, hnodup⟩ := List.nodup_cons.1 hnodup
    obtain ⟨txs, htxs, h⟩ := bind_eq_ok.1 h
    obtain ⟨hout, hin⟩ := ih hnodup h
    constructor
    · intro hnot
      rw [List.map_cons, List.mem_cons, not_or] at hnot
      obtain ⟨hpriority, hnormal⟩ := hout hnot.2
      obtain ⟨hpriority', hnormal'⟩ := get_add_of_ne split hnot.1
      exact ⟨hpriority.trans hpriority', hnormal.trans hnormal'⟩
    · intro objs hmem
      rcases List.mem_cons.1 hmem with rfl | hmem
      · exact ⟨txs, htxs, hout hnotMem⟩
      · have hne : address ≠ entry.1 := by
          rintro rfl
          exact hnotMem (List.mem_map.2 ⟨_, hmem, rfl⟩)
        obtain ⟨txs', htxs', hpriority, hnormal⟩ := hin objs hmem
        obtain ⟨hpriority', hnormal'⟩ := get_add_of_ne split hne
        obtain ⟨hpriority'', hnormal''⟩ := @get_add_congr options address txs' _ _
          hpriority' hnormal'
        exact ⟨txs', htxs', hpriority.trans hpriority'', hnormal.trans hnormal''⟩

theorem get_setAll (allTxs : JsMap Bytes20 (List Miner.TxPoolObject))
    (txs : JsMap Bytes20 (List TxPoolObject)) (address : Bytes20) :
    (setAll allTxs txs).get address =
      ((txs.get address).map (List.map minerObject)).or (allTxs.get address) := by
  have hset : ∀ (entries : List (Bytes20 × List TxPoolObject)) (allTxs : JsMap Bytes20
      (List Miner.TxPoolObject)), (entries.map Prod.fst).Nodup →
      (entries.foldl (fun all entry => all.set entry.1 (entry.2.map minerObject)) allTxs).get
        address = (((entries.find? fun e => e.1 = address).map Prod.snd).map
          (List.map minerObject)).or (allTxs.get address) := by
    intro entries
    induction entries with
    | nil => exact fun _ _ => rfl
    | cons entry entries ih =>
      intro allTxs hnodup
      obtain ⟨hnotMem, hnodup⟩ := List.nodup_cons.1 hnodup
      rw [List.foldl_cons, ih _ hnodup, JsMap.get_set]
      by_cases heq : entry.1 = address
      · have hnone : entries.find? (fun e => e.1 = address) = none :=
          List.find?_eq_none.2 fun e he => by
            rw [decide_eq_true_eq]
            rintro rfl
            exact hnotMem (List.mem_map.2 ⟨e, he, heq.symm⟩)
        rw [hnone, List.find?_cons_of_pos (by simpa using heq), if_pos heq.symm]
        rfl
      · rw [List.find?_cons_of_neg (by simpa using heq), if_neg (Ne.symm heq)]
  exact hset txs.entries allTxs txs.nodup

theorem list_allTxs {split : Split}
    (h : splitByPriority getAccount options (s.lists .pending).entries ⟨.empty, .empty⟩ =
      .ok split) (address : Bytes20) :
    (address ∉ (s.lists .pending).keys →
      (setAll (setAll .empty split.priorityTxs) split.normalTxs).list address = []) ∧
    ∀ objs, (address, objs) ∈ (s.lists .pending).entries →
      ∃ txs, executable getAccount options address objs = .ok txs ∧
        (setAll (setAll .empty split.priorityTxs) split.normalTxs).list address =
          txs.map minerObject := by
  obtain ⟨hout, hin⟩ := get_splitByPriority (s.lists .pending).nodup h address
  constructor
  · intro hnotMem
    obtain ⟨hpriority, hnormal⟩ := hout hnotMem
    rw [JsMap.list, get_setAll, get_setAll, hpriority, hnormal]
    rfl
  · intro objs hmem
    obtain ⟨txs, htxs, hpriority, hnormal⟩ := hin objs hmem
    refine ⟨txs, htxs, ?_⟩
    rw [JsMap.list, get_setAll, get_setAll, hpriority, hnormal, Split.add]
    split
    · rename_i hnil
      rw [hnil]
      rfl
    · split
      · rw [JsMap.get_set, if_pos rfl]
        rfl
      · rw [JsMap.get_set, if_pos rfl]
        rfl

/-- **What is offered of a sender**: of those the loop has left, what pays the minimum. -/
theorem offered_iff {set : TransactionsByPriceAndNonce}
    (h : s.txsByPriceAndNonce getAccount options = .ok set) (address : Bytes20) :
    (address ∉ (s.lists .pending).keys → ∀ obj, ¬ set.Offered address obj) ∧
    ∀ objs, (address, objs) ∈ (s.lists .pending).entries →
      ∃ txs, executable getAccount options address objs = .ok txs ∧
        ∀ obj, set.Offered address obj ↔
          ∃ txObj ∈ txs, options.minGasPrice.getD 0 ≤ txObj.price.tip ∧ minerObject txObj = obj := by
  obtain ⟨split, hsplit, hset⟩ := bind_eq_ok.1 h
  obtain rfl := Except.ok.inj hset
  obtain ⟨hout, hin⟩ := list_allTxs hsplit address
  constructor
  · intro hnotMem obj hobj
    rw [TransactionsByPriceAndNonce.offered_new_iff, hout hnotMem] at hobj
    cases hobj
  · intro objs hmem
    obtain ⟨txs, htxs, hlist⟩ := hin objs hmem
    refine ⟨txs, htxs, fun obj => ?_⟩
    rw [TransactionsByPriceAndNonce.offered_new_iff, hlist,
      TransactionsByPriceAndNonce.filterByPrice, List.mem_filter, List.mem_map, decide_eq_true_eq]
    constructor
    · rintro ⟨⟨txObj, hmem, rfl⟩, hprice⟩
      rw [ge_iff_le, tip_minerObject] at hprice
      exact ⟨txObj, hmem, hprice, rfl⟩
    · rintro ⟨txObj, hmem, hprice, rfl⟩
      refine ⟨⟨txObj, hmem, rfl⟩, ?_⟩
      rw [ge_iff_le, tip_minerObject]
      exact hprice

/-! ## The nonces that are offered -/

theorem nonces_of_contiguous {first : TxPoolObject} {rest : List TxPoolObject}
    (h : Contiguous (first :: rest)) :
    nonces (first :: rest) = List.range' first.tx.nonce (first :: rest).length := by
  induction rest generalizing first with
  | nil => rfl
  | cons next rest ih =>
    rw [Contiguous, nonces, List.map_cons, List.map_cons, List.isChain_cons_cons] at h
    have hrest := ih h.2
    rw [h.1] at hrest
    rw [nonces, List.map_cons, ← nonces, hrest]
    rfl

theorem mem_takeWhile_iff {n : ℕ} (h : nonces objs = List.range' n objs.length)
    {p : TxPoolObject → Bool} {obj : TxPoolObject} :
    obj ∈ objs.takeWhile p ↔
      obj ∈ objs ∧ ∀ other ∈ objs, other.tx.nonce ≤ obj.tx.nonce → p other = true := by
  induction objs generalizing n with
  | nil => simp
  | cons first objs ih =>
    rw [nonces, List.map_cons, List.length_cons, List.range'_succ, List.cons.injEq] at h
    obtain ⟨hfirst, hrest⟩ := h
    have hlater : ∀ other ∈ objs, first.tx.nonce < other.tx.nonce := by
      intro other hother
      have hmem : other.tx.nonce ∈ List.range' (n + 1) objs.length := by
        rw [← hrest]
        exact List.mem_map_of_mem hother
      rw [List.mem_range'_1] at hmem
      omega
    by_cases hp : p first = true
    · rw [List.takeWhile_cons_of_pos hp, List.mem_cons, List.mem_cons, ih hrest]
      constructor
      · rintro (rfl | ⟨hmem, hall⟩)
        · refine ⟨.inl rfl, fun other hother hle => ?_⟩
          rcases List.mem_cons.1 hother with rfl | hother
          · exact hp
          · have := hlater other hother
            omega
        · refine ⟨.inr hmem, fun other hother hle => ?_⟩
          rcases List.mem_cons.1 hother with rfl | hother
          · exact hp
          · exact hall other hother hle
      · rintro ⟨rfl | hmem, hall⟩
        · exact .inl rfl
        · exact .inr ⟨hmem, fun other hother hle => hall other (List.mem_cons_of_mem _ hother) hle⟩
    · rw [List.takeWhile_cons_of_neg hp]
      constructor
      · intro hmem
        exact absurd hmem List.not_mem_nil
      · rintro ⟨hmem, hall⟩
        refine absurd (hall first List.mem_cons_self ?_) hp
        rcases List.mem_cons.1 hmem with rfl | hmem
        · exact le_rfl
        · exact (hlater obj hmem).le

/-- **The lowest nonce is the account's.** -/
structure StartsAt (nonce : ℕ) (objs : List TxPoolObject) : Prop where
  first : ∃ obj ∈ objs, obj.tx.nonce = nonce
  le : ∀ obj ∈ objs, nonce ≤ obj.tx.nonce

/-- **A transaction that is to be offered**: it pays the minimum, and all up to it pay the base
fee. -/
structure Eligible (options : SelectionOptions) (nonce : ℕ) (objs : List TxPoolObject)
    (obj : TxPoolObject) : Prop where
  mem : obj ∈ objs
  starts : StartsAt nonce objs
  maxFee : ∀ other ∈ objs, other.tx.nonce ≤ obj.tx.nonce →
    options.baseFee.getD 0 ≤ other.price.maxFee
  tip : options.minGasPrice.getD 0 ≤ obj.price.tip

theorem mem_of_executable {account : Option Account} {txs : List TxPoolObject}
    (haccount : getAccount address = .ok account)
    (hcontiguous : Contiguous (sortByNonce objs))
    (h : executable getAccount options address objs = .ok txs) {obj : TxPoolObject} :
    obj ∈ txs ↔ obj ∈ objs ∧ StartsAt (nonceOf account) objs ∧
      ∀ other ∈ objs, other.tx.nonce ≤ obj.tx.nonce →
        options.baseFee.getD 0 ≤ other.price.maxFee := by
  have hperm := sortByNonce_perm objs
  rw [executable, haccount] at h
  dsimp only [bind, Except.bind] at h
  cases hsorted : sortByNonce objs with
  | nil =>
    rw [hsorted] at h
    cases h
  | cons first rest =>
    rw [hsorted] at h hperm hcontiguous
    have hnonces := nonces_of_contiguous hcontiguous
    have hfirst : ∀ other ∈ objs, first.tx.nonce ≤ other.tx.nonce := by
      intro other hother
      have hmem : other.tx.nonce ∈ nonces (first :: rest) :=
        List.mem_map_of_mem (hperm.mem_iff.2 hother)
      rw [hnonces, List.mem_range'_1] at hmem
      exact hmem.1
    dsimp only at h
    split at h
    · -- a lowest nonce that is not the account's: all are skipped
      rename_i hne
      obtain rfl := Except.ok.inj h
      refine ⟨fun hmem => absurd hmem List.not_mem_nil, fun ⟨hmem, hstarts, _⟩ => ?_⟩
      obtain ⟨other, hother, hnonce⟩ := hstarts.first
      have hle := hfirst other hother
      have hle' := hstarts.le first (hperm.mem_iff.1 List.mem_cons_self)
      omega
    · rename_i heq
      rw [not_not] at heq
      obtain rfl := Except.ok.inj h
      rw [filterByBaseFee_eq, mem_takeWhile_iff hnonces]
      simp only [hperm.mem_iff, decide_eq_true_eq]
      refine ⟨fun ⟨hmem, hall⟩ => ⟨hmem, ⟨⟨first, ?_, heq⟩, ?_⟩, hall⟩,
        fun ⟨hmem, _, hall⟩ => ⟨hmem, hall⟩⟩
      · exact hperm.mem_iff.1 List.mem_cons_self
      · rw [← heq]
        exact hfirst

theorem offered_iff_eligible {set : TransactionsByPriceAndNonce}
    (h : s.txsByPriceAndNonce getAccount options = .ok set) {account : Option Account}
    (haccount : getAccount address = .ok account)
    (hcontiguous : Contiguous (sortByNonce (s.list .pending address))) {obj : Miner.TxPoolObject} :
    set.Offered address obj ↔
      ∃ txObj, Eligible options (nonceOf account) (s.list .pending address) txObj ∧
        minerObject txObj = obj := by
  obtain ⟨hout, hin⟩ := offered_iff h address
  by_cases hmem : address ∈ (s.lists .pending).keys
  · obtain ⟨⟨address', objs⟩, hentry, heq⟩ := List.mem_map.1 hmem
    obtain rfl : address' = address := heq
    have hlist : s.list .pending address' = objs := JsMap.list_of_mem_entries hentry
    obtain ⟨txs, htxs, hoffered⟩ := hin objs hentry
    rw [hlist] at hcontiguous ⊢
    rw [hoffered]
    constructor
    · rintro ⟨txObj, hmem, htip, rfl⟩
      obtain ⟨hmem, hstarts, hall⟩ := (mem_of_executable haccount hcontiguous htxs).1 hmem
      exact ⟨txObj, ⟨hmem, hstarts, hall, htip⟩, rfl⟩
    · rintro ⟨txObj, ⟨hmem, hstarts, hall, htip⟩, rfl⟩
      exact ⟨txObj, (mem_of_executable haccount hcontiguous htxs).2 ⟨hmem, hstarts, hall⟩,
        htip, rfl⟩
  · refine ⟨fun hobj => absurd hobj (hout hmem obj), ?_⟩
    rintro ⟨txObj, helig, -⟩
    have hmem' := helig.mem
    rw [list, JsMap.list, JsMap.get_eq_none.2 hmem] at hmem'
    cases hmem'

/-- **The transactions that are offered of an account**: those of a run of nonces from the
account's on, one of each, that pay; what does not pay takes with it what comes later. -/
structure NoncePrefix (set : TransactionsByPriceAndNonce) (options : SelectionOptions)
    (address : Bytes20) (nonce : ℕ) (objs : List TxPoolObject) : Prop where
  run : ∃ count, ∀ n, (∃ obj, set.Offered address obj ∧ obj.tx.nonce = n) ↔
    nonce ≤ n ∧ n < nonce + count
  single : ∀ obj obj', set.Offered address obj → set.Offered address obj' →
    obj.tx.nonce = obj'.tx.nonce → obj = obj'
  pays : ∀ obj, set.Offered address obj → ∃ price, obj.tx.type.gasPrice = some price ∧
    options.baseFee.getD 0 ≤ price.maxFee ∧ options.minGasPrice.getD 0 ≤ price.tip
  cut : ∀ txObj ∈ objs, (txObj.price.maxFee < options.baseFee.getD 0 ∨
      txObj.price.tip < options.minGasPrice.getD 0) →
    ∀ obj, set.Offered address obj → obj.tx.nonce < txObj.tx.nonce

/-- **Nothing that pays the minimum comes after what does not**, among those of an account that pay
the base fee. -/
def PaysInOrder (options : SelectionOptions) (objs : List TxPoolObject) : Prop :=
  ∀ low ∈ objs, ∀ high ∈ objs, low.tx.nonce < high.tx.nonce →
    (∀ obj ∈ objs, obj.tx.nonce ≤ high.tx.nonce → options.baseFee.getD 0 ≤ obj.price.maxFee) →
    options.minGasPrice.getD 0 ≤ high.price.tip → options.minGasPrice.getD 0 ≤ low.price.tip

theorem eq_of_nonce (h : Contiguous (sortByNonce objs)) {obj obj' : TxPoolObject} (hobj : obj ∈ objs)
    (hobj' : obj' ∈ objs) (heq : obj.tx.nonce = obj'.tx.nonce) : obj = obj' := by
  have hnodup : (nonces objs).Nodup := by
    rw [← nodup_sortByNonce]
    cases hsorted : sortByNonce objs with
    | nil => exact List.nodup_nil
    | cons first rest =>
      rw [hsorted] at h
      rw [nonces_of_contiguous h]
      exact List.nodup_range'
  exact List.inj_on_of_nodup_map hnodup hobj hobj' heq

theorem exists_of_nonce_le (h : Contiguous (sortByNonce objs)) {nonce n : ℕ}
    (hstarts : StartsAt nonce objs) {high : TxPoolObject} (hhigh : high ∈ objs)
    (hle : nonce ≤ n) (hlt : n ≤ high.tx.nonce) : ∃ obj ∈ objs, obj.tx.nonce = n := by
  have hperm := sortByNonce_perm objs
  cases hsorted : sortByNonce objs with
  | nil =>
    rw [hsorted] at hperm
    rw [List.nil_perm.1 hperm] at hhigh
    cases hhigh
  | cons first rest =>
    rw [hsorted] at h hperm
    have hnonces := nonces_of_contiguous h
    have hmem : ∀ k, k ∈ nonces (first :: rest) ↔ ∃ obj ∈ objs, obj.tx.nonce = k := by
      intro k
      rw [nonces, List.mem_map]
      simp only [hperm.mem_iff]
    obtain ⟨obj, hobj, hnonce⟩ := hstarts.first
    have hfirst := (hmem nonce).2 ⟨obj, hobj, hnonce⟩
    have hlast := (hmem high.tx.nonce).2 ⟨high, hhigh, rfl⟩
    rw [hnonces, List.mem_range'_1] at hfirst hlast
    refine (hmem n).1 ?_
    rw [hnonces, List.mem_range'_1]
    omega

/-- Numbers from one on, without gaps and not without end, are those up to some count. -/
theorem exists_count {offers : ℕ → Prop} {n bound : ℕ} (hlow : ∀ k, offers k → n ≤ k)
    (hhigh : ∀ k, offers k → k < bound) (hclosed : ∀ k j, offers k → n ≤ j → j < k → offers j) :
    ∃ count, ∀ k, offers k ↔ n ≤ k ∧ k < n + count := by
  classical
  have hend : ∃ count, ¬ offers (n + count) :=
    ⟨bound, fun hoffers => absurd (hhigh _ hoffers) (by omega)⟩
  refine ⟨Nat.find hend, fun k => ⟨fun hoffers => ⟨hlow k hoffers, ?_⟩, fun ⟨hle, hlt⟩ => ?_⟩⟩
  · by_contra hle
    rw [not_lt] at hle
    refine Nat.find_spec hend ?_
    rcases hle.lt_or_eq with hlt | heq
    · exact hclosed k _ hoffers (Nat.le_add_right _ _) hlt
    · rw [heq]
      exact hoffers
  · have hmin := Nat.find_min hend (show k - n < Nat.find hend by omega)
    rw [not_not, Nat.add_sub_cancel' hle] at hmin
    exact hmin

section

variable {set : TransactionsByPriceAndNonce} {account : Option Account}

theorem noncePrefix_of_paysInOrder
    (h : s.txsByPriceAndNonce getAccount options = .ok set)
    (haccount : getAccount address = .ok account)
    (hcontiguous : Contiguous (sortByNonce (s.list .pending address)))
    (horder : StartsAt (nonceOf account) (s.list .pending address) →
      PaysInOrder options (s.list .pending address)) :
    NoncePrefix set options address (nonceOf account) (s.list .pending address) := by
  have hoffered := @offered_iff_eligible s getAccount options address set h account haccount
    hcontiguous
  -- with a transaction, all of lower nonces are eligible
  have hdown : ∀ low ∈ s.list .pending address, ∀ high,
      Eligible options (nonceOf account) (s.list .pending address) high →
      low.tx.nonce < high.tx.nonce →
      Eligible options (nonceOf account) (s.list .pending address) low := by
    intro low hlow high hhigh hlt
    exact ⟨hlow, hhigh.starts,
      fun other hother hle => hhigh.maxFee other hother (hle.trans hlt.le),
      horder hhigh.starts low hlow high hhigh.mem hlt hhigh.maxFee hhigh.tip⟩
  refine ⟨?_, ?_, ?_, ?_⟩
  · let offers : ℕ → Prop := fun n =>
      ∃ txObj, Eligible options (nonceOf account) (s.list .pending address) txObj ∧
        txObj.tx.nonce = n
    have hiff : ∀ n, (∃ obj, set.Offered address obj ∧ obj.tx.nonce = n) ↔ offers n := by
      intro n
      constructor
      · rintro ⟨obj, hobj, rfl⟩
        obtain ⟨txObj, helig, rfl⟩ := hoffered.1 hobj
        exact ⟨txObj, helig, rfl⟩
      · rintro ⟨txObj, helig, rfl⟩
        exact ⟨minerObject txObj, hoffered.2 ⟨txObj, helig, rfl⟩, rfl⟩
    have hlow : ∀ n, offers n → nonceOf account ≤ n := by
      rintro n ⟨txObj, helig, rfl⟩
      exact helig.starts.le txObj helig.mem
    have hclosed : ∀ n k, offers n → nonceOf account ≤ k → k < n → offers k := by
      rintro n k ⟨high, helig, rfl⟩ hle hlt
      obtain ⟨low, hmem, rfl⟩ := exists_of_nonce_le hcontiguous helig.starts helig.mem hle hlt.le
      exact ⟨low, hdown low hmem high helig hlt, rfl⟩
    have hhigh : ∀ n, offers n → n < (nonces (s.list .pending address)).sum + 1 := by
      rintro n ⟨txObj, helig, rfl⟩
      exact Nat.lt_succ_of_le (List.single_le_sum (fun _ _ => Nat.zero_le _) _
        (List.mem_map_of_mem helig.mem))
    obtain ⟨count, hcount⟩ := exists_count hlow hhigh hclosed
    exact ⟨count, fun n => (hiff n).trans (hcount n)⟩
  · intro obj obj' hobj hobj' heq
    obtain ⟨txObj, helig, rfl⟩ := hoffered.1 hobj
    obtain ⟨txObj', helig', rfl⟩ := hoffered.1 hobj'
    rw [eq_of_nonce hcontiguous helig.mem helig'.mem heq]
  · intro obj hobj
    obtain ⟨txObj, helig, rfl⟩ := hoffered.1 hobj
    exact ⟨txObj.price, txObj.price_eq, helig.maxFee txObj helig.mem le_rfl, helig.tip⟩
  · intro txObj hmem hprice obj hobj
    obtain ⟨offered, helig, rfl⟩ := hoffered.1 hobj
    by_contra hle
    rw [not_lt] at hle
    have hnot : ¬ Eligible options (nonceOf account) (s.list .pending address) txObj := by
      intro helig'
      have hmaxFee := helig'.maxFee txObj hmem le_rfl
      have htip := helig'.tip
      omega
    rcases hle.lt_or_eq with hlt | heq
    · exact hnot (hdown txObj hmem offered helig hlt)
    · exact hnot (eq_of_nonce hcontiguous hmem helig.mem heq ▸ helig)

theorem NoncePrefix.paysInOrder
    (hstart : NoncePrefix set options address (nonceOf account) (s.list .pending address))
    (h : s.txsByPriceAndNonce getAccount options = .ok set)
    (haccount : getAccount address = .ok account)
    (hcontiguous : Contiguous (sortByNonce (s.list .pending address)))
    (hstarts : StartsAt (nonceOf account) (s.list .pending address)) :
    PaysInOrder options (s.list .pending address) := by
  intro low hlow high hhigh hlt hmaxFee htip
  have hoffered := @offered_iff_eligible s getAccount options address set h account haccount
    hcontiguous
  have helig : Eligible options (nonceOf account) (s.list .pending address) high :=
    ⟨hhigh, hstarts, hmaxFee, htip⟩
  obtain ⟨count, hrun⟩ := hstart.run
  have hlast := (hrun high.tx.nonce).1 ⟨minerObject high, hoffered.2 ⟨high, helig, rfl⟩, rfl⟩
  have hfirst := hstarts.le low hlow
  obtain ⟨obj, hobj, hnonce⟩ := (hrun low.tx.nonce).2 ⟨hfirst, by omega⟩
  obtain ⟨txObj, helig', rfl⟩ := hoffered.1 hobj
  rw [← eq_of_nonce hcontiguous helig'.mem hlow hnonce]
  exact helig'.tip

end

/-- **What is offered of the accounts are runs of nonces exactly when what pays the minimum comes
in order.** -/
theorem noncePrefix_iff (s : TxPool) (getAccount : Bytes20 → Except TxPoolError (Option Account))
    (options : SelectionOptions) (set : TransactionsByPriceAndNonce)
    (h : s.txsByPriceAndNonce getAccount options = .ok set)
    (hcontiguous : ∀ address, Contiguous (sortByNonce (s.list .pending address))) :
    (∀ address account, getAccount address = .ok account →
      NoncePrefix set options address (nonceOf account) (s.list .pending address)) ↔
    ∀ address account, getAccount address = .ok account →
      StartsAt (nonceOf account) (s.list .pending address) →
      PaysInOrder options (s.list .pending address) := by
  constructor
  · intro hall address account haccount hstarts
    exact (hall address account haccount).paysInOrder h haccount (hcontiguous address) hstarts
  · intro horder address account haccount
    exact noncePrefix_of_paysInOrder h haccount (hcontiguous address)
      (horder address account haccount)

/-- A pending transaction of a nonce and a gas price. -/
def samplePending (nonce gasPrice : ℕ) : TxPoolObject where
  tx := sampleTx nonce gasPrice 0
  hash := (sampleTx nonce gasPrice 0).hash
  added := 0
  price := ⟨gasPrice, gasPrice⟩
  hash_eq := rfl
  price_eq := rfl

/-- A sender who pays little first, and more after. -/
def sampleRising : TxPool :=
  new.setList .pending (repeated 0xaa) [samplePending 0 1, samplePending 1 5]

/-- New accounts only. -/
def sampleAccounts : Bytes20 → Except TxPoolError (Option Account) := fun _ => .ok none

theorem contiguous_sampleRising (address : Bytes20) :
    Contiguous (sortByNonce (sampleRising.list .pending address)) := by
  have hlist : sampleRising.list .pending address =
      if address = repeated 0xaa then [samplePending 0 1, samplePending 1 5] else [] :=
    JsMap.list_set .empty (repeated 0xaa) _ address
  rw [hlist]
  split
  · exact contiguous_of_range (show nonces _ = List.range' 0 2 from rfl)
  · exact List.isChain_nil

/-- With a minimum that both pay, both are offered. -/
theorem noncePrefix_iff_sampleRising :
    ∃ set, sampleRising.txsByPriceAndNonce sampleAccounts ⟨none, some 1, []⟩ = .ok set ∧
      ∀ address account, sampleAccounts address = .ok account →
        NoncePrefix set ⟨none, some 1, []⟩ address (nonceOf account)
          (sampleRising.list .pending address) := by
  refine ⟨_, rfl, (noncePrefix_iff sampleRising sampleAccounts ⟨none, some 1, []⟩ _ rfl
    contiguous_sampleRising).2 fun address account _ _ low hlow high _ _ _ _ => ?_⟩
  have hlist : sampleRising.list .pending address =
      if address = repeated 0xaa then [samplePending 0 1, samplePending 1 5] else [] :=
    JsMap.list_set .empty (repeated 0xaa) _ address
  rw [hlist] at hlow
  split at hlow
  · simp only [List.mem_cons, List.not_mem_nil, or_false] at hlow
    rcases hlow with rfl | rfl <;> decide
  · cases hlow

/-- **The first does not pay the minimum, and the second is offered.** -/
theorem sampleRising_not_noncePrefix :
    ¬ ∀ (s : TxPool) (getAccount : Bytes20 → Except TxPoolError (Option Account))
      (options : SelectionOptions) (set : TransactionsByPriceAndNonce),
      s.txsByPriceAndNonce getAccount options = .ok set →
      (∀ address, Contiguous (sortByNonce (s.list .pending address))) →
      ∀ address account, getAccount address = .ok account →
        NoncePrefix set options address (nonceOf account) (s.list .pending address) := by
  intro hall
  have hstart := hall sampleRising sampleAccounts ⟨none, some 3, []⟩ _ rfl contiguous_sampleRising
    (repeated 0xaa) none rfl
  have hset : sampleRising.txsByPriceAndNonce sampleAccounts ⟨none, some 3, []⟩ = .ok _ := rfl
  have horder := hstart.paysInOrder hset rfl (contiguous_sampleRising _)
    ⟨⟨samplePending 0 1, List.mem_cons_self, rfl⟩, fun obj _ => Nat.zero_le _⟩
  have htip := horder (samplePending 0 1) List.mem_cons_self (samplePending 1 5)
    (List.mem_cons_of_mem _ List.mem_cons_self) (by decide) (fun obj _ _ => Int.natCast_nonneg _)
    (by decide)
  exact absurd htip (by decide)

end TxPool

end TsEthereum
