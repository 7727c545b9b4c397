import TsEthereum.Common.BinaryHeap
import TsEthereum.TxPool.Pool

/-!
# The order transactions are mined in

`TransactionsByPriceAndNonce` (`miner/ordering.ts`): for each account the
transactions that wait, in the order of their nonces, and over their heads a
heap that is to give the one that pays most. What is left of an account is its
head, if the heap has one, and the rest in `txs` (`Holds`): `shift` takes the
head, `pop` the head and all behind it, and neither touches another account.

`comparBefore` lets the lower fee go before: it is written for a heap with its
largest value at the root, and `Heap` has there what goes before all else. So
`peek` returns a head that pays least, the last added of these, and it is a
best one only where the heads all pay the same and were added together
(`best_iff_level`).
-/

namespace TsEthereum

namespace Miner

/-- **A pooled transaction**, as much of it as is read here. -/
structure TxPoolObject where
  tx : TxManager
  added : ℕ
  deriving DecidableEq

/-- **A head**, with what its sender is called and what it pays. -/
structure TxWithMinerFee where
  txObj : TxPoolObject
  from_ : Bytes20
  fees : ℤ
  deriving DecidableEq

namespace TxWithMinerFee

def tx (head : TxWithMinerFee) : TxManager := head.txObj.tx

def added (head : TxWithMinerFee) : ℕ := head.txObj.added

end TxWithMinerFee

/-- **`comparBefore`**, of the heap of heads. -/
def comparBefore (a b : TxWithMinerFee) : Bool :=
  if a.fees > b.fees then false
  else if a.fees < b.fees then true
  else decide (a.added > b.added)

/-- What does not go before another pays no less, and at the same fee was not
added later. -/
theorem comparBefore_eq_false {a b : TxWithMinerFee} :
    comparBefore a b = false ↔ b.fees < a.fees ∨ a.fees = b.fees ∧ a.added ≤ b.added := by
  rw [comparBefore]
  split
  · simp only [true_iff]
    omega
  · split
    · simp only [Bool.true_eq_false, false_iff]
      omega
    · simp only [gt_iff_lt, decide_eq_false_iff_not]
      omega

instance : Ranking comparBefore where
  asymm := by
    intro a b hab
    have hab : ¬ comparBefore a b = false := by rw [hab]; decide
    rw [comparBefore_eq_false] at hab ⊢
    omega
  trans := by
    intro a b c hab hbc
    rw [comparBefore_eq_false] at hab hbc ⊢
    omega

/-- **The transactions to mine.** -/
structure TransactionsByPriceAndNonce where
  /-- Behind each head, the rest of its account. -/
  txs : JsMap Bytes20 (List TxPoolObject)
  /-- The next transaction of each account. -/
  heads : Heap comparBefore
  getGasPrice : TxManager → ℤ

namespace TransactionsByPriceAndNonce

variable {s : TransactionsByPriceAndNonce} {address : Bytes20}
variable {getGasPrice : TxManager → ℤ} {minGasPrice : ℤ}

/-- The transactions that pay at least the minimum. -/
def filterByPrice (getGasPrice : TxManager → ℤ) (minGasPrice : ℤ) (accTxObjs : List TxPoolObject) :
    List TxPoolObject :=
  accTxObjs.filter fun txObj => getGasPrice txObj.tx ≥ minGasPrice

/-- One account, in the loop of the constructor. -/
def collect (getGasPrice : TxManager → ℤ) (minGasPrice : ℤ)
    (acc : JsMap Bytes20 (List TxPoolObject) × List TxWithMinerFee)
    (entry : Bytes20 × List TxPoolObject) :
    JsMap Bytes20 (List TxPoolObject) × List TxWithMinerFee :=
  match filterByPrice getGasPrice minGasPrice entry.2 with
  | [] => acc
  | headTxObj :: rest =>
    (acc.1.set entry.1 rest, acc.2 ++ [⟨headTxObj, entry.1, getGasPrice headTxObj.tx⟩])

/-- **The constructor.** -/
def new (txsByAccount : JsMap Bytes20 (List TxPoolObject)) (getGasPrice : TxManager → ℤ)
    (minGasPrice : ℤ) : TransactionsByPriceAndNonce :=
  let collected := txsByAccount.entries.foldl (collect getGasPrice minGasPrice) (JsMap.empty, [])
  { txs := collected.1
    heads := collected.2.foldl Heap.insert (Heap.new comparBefore)
    getGasPrice := getGasPrice }

/-- **`peek`**: the head whose transaction and fee are returned. -/
def peek (s : TransactionsByPriceAndNonce) : Option TxWithMinerFee := s.heads.peek

/-- **`shift`**: the next of the account in the place of the head. -/
def shift (s : TransactionsByPriceAndNonce) : TransactionsByPriceAndNonce :=
  match s.heads.peek with
  | none => s
  | some head =>
    match s.txs.list head.from_ with
    | nextTxObj :: remainingTxObjs =>
      { s with
        heads := s.heads.remove.insert ⟨nextTxObj, head.from_, s.getGasPrice nextTxObj.tx⟩
        txs := s.txs.set head.from_ remainingTxObjs }
    | [] => { s with heads := s.heads.remove, txs := s.txs.delete head.from_ }

/-- **`pop`**: the head, and all behind it. -/
def pop (s : TransactionsByPriceAndNonce) : TransactionsByPriceAndNonce :=
  match s.heads.peek with
  | none => s
  | some head => { s with heads := s.heads.remove, txs := s.txs.delete head.from_ }

/-- What may be done with the transaction that `peek` returned. -/
inductive Take where
  | shift
  | pop
  deriving DecidableEq

/-- **A call.** -/
def step (s : TransactionsByPriceAndNonce) : Take → TransactionsByPriceAndNonce
  | .shift => s.shift
  | .pop => s.pop

/-- **A run of calls.** -/
def run (s : TransactionsByPriceAndNonce) (takes : List Take) : TransactionsByPriceAndNonce :=
  takes.foldl step s

/-- **Draining**: what `peek` returns, `shift` after `shift`, until all is empty
or as often as is said. -/
def drain : ℕ → TransactionsByPriceAndNonce → List TxWithMinerFee
  | 0, _ => []
  | n + 1, s =>
    match s.peek with
    | none => []
    | some head => head :: drain n s.shift

/-! ## What is left of an account -/

/-- The transactions of an account that are still to be returned. -/
def remaining (s : TransactionsByPriceAndNonce) (address : Bytes20) : List TxPoolObject :=
  match s.heads.list.find? fun head => head.from_ = address with
  | none => []
  | some head => head.txObj :: s.txs.list address

/-- **Each account's queue**, of which the first is a head and the others are in
`txs`. -/
structure Queued (txs : JsMap Bytes20 (List TxPoolObject)) (heads : List TxWithMinerFee)
    (getGasPrice : TxManager → ℤ) (queues : Bytes20 → List TxPoolObject) : Prop where
  head : ∀ head ∈ heads, queues head.from_ = head.txObj :: txs.list head.from_ ∧
    head.fees = getGasPrice head.tx
  account : ∀ address, queues address ≠ [] → ∃ head ∈ heads, head.from_ = address
  nodup : (heads.map TxWithMinerFee.from_).Nodup

/-- **The set holds the queues.** -/
def Holds (s : TransactionsByPriceAndNonce) (queues : Bytes20 → List TxPoolObject) : Prop :=
  Queued s.txs s.heads.list s.getGasPrice queues

variable {queues : Bytes20 → List TxPoolObject} {head : TxWithMinerFee}
variable {txs txs' : JsMap Bytes20 (List TxPoolObject)} {heads heads' : List TxWithMinerFee}

theorem Queued.perm (h : Queued txs heads getGasPrice queues) (hperm : heads.Perm heads') :
    Queued txs heads' getGasPrice queues where
  head := fun head hmem => h.head head (hperm.symm.subset hmem)
  account := fun address hqueue => by
    obtain ⟨head, hmem, hfrom⟩ := h.account address hqueue
    exact ⟨head, hperm.subset hmem, hfrom⟩
  nodup := (hperm.map TxWithMinerFee.from_).nodup_iff.1 h.nodup

theorem Queued.congr (h : Queued txs heads getGasPrice queues)
    (hlist : ∀ address, txs'.list address = txs.list address) :
    Queued txs' heads getGasPrice queues where
  head := fun head hmem => by
    rw [hlist]
    exact h.head head hmem
  account := h.account
  nodup := h.nodup

theorem Queued.taken (h : Queued txs (head :: heads) getGasPrice queues) :
    Queued (txs.delete head.from_) heads getGasPrice (Function.update queues head.from_ []) := by
  obtain ⟨hnotMem, hnodup⟩ := List.nodup_cons.1 h.nodup
  constructor
  · intro other hmem
    have hne : other.from_ ≠ head.from_ := fun heq => hnotMem (heq ▸ List.mem_map_of_mem hmem)
    rw [Function.update_of_ne hne, JsMap.list_delete, if_neg hne]
    exact h.head other (List.mem_cons_of_mem _ hmem)
  · intro address hqueue
    by_cases hne : address = head.from_
    · rw [hne, Function.update_self] at hqueue
      exact absurd rfl hqueue
    · rw [Function.update_of_ne hne] at hqueue
      obtain ⟨other, hmem, hfrom⟩ := h.account address hqueue
      rcases List.mem_cons.1 hmem with rfl | hmem
      · exact absurd hfrom.symm hne
      · exact ⟨other, hmem, hfrom⟩
  · exact hnodup

theorem Queued.put (h : Queued txs heads getGasPrice queues) (obj : TxPoolObject)
    (rest : List TxPoolObject) (hnotMem : address ∉ heads.map TxWithMinerFee.from_) :
    Queued (txs.set address rest) (⟨obj, address, getGasPrice obj.tx⟩ :: heads) getGasPrice
      (Function.update queues address (obj :: rest)) := by
  constructor
  · intro other hmem
    rcases List.mem_cons.1 hmem with rfl | hmem
    · rw [Function.update_self, JsMap.list_set, if_pos rfl]
      exact ⟨rfl, rfl⟩
    · have hne : other.from_ ≠ address := fun heq => hnotMem (heq ▸ List.mem_map_of_mem hmem)
      rw [Function.update_of_ne hne, JsMap.list_set, if_neg hne]
      exact h.head other hmem
  · intro other hqueue
    by_cases hne : other = address
    · exact ⟨_, List.mem_cons_self, hne.symm⟩
    · rw [Function.update_of_ne hne] at hqueue
      obtain ⟨head, hmem, hfrom⟩ := h.account other hqueue
      exact ⟨head, List.mem_cons_of_mem _ hmem, hfrom⟩
  · exact List.nodup_cons.2 ⟨hnotMem, h.nodup⟩

theorem Holds.remaining_eq (h : s.Holds queues) : s.remaining = queues := by
  funext address
  rw [remaining]
  cases hfind : s.heads.list.find? (fun head => head.from_ = address) with
  | none =>
    by_contra hne
    obtain ⟨head, hmem, hfrom⟩ := h.account address fun hnil => hne hnil.symm
    exact List.find?_eq_none.1 hfind head hmem (decide_eq_true hfrom)
  | some head =>
    have hfrom := List.find?_some hfind
    have hfrom : head.from_ = address := of_decide_eq_true hfrom
    rw [← hfrom, (h.head head (List.mem_of_find?_eq_some hfind)).1]

theorem Holds.queues_eq_nil (h : s.Holds queues) (hpeek : s.peek = none) :
    queues address = [] := by
  by_contra hne
  obtain ⟨head, hmem, -⟩ := h.account address hne
  rw [Heap.peek_eq_none.1 hpeek] at hmem
  cases hmem

theorem shift_of_peek_eq_none (h : s.peek = none) : s.shift = s := by
  rw [shift, ← peek, h]

theorem pop_of_peek_eq_none (h : s.peek = none) : s.pop = s := by
  rw [pop, ← peek, h]

theorem Holds.peeked (h : s.Holds queues) (hpeek : s.peek = some head) :
    queues head.from_ = head.txObj :: s.txs.list head.from_ :=
  (h.head head (List.mem_of_head? hpeek)).1

theorem Holds.pop (h : s.Holds queues) (hpeek : s.peek = some head) :
    s.pop.Holds (Function.update queues head.from_ []) := by
  have htaken := Queued.taken (h.perm (Heap.remove_perm hpeek).symm)
  rw [TransactionsByPriceAndNonce.pop, ← peek, hpeek]
  exact htaken

theorem Holds.shift (h : s.Holds queues) (hpeek : s.peek = some head) :
    s.shift.Holds (Function.update queues head.from_ (queues head.from_).tail) := by
  have hperm := Heap.remove_perm hpeek
  have htaken := Queued.taken (h.perm hperm.symm)
  have hnodup := (h.perm hperm.symm).nodup
  rw [List.map_cons, List.nodup_cons] at hnodup
  rw [h.peeked hpeek, List.tail_cons, TransactionsByPriceAndNonce.shift, ← peek, hpeek]
  dsimp only
  cases hlist : s.txs.list head.from_ with
  | nil => exact htaken
  | cons nextTxObj remainingTxObjs =>
    have hput := htaken.put nextTxObj remainingTxObjs hnodup.1
    rw [Function.update_idem] at hput
    refine (hput.perm Heap.insert_perm.symm).congr fun address => ?_
    rw [JsMap.list_set, JsMap.list_set, JsMap.list_delete]
    split
    · rfl
    · rfl

/-! ## The constructor -/

theorem queued_collect (getGasPrice : TxManager → ℤ) (minGasPrice : ℤ)
    (entries : List (Bytes20 × List TxPoolObject)) (hnodup : (entries.map Prod.fst).Nodup) :
    ∃ queues, (∀ address l, (address, l) ∈ entries →
        queues address = filterByPrice getGasPrice minGasPrice l) ∧
      (∀ address, address ∉ entries.map Prod.fst → queues address = []) ∧
      Queued (entries.foldl (collect getGasPrice minGasPrice) (JsMap.empty, [])).1
        (entries.foldl (collect getGasPrice minGasPrice) (JsMap.empty, [])).2 getGasPrice
        queues := by
  induction entries using List.reverseRecOn with
  | nil =>
    refine ⟨fun _ => [], fun _ _ hmem => absurd hmem List.not_mem_nil, fun _ _ => rfl, ?_⟩
    exact ⟨fun _ hmem => absurd hmem List.not_mem_nil, fun _ hne => absurd rfl hne, List.nodup_nil⟩
  | append_singleton entries entry ih =>
    rw [List.map_append, List.nodup_append] at hnodup
    obtain ⟨hnodup, -, hdisjoint⟩ := hnodup
    obtain ⟨queues, hqueue, hnone, hqueued⟩ := ih hnodup
    have hnotMem : entry.1 ∉ entries.map Prod.fst := fun hmem =>
      hdisjoint entry.1 hmem entry.1 (List.mem_singleton_self _) rfl
    rw [List.foldl_append, List.foldl_cons, List.foldl_nil, collect]
    generalize entries.foldl (collect getGasPrice minGasPrice) (JsMap.empty, []) = acc at *
    refine ⟨Function.update queues entry.1 (filterByPrice getGasPrice minGasPrice entry.2), ?_, ?_,
      ?_⟩
    · intro address l hmem
      rcases List.mem_append.1 hmem with hmem | hmem
      · have hne : address ≠ entry.1 := fun heq =>
          hnotMem (heq ▸ List.mem_map_of_mem (f := Prod.fst) hmem)
        rw [Function.update_of_ne hne]
        exact hqueue address l hmem
      · rw [← List.mem_singleton.1 hmem, Function.update_self]
    · intro address hout
      rw [List.map_append, List.mem_append, not_or] at hout
      have hne : address ≠ entry.1 := fun heq => hout.2 (List.mem_singleton.2 heq)
      rw [Function.update_of_ne hne]
      exact hnone address hout.1
    · split
      · rename_i hfilter
        rw [hfilter, ← hnone entry.1 hnotMem, Function.update_eq_self]
        exact hqueued
      · rename_i headTxObj rest hfilter
        have hhead : entry.1 ∉ acc.2.map TxWithMinerFee.from_ := by
          intro hmem
          obtain ⟨head, hmem, hfrom⟩ := List.mem_map.1 hmem
          have hqueue := (hqueued.head head hmem).1
          rw [hfrom, hnone entry.1 hnotMem] at hqueue
          cases hqueue
        rw [hfilter]
        exact (hqueued.put headTxObj rest hhead).perm (List.perm_append_singleton _ _).symm

theorem foldl_insert_perm (heads : List TxWithMinerFee) (heap : Heap comparBefore) :
    (heads.foldl Heap.insert heap).list.Perm (heads ++ heap.list) := by
  induction heads generalizing heap with
  | nil => exact .refl _
  | cons head heads ih =>
    refine (ih (heap.insert head)).trans ?_
    refine (Heap.insert_perm.append_left heads).trans ?_
    exact List.perm_middle

/-- **What a new set holds**: of each account, the transactions that pay at least
the minimum. -/
theorem new_holds (txsByAccount : JsMap Bytes20 (List TxPoolObject))
    (getGasPrice : TxManager → ℤ) (minGasPrice : ℤ) :
    (new txsByAccount getGasPrice minGasPrice).Holds
      fun address => filterByPrice getGasPrice minGasPrice (txsByAccount.list address) := by
  obtain ⟨queues, hqueue, hnone, hqueued⟩ :=
    queued_collect getGasPrice minGasPrice txsByAccount.entries txsByAccount.nodup
  have hqueues : queues =
      fun address => filterByPrice getGasPrice minGasPrice (txsByAccount.list address) := by
    funext address
    cases hget : txsByAccount.get address with
    | none =>
      rw [hnone address (JsMap.get_eq_none.1 hget), JsMap.list, hget]
      rfl
    | some l =>
      rw [hqueue address l (JsMap.get_eq_some.1 hget), JsMap.list, hget]
      rfl
  rw [← hqueues]
  refine hqueued.perm ((foldl_insert_perm _ _).trans ?_).symm
  rw [Heap.new, List.append_nil]

/-! ## Runs -/

theorem Holds.step (h : s.Holds queues) (take : Take) : ∃ queues', (s.step take).Holds queues' := by
  cases hpeek : s.peek with
  | none =>
    refine ⟨queues, ?_⟩
    cases take with
    | shift => rwa [TransactionsByPriceAndNonce.step, shift_of_peek_eq_none hpeek]
    | pop => rwa [TransactionsByPriceAndNonce.step, pop_of_peek_eq_none hpeek]
  | some head =>
    cases take with
    | shift => exact ⟨_, h.shift hpeek⟩
    | pop => exact ⟨_, h.pop hpeek⟩

theorem Holds.run (h : s.Holds queues) (takes : List Take) :
    ∃ queues', (s.run takes).Holds queues' := by
  induction takes generalizing s queues with
  | nil => exact ⟨queues, h⟩
  | cons take takes ih =>
    obtain ⟨queues', h'⟩ := h.step take
    exact ih h'

/-- How many transactions the queues of some accounts have. -/
def left (addresses : List Bytes20) (queues : Bytes20 → List TxPoolObject) : ℕ :=
  (addresses.flatMap queues).length

theorem left_update (queues : Bytes20 → List TxPoolObject) {addresses : List Bytes20} (hnodup : addresses.Nodup)
    (hmem : address ∈ addresses) (queue : List TxPoolObject) :
    left addresses (Function.update queues address queue) + (queues address).length =
      left addresses queues + queue.length := by
  induction addresses with
  | nil => cases hmem
  | cons first addresses ih =>
    obtain ⟨hnotMem, hnodup⟩ := List.nodup_cons.1 hnodup
    rw [left, left, List.flatMap_cons, List.flatMap_cons, List.length_append, List.length_append]
    rcases List.mem_cons.1 hmem with rfl | hmem
    · have hrest : addresses.flatMap (Function.update queues address queue) =
          addresses.flatMap queues := by
        refine List.flatMap_congr fun other hother => Function.update_of_ne ?_ _ _
        rintro rfl
        exact hnotMem hother
      rw [hrest, Function.update_self]
      omega
    · have ih := ih hnodup hmem
      have hne : first ≠ address := by
        rintro rfl
        exact hnotMem hmem
      rw [left, left] at ih
      rw [Function.update_of_ne hne]
      omega

theorem Holds.drain (h : s.Holds queues) {addresses : List Bytes20} (hnodup : addresses.Nodup)
    (hall : ∀ address, queues address ≠ [] → address ∈ addresses) {n : ℕ}
    (hn : left addresses queues ≤ n) (address : Bytes20) :
    ((drain n s).filter fun head => head.from_ = address).map TxWithMinerFee.txObj =
      queues address := by
  induction n generalizing s queues with
  | zero =>
    by_cases hqueue : queues address = []
    · rw [hqueue]
      rfl
    · have hupdate := left_update queues hnodup (hall address hqueue) []
      have := List.length_pos_iff.2 hqueue
      rw [List.length_nil] at hupdate
      omega
  | succ n ih =>
    rw [TransactionsByPriceAndNonce.drain]
    cases hpeek : s.peek with
    | none =>
      rw [h.queues_eq_nil hpeek]
      rfl
    | some head =>
      have hqueue := h.peeked hpeek
      have hmem : head.from_ ∈ addresses := hall _ (by rw [hqueue]; exact List.cons_ne_nil _ _)
      have hupdate := left_update queues hnodup hmem (queues head.from_).tail
      rw [hqueue, List.tail_cons, List.length_cons] at hupdate
      have ih := ih (h.shift hpeek) (fun other hother => ?_) ?_
      · dsimp only
        by_cases hfrom : head.from_ = address
        · subst hfrom
          rw [List.filter_cons_of_pos (by simp), List.map_cons, ih, Function.update_self, hqueue,
            List.tail_cons]
        · rw [List.filter_cons_of_neg (by simp [hfrom]), ih, Function.update_of_ne (Ne.symm hfrom)]
      · by_cases hfrom : other = head.from_
        · rw [hfrom]
          exact hmem
        · rw [Function.update_of_ne hfrom] at hother
          exact hall other hother
      · rw [hqueue, List.tail_cons]
        omega

/-! ## The best head -/

/-- **What `peek` returns is a best head**: no account's first transaction pays
more, and none that pays the same was added earlier. -/
def Best (s : TransactionsByPriceAndNonce) : Prop :=
  ∀ head, s.peek = some head → ∀ address obj rest, s.remaining address = obj :: rest →
    s.getGasPrice obj.tx ≤ s.getGasPrice head.tx ∧
      (s.getGasPrice obj.tx = s.getGasPrice head.tx → head.added ≤ obj.added)

/-- **The accounts' first transactions are level**: they pay the same and were added
at the same time. -/
def Level (s : TransactionsByPriceAndNonce) : Prop :=
  ∀ address obj rest address' obj' rest', s.remaining address = obj :: rest →
    s.remaining address' = obj' :: rest' →
      s.getGasPrice obj.tx = s.getGasPrice obj'.tx ∧ obj.added = obj'.added

theorem Holds.peek_least (h : s.Holds queues) (hpeek : s.peek = some head) {obj : TxPoolObject}
    {rest : List TxPoolObject} (hobj : s.remaining address = obj :: rest) :
    s.getGasPrice head.tx < s.getGasPrice obj.tx ∨
      s.getGasPrice obj.tx = s.getGasPrice head.tx ∧ obj.added ≤ head.added := by
  rw [h.remaining_eq] at hobj
  obtain ⟨other, hmem, hfrom⟩ := h.account address (by rw [hobj]; exact List.cons_ne_nil _ _)
  obtain ⟨hqueue, hfees⟩ := h.head other hmem
  rw [hfrom, hobj, List.cons.injEq] at hqueue
  have hfirst := comparBefore_eq_false.1 (Heap.peek_first hpeek hmem)
  rw [hfees, (h.head head (List.mem_of_head? hpeek)).2] at hfirst
  rw [hqueue.1]
  exact hfirst

theorem Holds.best_iff_level (h : s.Holds queues) : s.Best ↔ s.Level := by
  constructor
  · intro hbest
    cases hpeek : s.peek with
    | none =>
      intro address obj rest _ _ _ hobj
      rw [h.remaining_eq, h.queues_eq_nil hpeek] at hobj
      cases hobj
    | some head =>
      have hlevel : ∀ address obj rest, s.remaining address = obj :: rest →
          s.getGasPrice obj.tx = s.getGasPrice head.tx ∧ obj.added = head.added := by
        intro address obj rest hobj
        have hmost := hbest head hpeek address obj rest hobj
        have hleast := h.peek_least hpeek hobj
        omega
      intro address obj rest address' obj' rest' hobj hobj'
      have hleft := hlevel address obj rest hobj
      have hright := hlevel address' obj' rest' hobj'
      omega
  · intro hlevel head hpeek address obj rest hobj
    have hhead : s.remaining head.from_ = head.txObj :: s.txs.list head.from_ := by
      rw [h.remaining_eq]
      exact h.peeked hpeek
    obtain ⟨hprice, hadded⟩ := hlevel _ _ _ _ _ _ hobj hhead
    exact ⟨hprice.le, fun _ => hadded.ge⟩

/-! ## The order of a whole set -/

/-- The queues of a new set have no more transactions than the lists it is made of. -/
theorem left_filter_le (getGasPrice : TxManager → ℤ) (minGasPrice : ℤ)
    (txsByAccount : JsMap Bytes20 (List TxPoolObject)) :
    left txsByAccount.keys
      (fun address => filterByPrice getGasPrice minGasPrice (txsByAccount.list address)) ≤
      txsByAccount.size := by
  have hle : ∀ entries : List (Bytes20 × List TxPoolObject), (∀ e ∈ entries, e ∈ txsByAccount.entries) →
      ((entries.map Prod.fst).flatMap fun address =>
        filterByPrice getGasPrice minGasPrice (txsByAccount.list address)).length ≤
      (entries.flatMap Prod.snd).length := by
    intro entries hmem
    induction entries with
    | nil => exact le_rfl
    | cons e entries ih =>
      have ih := ih (List.forall_mem_cons.1 hmem).2
      have hlist : txsByAccount.list e.1 = e.2 :=
        JsMap.list_of_mem_entries (hmem e List.mem_cons_self)
      have hfilter : (filterByPrice getGasPrice minGasPrice e.2).length ≤ e.2.length :=
        List.length_filter_le _ _
      rw [List.map_cons, List.flatMap_cons, List.flatMap_cons, List.length_append,
        List.length_append, hlist]
      omega
  exact hle txsByAccount.entries fun _ he => he

/-- **The set gives its transactions in their order**, with no minimum price. -/
structure Orders (txsByAccount : JsMap Bytes20 (List TxPoolObject))
    (getGasPrice : TxManager → ℤ) : Prop where
  /-- Draining returns every transaction once, those of an account in the order of
  its list. -/
  drained : ∀ n, txsByAccount.size ≤ n → ∀ address,
    ((drain n (new txsByAccount getGasPrice 0)).filter fun head => head.from_ = address).map
      TxWithMinerFee.txObj = txsByAccount.list address
  /-- At every step `peek` returns a best head. -/
  best : ∀ takes, ((new txsByAccount getGasPrice 0).run takes).Best
  /-- `shift` drops what `peek` returned, the first of its account, and nothing else. -/
  shifted : ∀ takes head, ((new txsByAccount getGasPrice 0).run takes).peek = some head →
    ∃ rest, ((new txsByAccount getGasPrice 0).run takes).remaining head.from_ =
        head.txObj :: rest ∧
      ((new txsByAccount getGasPrice 0).run takes).shift.remaining =
        Function.update ((new txsByAccount getGasPrice 0).run takes).remaining head.from_ rest
  /-- `pop` drops all that is left of the account, and nothing else. -/
  popped : ∀ takes head, ((new txsByAccount getGasPrice 0).run takes).peek = some head →
    ((new txsByAccount getGasPrice 0).run takes).pop.remaining =
      Function.update ((new txsByAccount getGasPrice 0).run takes).remaining head.from_ []

/-- **The transactions come in their order** exactly where none pays less than
nothing and, whatever has been taken, the accounts' first transactions are level. -/
theorem orders_iff (txsByAccount : JsMap Bytes20 (List TxPoolObject))
    (getGasPrice : TxManager → ℤ) :
    Orders txsByAccount getGasPrice ↔
      (∀ address, ∀ obj ∈ txsByAccount.list address, 0 ≤ getGasPrice obj.tx) ∧
        ∀ takes, ((new txsByAccount getGasPrice 0).run takes).Level := by
  have hnew := new_holds txsByAccount getGasPrice 0
  have hdrained : ∀ n, txsByAccount.size ≤ n → ∀ address,
      ((drain n (new txsByAccount getGasPrice 0)).filter fun head => head.from_ = address).map
        TxWithMinerFee.txObj = filterByPrice getGasPrice 0 (txsByAccount.list address) := by
    intro n hn address
    refine hnew.drain txsByAccount.nodup (fun other hother => ?_)
      ((left_filter_le getGasPrice 0 txsByAccount).trans hn) address
    by_contra hnotMem
    refine hother ?_
    rw [JsMap.list, JsMap.get_eq_none.2 hnotMem]
    rfl
  constructor
  · intro h
    constructor
    · intro address obj hobj
      have hfilter := (hdrained _ le_rfl address).symm.trans (h.drained _ le_rfl address)
      rw [← hfilter] at hobj
      exact of_decide_eq_true (List.mem_filter.1 hobj).2
    · intro takes
      obtain ⟨queues, hqueues⟩ := hnew.run takes
      exact hqueues.best_iff_level.1 (h.best takes)
  · rintro ⟨hprice, hlevel⟩
    constructor
    · intro n hn address
      rw [hdrained n hn address]
      exact List.filter_eq_self.2 fun obj hobj => decide_eq_true (hprice address obj hobj)
    · intro takes
      obtain ⟨queues, hqueues⟩ := hnew.run takes
      exact hqueues.best_iff_level.2 (hlevel takes)
    · intro takes head hpeek
      obtain ⟨queues, hqueues⟩ := hnew.run takes
      refine ⟨((new txsByAccount getGasPrice 0).run takes).txs.list head.from_, ?_, ?_⟩
      · rw [hqueues.remaining_eq]
        exact hqueues.peeked hpeek
      · have hshift := hqueues.shift hpeek
        rw [hqueues.peeked hpeek, List.tail_cons] at hshift
        rw [hshift.remaining_eq, hqueues.remaining_eq]
    · intro takes head hpeek
      obtain ⟨queues, hqueues⟩ := hnew.run takes
      rw [(hqueues.pop hpeek).remaining_eq, hqueues.remaining_eq]

/-- A transaction of an account, at a gas price. -/
def sampleObject (address : Bytes20) (gasPrice : ℕ) : TxPoolObject where
  tx :=
    { hash := ⟨List.replicate 32 0, List.length_replicate⟩, isSigned := true
      getSenderAddress := some address, nonce := 0, gasLimit := 21000, value := 0
      dataLength := 0, type := .legacy gasPrice }
  added := 0

/-- What the pool gives as `getGasPrice`, of a transaction for which it is defined. -/
def tip (tx : TxManager) : ℤ :=
  match tx.type.gasPrice with
  | some price => price.tip
  | none => 0

/-- Two accounts, of which the first pays less. -/
def sampleTxs : JsMap Bytes20 (List TxPoolObject) :=
  ((JsMap.empty : JsMap Bytes20 (List TxPoolObject)).set (repeated 1)
    [sampleObject (repeated 1) 5]).set (repeated 2) [sampleObject (repeated 2) 9]

/-- **The head that pays less is returned first.** -/
theorem sample_not_orders : ¬ Orders sampleTxs tip := by
  intro h
  have hpeek : ((new sampleTxs tip 0).run []).peek =
      some ⟨sampleObject (repeated 1) 5, repeated 1, 5⟩ := by decide
  have hremaining : ((new sampleTxs tip 0).run []).remaining (repeated 2) =
      [sampleObject (repeated 2) 9] := by decide
  have hbest := (h.best [] _ hpeek _ _ _ hremaining).1
  exact absurd hbest (by decide)

end TransactionsByPriceAndNonce

end Miner

end TsEthereum
