import TsEthereum.TxPool.Calls

/-!
# The nonces of the pending transactions

While the accounts stay as they are, the pending transactions of a sender have
the nonces from the account's on, one after the other (`InSequence`). A new one
goes to `pending` where it is the next or has the account's nonce, and
promotions append the next ones. Only what takes transactions out can leave a
gap: `removeByHash`, on which the evictions rest, and `cleanup` do not where
they take the last ones of a list (`pending_contiguous`), and do otherwise
(`pending_not_contiguous`).
-/

namespace TsEthereum

namespace TxPool

variable {s s' : TxPool} {pool pool' : PoolType} {address address' : Bytes20}
variable {objs : List TxPoolObject} {txs : Set TxManager} {chain : ChainView} {tx : TxManager}

/-- The nonces of a list. -/
def nonces (objs : List TxPoolObject) : List ℕ := objs.map fun obj => obj.tx.nonce

/-- **A list without gaps**: each nonce is the one before it and one more. -/
def Contiguous (objs : List TxPoolObject) : Prop :=
  (nonces objs).IsChain fun nonce next => next = nonce + 1

theorem contiguous_of_range {nonce : ℕ} (h : nonces objs = List.range' nonce objs.length) :
    Contiguous objs := by
  rw [Contiguous, h]
  exact List.isChain_range' _ _ _

/-! ## Sorted lists -/

theorem nonces_sortByNonce (objs : List TxPoolObject) :
    nonces (sortByNonce objs) = (nonces objs).insertionSort (· ≤ ·) := by
  rw [nonces, nonces, sortByNonce]
  exact List.map_insertionSort (fun a b : TxPoolObject => a.tx.nonce ≤ b.tx.nonce) (· ≤ ·)
    (fun obj => obj.tx.nonce) objs fun _ _ _ _ => Iff.rfl

theorem nodup_sortByNonce : (nonces (sortByNonce objs)).Nodup ↔ (nonces objs).Nodup :=
  ((sortByNonce_perm objs).map _).nodup_iff

theorem insertionSort_of_perm_range' {numbers : List ℕ} {n k : ℕ}
    (h : numbers.Perm (List.range' n k)) : numbers.insertionSort (· ≤ ·) = List.range' n k :=
  List.Perm.eq_of_sortedLE List.sortedLE_insertionSort (List.sortedLE_range' n k 1)
    ((List.perm_insertionSort _ _).trans h)

theorem nonces_sortByNonce_of_perm {n k : ℕ} (h : (nonces objs).Perm (List.range' n k)) :
    nonces (sortByNonce objs) = List.range' n k := by
  rw [nonces_sortByNonce, insertionSort_of_perm_range' h]

theorem maxNonce_of_range {n : ℕ} (h : nonces objs = List.range' n objs.length) :
    maxNonce objs = if objs = [] then none else some (n + objs.length - 1) := by
  cases objs with
  | nil => rfl
  | cons obj objs =>
    rw [nonces, List.map_cons, List.length_cons, List.range'_succ, List.cons.injEq] at h
    obtain ⟨hhead, htail⟩ := h
    have hfold : ∀ (objs : List TxPoolObject) (m : ℕ),
        objs.map (fun obj => obj.tx.nonce) = List.range' (m + 1) objs.length →
        objs.foldl (fun max obj => if obj.tx.nonce > max then obj.tx.nonce else max) m =
          m + objs.length := by
      intro objs
      induction objs with
      | nil =>
        intro m _
        rfl
      | cons obj objs ih =>
        intro m hm
        rw [List.map_cons, List.length_cons, List.range'_succ, List.cons.injEq] at hm
        rw [List.foldl_cons, if_pos (by omega), hm.1, ih _ hm.2, List.length_cons]
        omega
    rw [maxNonce, hhead, hfold objs n htail, if_neg (by simp), List.length_cons]
    rfl

theorem nextExpectedNonce_of_range {n : ℕ} (h : nonces objs = List.range' n objs.length) :
    nextExpectedNonce n objs = n + objs.length := by
  rw [nextExpectedNonce, maxNonce_of_range h]
  cases objs with
  | nil => rfl
  | cons obj objs =>
    simp only [reduceCtorEq, if_false, List.length_cons]
    omega

theorem nonces_toPromote (accountNonce next : ℕ) (objs : List TxPoolObject) :
    nonces (promotion accountNonce next objs).toPromote =
      List.range' next (promotion accountNonce next objs).toPromote.length := by
  induction objs generalizing next with
  | nil => rfl
  | cons obj objs ih =>
    rw [promotion]
    split
    · rename_i hnext
      have h := ih (obj.tx.nonce + 1)
      rw [nonces] at h ⊢
      rw [List.map_cons, List.length_cons, List.range'_succ, h, hnext]
    · split
      · exact ih next
      · exact ih next

theorem remaining_sublist (accountNonce next : ℕ) (objs : List TxPoolObject) :
    (promotion accountNonce next objs).remaining.Sublist objs := by
  induction objs generalizing next with
  | nil => exact List.Sublist.refl _
  | cons obj objs ih =>
    rw [promotion]
    split
    · exact (ih _).cons obj
    · split
      · exact (ih _).cons obj
      · exact (ih _).cons_cons obj

theorem nonces_of_prefix {objs' : List TxPoolObject} {n : ℕ}
    (h : nonces objs = List.range' n objs.length) (hpre : objs' <+: objs) :
    nonces objs' = List.range' n objs'.length := by
  have hlength := hpre.length_le
  rw [List.prefix_iff_eq_take.1 hpre, nonces, List.map_take, ← nonces, h,
    List.take_range'_of_length_ge hlength, List.length_take, min_eq_left hlength]

theorem sortByNonce_of_range {n : ℕ} (h : nonces objs = List.range' n objs.length) :
    sortByNonce objs = objs := by
  refine List.Pairwise.insertionSort_eq ?_
  have hsorted : (nonces objs).Pairwise (· ≤ ·) := by
    rw [h]
    exact List.pairwise_le_range' 1
  exact List.pairwise_map.1 hsorted

theorem find_nonce (hnodup : (nonces objs).Nodup) {obj : TxPoolObject} (hobj : obj ∈ objs) :
    objs.find? (fun poolObj => poolObj.tx.nonce = obj.tx.nonce) = some obj := by
  cases hfind : objs.find? (fun poolObj => poolObj.tx.nonce = obj.tx.nonce) with
  | none =>
    rw [List.find?_eq_none] at hfind
    exact absurd (decide_eq_true rfl) (hfind obj hobj)
  | some obj' =>
    have hkey := List.find?_some hfind
    rw [List.inj_on_of_nodup_map hnodup (List.mem_of_find?_eq_some hfind) hobj
      (of_decide_eq_true hkey)]

/-! ## The invariant -/

/-- **The chain reports one state of the accounts.** -/
structure Reports (state : Bytes20 → Account) (chain : ChainView) : Prop where
  head : ∀ address account, chain.headAccount address = .ok account → account = state address
  vm : ∀ accounts, chain.vmAccounts = .ok (some accounts) →
    ∀ address account, accounts address = .ok account → account = state address

/-- **What is pending is in sequence**, from the account's nonce on, and what is queued
is later. -/
structure InSequence (state : Bytes20 → Account) (txs : Set TxManager) (s : TxPool) : Prop where
  filed : Filed txs s
  pending : ∀ address, nonces (s.list .pending address) =
    List.range' (state address).nonce (s.list .pending address).length
  cached : ∀ address nonce, s.accountNonces address = some nonce → nonce = (state address).nonce
  affordable : ∀ pool address, ∀ obj ∈ s.list pool address, cost obj ≤ (state address).balance
  later : ∀ address, ∀ obj ∈ s.list .queued address, (state address).nonce < obj.tx.nonce
  queued : ∀ address, (nonces (s.list .queued address)).Nodup
  apart : ∀ address, ∀ obj ∈ s.list .pending address, ∀ obj' ∈ s.list .queued address,
    obj.hash ≠ obj'.hash

variable {state : Bytes20 → Account}

theorem inSequence_new : InSequence state txs new where
  filed := filed_new
  pending _ := rfl
  cached _ _ h := by cases h
  affordable _ _ _ hobj := by cases hobj
  later _ _ hobj := by cases hobj
  queued _ := List.nodup_nil
  apart _ _ hobj := by cases hobj

/-- **Fewer transactions are still in sequence**, where the last ones of the pending lists
are gone. -/
theorem InSequence.shrink (h : InSequence state txs s)
    (hpending : ∀ address, s'.list .pending address <+: s.list .pending address)
    (hqueued : ∀ address, (s'.list .queued address).Sublist (s.list .queued address))
    (hcached : ∀ address nonce, s'.accountNonces address = some nonce →
      nonce = (state address).nonce) : InSequence state txs s' := by
  have hmem : ∀ pool address obj, obj ∈ s'.list pool address → obj ∈ s.list pool address := by
    intro pool address obj hobj
    cases pool with
    | pending => exact (hpending address).subset hobj
    | queued => exact (hqueued address).subset hobj
  exact {
    filed := ⟨fun pool address obj hobj => h.filed.sender _ _ _ (hmem pool address obj hobj),
      fun pool address obj hobj => h.filed.offered _ _ _ (hmem pool address obj hobj)⟩
    pending := fun address => nonces_of_prefix (h.pending address) (hpending address)
    cached := hcached
    affordable := fun pool address obj hobj => h.affordable _ _ _ (hmem pool address obj hobj)
    later := fun address obj hobj => h.later _ _ (hmem .queued address obj hobj)
    queued := fun address => (h.queued address).sublist ((hqueued address).map _)
    apart := fun address obj hobj obj' hobj' =>
      h.apart address _ (hmem .pending address obj hobj) _ (hmem .queued address obj' hobj') }

theorem InSequence.congr (h : InSequence state txs s) (hlist : s'.list = s.list)
    (hcached : ∀ address nonce, s'.accountNonces address = some nonce →
      nonce = (state address).nonce) : InSequence state txs s' :=
  h.shrink (fun address => by rw [hlist]) (fun address => by rw [hlist]) hcached

theorem InSequence.nodup_pending (h : InSequence state txs s) (address : Bytes20) :
    (nonces (s.list .pending address)).Nodup := by
  rw [h.pending]
  exact List.nodup_range' 1

theorem Filed.eq_of_nonces (h : Filed txs s) (hhash : Set.InjOn TxManager.hash txs)
    (hnodup : (nonces (s.list pool address)).Nodup) {obj obj' : TxPoolObject}
    (hobj : obj ∈ s.list pool address) (hobj' : obj' ∈ s.list pool address)
    (heq : obj.hash = obj'.hash) : obj = obj' := by
  have htx : obj.tx = obj'.tx := hhash (h.offered _ _ _ hobj) (h.offered _ _ _ hobj')
    (by rw [← obj.hash_eq, ← obj'.hash_eq, heq])
  exact List.inj_on_of_nodup_map hnodup hobj hobj' (by rw [htx])

theorem InSequence.getNonce (h : InSequence state txs s) (hreports : Reports state chain)
    {nonce : ℕ} (hnonce : s.getNonce chain address = .ok (nonce, s')) :
    InSequence state txs s' ∧ nonce = (state address).nonce := by
  obtain ⟨-, hself, hothers, hread⟩ := getNonce_cases hnonce
  have heq : nonce = (state address).nonce := by
    rcases hread with hread | ⟨-, account, haccount, rfl⟩
    · exact h.cached _ _ hread
    · rw [hreports.head _ _ haccount]
  refine ⟨h.congr (getNonce_list hnonce) fun address' nonce' hcached => ?_, heq⟩
  by_cases haddress : address' = address
  · subst haddress
    rw [hself] at hcached
    rw [← Option.some.inj hcached, heq]
  · rw [hothers _ haddress] at hcached
    exact h.cached _ _ hcached

/-! ## Removals -/

/-- **A transaction that is pending is the last of its list.** -/
def LastOfPending (s : TxPool) (hash : Bytes32) : Prop :=
  ∀ address, ∀ obj ∈ s.list .pending address, obj.hash = hash →
    ∃ before, s.list .pending address = before ++ [obj]

theorem InSequence.removeByHash (h : InSequence state txs s) {hash : Bytes32}
    (hlast : s.LastOfPending hash) : InSequence state txs (s.removeByHash hash) := by
  refine h.shrink (fun address => ?_) (fun address => ?_) ?_
  · rcases list_removeByHash s hash .pending address with heq | heq
    · rw [heq]
    · rw [heq]
      by_cases hany : ∃ obj ∈ s.list .pending address, obj.hash = hash
      · obtain ⟨obj, hobj, hobjhash⟩ := hany
        obtain ⟨before, hlist⟩ := hlast address obj hobj hobjhash
        have hnodup := (h.nodup_pending address).of_map
        rw [hlist] at hnodup
        have hbefore : ∀ obj' ∈ before, obj'.hash ≠ hash := by
          intro obj' hobj' heq'
          obtain ⟨before', hlist'⟩ := hlast address obj'
            (by rw [hlist]; exact List.mem_append_left _ hobj') heq'
          rw [hlist, List.append_singleton_inj] at hlist'
          rw [← hlist'.2] at hobj'
          exact (List.nodup_append.1 hnodup).2.2 obj hobj' obj (List.mem_singleton_self _) rfl
        rw [hlist, List.filter_append, List.filter_eq_self.2 fun o ho => decide_eq_true (hbefore o ho)]
        rw [List.filter_cons_of_neg (by simp [hobjhash]), List.filter_nil, List.append_nil]
        exact List.prefix_append _ _
      · have hnone : ∀ obj ∈ s.list .pending address, obj.hash ≠ hash :=
          fun obj hobj heq' => hany ⟨obj, hobj, heq'⟩
        rw [List.filter_eq_self.2 fun obj hobj => decide_eq_true (hnone obj hobj)]
  · rcases list_removeByHash s hash .queued address with heq | heq
    · rw [heq]
    · rw [heq]
      exact List.filter_sublist
  · rw [accountNonces_removeByHash]
    exact h.cached

/-- **The evictions from `pending` take the last of a list**, as long as there are any. -/
def EvictsLast : ℕ → TxPool → Prop
  | 0, _ => True
  | turns + 1, s => s.counts .pending > GLOBAL_SLOTS → ∀ lowestTx,
    s.lowestPriced .pending = some lowestTx →
      s.LastOfPending lowestTx.hash ∧ EvictsLast turns (s.removeByHash lowestTx.hash)

theorem InSequence.evictPending {turns : ℕ} {s : TxPool} (h : InSequence state txs s)
    (hevicts : EvictsLast turns s) :
    InSequence state txs (enforceLimit .pending GLOBAL_SLOTS turns s) := by
  induction turns generalizing s with
  | zero => exact h
  | succ turns ih =>
    rw [enforceLimit, evictLowestPriced]
    split
    · rename_i hover
      cases hlowest : s.lowestPriced .pending with
      | none => exact h
      | some lowestTx =>
        obtain ⟨hlast, hrest⟩ := hevicts hover lowestTx hlowest
        exact ih (h.removeByHash hlast) hrest
    · exact h

theorem InSequence.lastOfPending_of_queued (h : InSequence state txs s)
    (hhash : Set.InjOn TxManager.hash txs) {txObj : TxPoolObject}
    (hobj : txObj ∈ s.list .queued address) : s.LastOfPending txObj.hash := by
  intro address' obj hpending heq
  obtain rfl := h.filed.address_eq hhash hpending hobj heq
  exact absurd heq (h.apart _ _ hpending _ hobj)

theorem InSequence.evictQueued (hhash : Set.InjOn TxManager.hash txs) (limit : ℤ) {turns : ℕ}
    {s : TxPool} (h : InSequence state txs s) :
    InSequence state txs (enforceLimit .queued limit turns s) := by
  induction turns generalizing s with
  | zero => exact h
  | succ turns ih =>
    rw [enforceLimit, evictLowestPriced]
    split
    · cases hlowest : s.lowestPriced .queued with
      | none => exact h
      | some lowestTx =>
        obtain ⟨⟨address, hobj⟩, -⟩ := lowestPriced_mem hlowest
        exact ih (h.removeByHash (h.lastOfPending_of_queued hhash hobj))
    · exact h

/-! ## Promotions and demotions -/

theorem InSequence.promote (hhash : Set.InjOn TxManager.hash txs) (h : InSequence state txs s)
    (address : Bytes20) : InSequence state txs (s.promote (state address).nonce address) := by
  have hqueued := s.queued_perm (state address).nonce address
  have hpromoted := nonces_toPromote (state address).nonce
    (nextExpectedNonce (state address).nonce (s.list .pending address))
    (sortByNonce (s.list .queued address))
  rw [nextExpectedNonce_of_range (h.pending address)] at hpromoted
  have hsorted : s.sortedOut (state address).nonce address =
      promotion (state address).nonce ((state address).nonce + (s.list .pending address).length)
        (sortByNonce (s.list .queued address)) := by
    rw [sortedOut, nextExpectedNonce_of_range (h.pending address)]
  have hperm := promotedList_perm s address (s.sortedOut (state address).nonce address).toPromote
  have hrange : nonces (s.promotedList address (s.sortedOut (state address).nonce address).toPromote) =
      List.range' (state address).nonce
        (s.promotedList address (s.sortedOut (state address).nonce address).toPromote).length := by
    rw [hperm.length_eq, List.length_append, promotedList]
    split
    · rename_i hnil
      rw [List.isEmpty_iff.1 hnil, List.length_nil, Nat.add_zero]
      exact h.pending address
    · refine nonces_sortByNonce_of_perm (List.Perm.of_eq ?_)
      rw [nonces, List.map_append, ← nonces, ← nonces, h.pending, hsorted, hpromoted,
        List.range'_append_1]
  have hremaining : (s.sortedOut (state address).nonce address).remaining.Sublist
      (sortByNonce (s.list .queued address)) := remaining_sublist _ _ _
  have hmem' : ∀ pool address' obj, obj ∈ (s.promote (state address).nonce address).list pool address' →
      ∃ pool', obj ∈ s.list pool' address' := fun _ _ _ => mem_of_mem_promote
  have hqueuednodup : ((s.sortedOut (state address).nonce address).stale ++
      ((s.sortedOut (state address).nonce address).toPromote ++
        (s.sortedOut (state address).nonce address).remaining)).Nodup :=
    (hqueued.nodup_iff).1 (h.queued address).of_map
  refine ⟨⟨?_, ?_⟩, ?_, ?_, ?_, ?_, ?_, ?_⟩
  · intro pool address' obj hobj
    obtain ⟨_, hobj⟩ := hmem' pool address' obj hobj
    exact h.filed.sender _ _ _ hobj
  · intro pool address' obj hobj
    obtain ⟨_, hobj⟩ := hmem' pool address' obj hobj
    exact h.filed.offered _ _ _ hobj
  · intro address'
    rw [list_promote]
    split
    · rename_i haddress
      rw [haddress]
      exact hrange
    · exact h.pending address'
  · rw [accountNonces_promote]
    exact h.cached
  · intro pool address' obj hobj
    obtain ⟨_, hobj⟩ := hmem' pool address' obj hobj
    exact h.affordable _ _ _ hobj
  · intro address' obj hobj
    rw [list_promote] at hobj
    split at hobj
    · rename_i haddress
      rw [haddress]
      exact h.later address obj ((sortByNonce_perm _).mem_iff.1 (hremaining.subset hobj))
    · exact h.later address' obj hobj
  · intro address'
    rw [list_promote]
    split
    · have hnonces : (nonces (s.sortedOut (state address).nonce address).remaining).Sublist
          (nonces (sortByNonce (s.list .queued address))) := hremaining.map _
      exact (nodup_sortByNonce.2 (h.queued address)).sublist hnonces
    · exact h.queued address'
  · intro address' obj hobj obj' hobj' heq
    rw [list_promote] at hobj hobj'
    split at hobj
    · rename_i haddress
      rw [if_pos haddress] at hobj'
      have hobj'' : obj' ∈ s.list .queued address := hqueued.mem_iff.2
        (List.mem_append_right _ (List.mem_append_right _ hobj'))
      rcases List.mem_append.1 (hperm.mem_iff.1 hobj) with hold | hpromoted'
      · exact h.apart address obj hold obj' hobj'' heq
      · have hobjq : obj ∈ s.list .queued address := hqueued.mem_iff.2
          (List.mem_append_right _ (List.mem_append_left _ hpromoted'))
        obtain rfl := h.filed.eq_of_nonces hhash (h.queued address) hobjq hobj'' heq
        exact (List.nodup_append.1 (List.nodup_append.1 hqueuednodup).2.1).2.2 obj hpromoted' obj
          hobj' rfl
    · rename_i haddress
      rw [if_neg haddress] at hobj'
      exact h.apart address' obj hobj obj' hobj' heq

theorem InSequence.promoteExecutables (hhash : Set.InjOn TxManager.hash txs)
    (hreports : Reports state chain) (h : InSequence state txs s) (address : Option Bytes20) :
    InSequence state txs (s.promoteExecutables chain address).2 := by
  refine forAddresses_keeps (P := InSequence state txs) (fun s address s' hs hpromote => ?_) _ h
  rcases promoteAddress_cases hpromote with ⟨rfl, -⟩ | ⟨nonce, s₁, hnonce, rfl⟩
  · exact hs
  · obtain ⟨hs₁, rfl⟩ := hs.getNonce hreports hnonce
    exact hs₁.promote hhash address

theorem InSequence.demoteUnexecutables (hreports : Reports state chain)
    (h : InSequence state txs s) : InSequence state txs (s.demoteUnexecutables chain).2 := by
  rw [TxPool.demoteUnexecutables]
  cases haccounts : chain.vmAccounts with
  | error e => exact h
  | ok accounts =>
    cases accounts with
    | none => exact h
    | some accounts =>
      refine forAddresses_keeps (P := InSequence state txs) (fun s address s' hs hdemote => ?_) _ h
      cases haccount : accounts address with
      | error e =>
        rw [demoteAddress, haccount] at hdemote
        cases hdemote
      | ok account =>
        obtain rfl := hreports.vm accounts haccounts address account haccount
        have hsorted := sortByNonce_of_range (hs.pending address)
        have hexecutable : Executable (state address) (s.list .pending address) := by
          refine ⟨?_, hs.affordable .pending address⟩
          rw [hsorted]
          exact hs.pending address
        rw [demoteAddress_of_executable haccount hexecutable] at hdemote
        cases hdemote
        refine hs.congr ?_ fun address' nonce hcached => ?_
        · funext pool address'
          rw [list_replaceList, hsorted]
          split
          · rename_i heq
            rw [heq.1, heq.2]
          · rfl
        · change Function.update s.accountNonces address _ address' = _ at hcached
          by_cases haddress : address' = address
          · subst haddress
            rw [Function.update_self] at hcached
            exact (Option.some.inj hcached).symm
          · rw [Function.update_of_ne haddress] at hcached
            exact hs.cached _ _ hcached

/-! ## Additions -/

theorem validate_ok {isLocalTransaction : Bool}
    {price : {price : GasPrice // tx.type.gasPrice = some price}}
    (h : s.validate chain tx address isLocalTransaction = .ok price) :
    (∀ obj, (s.list .pending address ++ s.list .queued address).find?
      (fun poolObj => poolObj.tx.nonce = tx.nonce) = some obj → obj.tx.hash ≠ tx.hash) ∧
    ∃ account, chain.headAccount address = .ok account ∧ account.nonce ≤ tx.nonce ∧
      tx.value + price.1.maxFee * tx.gasLimit ≤ account.balance := by
  rw [validate] at h
  obtain ⟨-, h⟩ := ite_error_eq_ok.1 h
  obtain ⟨-, h⟩ := ite_error_eq_ok.1 h
  obtain ⟨price', -, h⟩ := bind_eq_ok.1 h
  obtain ⟨_, -, h⟩ := bind_eq_ok.1 h
  obtain ⟨_, hsender, h⟩ := bind_eq_ok.1 h
  obtain ⟨_, hhead, h⟩ := bind_eq_ok.1 h
  cases h
  constructor
  · intro obj hfind heq
    rw [validateSender] at hsender
    obtain ⟨-, hsender⟩ := ite_error_eq_ok.1 hsender
    simp only [hfind, if_pos heq] at hsender
    cases hsender
  · rw [validateHead] at hhead
    obtain ⟨block, -, hhead⟩ := bind_eq_ok.1 hhead
    obtain ⟨-, hhead⟩ := ite_error_eq_ok.1 hhead
    obtain ⟨-, hhead⟩ := ite_error_eq_ok.1 hhead
    obtain ⟨account, haccount, hhead⟩ := bind_eq_ok.1 hhead
    obtain ⟨hnonce, hhead⟩ := ite_error_eq_ok.1 hhead
    obtain ⟨hbalance, -⟩ := ite_error_eq_ok.1 hhead
    exact ⟨account, haccount, Nat.le_of_not_lt hnonce, Nat.le_of_not_lt hbalance⟩

theorem nonces_after_insert {n : ℕ} {txObj : TxPoolObject}
    (h : nonces objs = List.range' n objs.length)
    (hnonce : txObj.tx.nonce = n ∨ txObj.tx.nonce = n + objs.length) :
    nonces (sortByNonce ((objs.eraseP fun obj => obj.tx.nonce = txObj.tx.nonce) ++ [txObj])) =
      List.range' n ((objs.eraseP fun obj => obj.tx.nonce = txObj.tx.nonce) ++ [txObj]).length := by
  rcases Classical.em (txObj.tx.nonce = n + objs.length) with hnext | hnext
  · have herase : objs.eraseP (fun obj => obj.tx.nonce = txObj.tx.nonce) = objs := by
      refine List.eraseP_of_forall_not fun obj hobj => ?_
      have hmem : obj.tx.nonce ∈ nonces objs := List.mem_map.2 ⟨obj, hobj, rfl⟩
      rw [h, List.mem_range'_1] at hmem
      rw [decide_eq_true_eq]
      omega
    rw [herase]
    refine nonces_sortByNonce_of_perm (List.Perm.of_eq ?_)
    rw [nonces, List.map_append, ← nonces, h, List.length_append, ← List.range'_append_1, ← hnext]
    rfl
  · obtain hfirst : txObj.tx.nonce = n := hnonce.resolve_right hnext
    cases objs with
    | nil => exact absurd hfirst (by simpa using hnext)
    | cons obj objs =>
      rw [nonces, List.map_cons, List.length_cons, List.range'_succ, List.cons.injEq] at h
      have herase : (obj :: objs).eraseP (fun obj => obj.tx.nonce = txObj.tx.nonce) = objs :=
        List.eraseP_cons_of_pos (decide_eq_true (h.1.trans hfirst.symm))
      rw [herase]
      refine nonces_sortByNonce_of_perm ?_
      rw [nonces, List.map_append, h.2, List.length_append, List.length_singleton, List.range'_succ,
        List.map_cons, List.map_nil, hfirst]
      exact List.perm_append_singleton _ _

theorem InSequence.insert (hhash : Set.InjOn TxManager.hash txs) (h : InSequence state txs s)
    (txObj : TxPoolObject) (hsender : txObj.tx.getSenderAddress = some address)
    (hoffered : txObj.tx ∈ txs) (hcost : cost txObj ≤ (state address).balance)
    (hnonce : (state address).nonce ≤ txObj.tx.nonce)
    (hpool : classify (state address).nonce txObj.tx.nonce (s.list .pending address) = pool)
    (hnew : ∀ obj, (s.list .pending address ++ s.list .queued address).find?
      (fun poolObj => poolObj.tx.nonce = txObj.tx.nonce) = some obj → obj.tx.hash ≠ txObj.tx.hash)
    (isLocalTransaction : Bool) :
    InSequence state txs ((s.takeExisting txObj.tx address pool).insert txObj address pool
      (s.existingTxs txObj.tx address pool) isLocalTransaction) := by
  have hlist : ∀ pool' address', ((s.takeExisting txObj.tx address pool).insert txObj address pool
      (s.existingTxs txObj.tx address pool) isLocalTransaction).list pool' address' =
        if pool' = pool ∧ address' = address then
          sortByNonce (s.existingTxs txObj.tx address pool ++ [txObj])
        else s.list pool' address' := by
    intro pool' address'
    rw [list_insert, list_takeExisting]
  have hmem : ∀ pool' address' obj, obj ∈ (if pool' = pool ∧ address' = address then
      sortByNonce (s.existingTxs txObj.tx address pool ++ [txObj]) else s.list pool' address') →
        (pool' = pool ∧ address' = address ∧ obj = txObj) ∨ obj ∈ s.list pool' address' := by
    intro pool' address' obj hobj
    split at hobj
    · rename_i hhere
      obtain ⟨rfl, rfl⟩ := hhere
      rcases List.mem_append.1 ((sortByNonce_perm _).mem_iff.1 hobj) with hold | hself
      · exact .inr (List.mem_of_mem_eraseP hold)
      · exact .inl ⟨rfl, rfl, List.mem_singleton.1 hself⟩
    · exact .inr hobj
  -- which list it goes to
  have hclass : (pool = .pending ∧ (txObj.tx.nonce = (state address).nonce ∨
      txObj.tx.nonce = (state address).nonce + (s.list .pending address).length)) ∨
      (pool = .queued ∧ (state address).nonce < txObj.tx.nonce) := by
    rw [classify, maxNonce_of_range (h.pending address)] at hpool
    by_cases hfirst : txObj.tx.nonce = (state address).nonce
    · rw [if_pos hfirst, ite_self] at hpool
      exact .inl ⟨hpool.symm, .inl hfirst⟩
    · rw [if_neg hfirst] at hpool
      by_cases hnil : s.list .pending address = []
      · rw [if_pos hnil, Option.any_none, if_neg (by decide)] at hpool
        exact .inr ⟨hpool.symm, by omega⟩
      · have hlength := List.length_pos_iff.2 hnil
        rw [if_neg hnil, Option.any_some] at hpool
        by_cases hnext : txObj.tx.nonce = (state address).nonce + (s.list .pending address).length
        · rw [if_pos (decide_eq_true (by omega))] at hpool
          exact .inl ⟨hpool.symm, .inr hnext⟩
        · rw [if_neg (by rw [decide_eq_true_eq]; omega)] at hpool
          exact .inr ⟨hpool.symm, by omega⟩
  -- nothing that is pending has its hash
  have hpending : ∀ obj ∈ s.list .pending address, obj.hash ≠ txObj.hash := by
    intro obj hobj heq
    have htx : obj.tx = txObj.tx := hhash (h.filed.offered _ _ _ hobj) hoffered
      (by rw [← obj.hash_eq, ← txObj.hash_eq, heq])
    refine hnew obj ?_ (by rw [htx])
    rw [List.find?_append, ← htx, find_nonce (h.nodup_pending address) hobj]
    rfl
  -- nor anything that is queued, if it goes to `pending`
  have hqueued : pool = .pending → ∀ obj ∈ s.list .queued address, obj.hash ≠ txObj.hash := by
    intro hpending' obj hobj heq
    have htx : obj.tx = txObj.tx := hhash (h.filed.offered _ _ _ hobj) hoffered
      (by rw [← obj.hash_eq, ← txObj.hash_eq, heq])
    refine hnew obj ?_ (by rw [htx])
    have hlater := h.later address obj hobj
    have hnext : txObj.tx.nonce = (state address).nonce + (s.list .pending address).length := by
      rcases hclass with ⟨-, hfirst | hnext⟩ | ⟨hqueued, -⟩
      · rw [htx] at hlater
        omega
      · exact hnext
      · rw [hpending'] at hqueued
        cases hqueued
    have hnone : (s.list .pending address).find? (fun poolObj => poolObj.tx.nonce = txObj.tx.nonce) =
        none := by
      refine List.find?_eq_none.2 fun obj' hobj' => ?_
      have hrange : obj'.tx.nonce ∈ nonces (s.list .pending address) :=
        List.mem_map.2 ⟨obj', hobj', rfl⟩
      rw [h.pending, List.mem_range'_1] at hrange
      rw [decide_eq_true_eq]
      omega
    rw [List.find?_append, hnone, Option.none_or, ← htx, find_nonce (h.queued address) hobj]
  refine ⟨⟨?_, ?_⟩, ?_, ?_, ?_, ?_, ?_, ?_⟩
  · intro pool' address' obj hobj
    rw [hlist] at hobj
    rcases hmem _ _ _ hobj with ⟨-, rfl, rfl⟩ | hobj
    · exact hsender
    · exact h.filed.sender _ _ _ hobj
  · intro pool' address' obj hobj
    rw [hlist] at hobj
    rcases hmem _ _ _ hobj with ⟨-, -, rfl⟩ | hobj
    · exact hoffered
    · exact h.filed.offered _ _ _ hobj
  · intro address'
    rw [hlist]
    split
    · rename_i hhere
      obtain ⟨rfl, rfl⟩ := hhere
      rcases hclass with ⟨-, hnonce'⟩ | ⟨hqueued', -⟩
      · rw [(sortByNonce_perm _).length_eq]
        exact nonces_after_insert (h.pending address') hnonce'
      · cases hqueued'
    · exact h.pending address'
  · rw [accountNonces_insert, accountNonces_takeExisting]
    exact h.cached
  · intro pool' address' obj hobj
    rw [hlist] at hobj
    rcases hmem _ _ _ hobj with ⟨-, rfl, rfl⟩ | hobj
    · exact hcost
    · exact h.affordable _ _ _ hobj
  · intro address' obj hobj
    rw [hlist] at hobj
    rcases hmem _ _ _ hobj with ⟨hqueued', rfl, rfl⟩ | hobj
    · rcases hclass with ⟨hpending', -⟩ | ⟨-, hlater⟩
      · rw [hpending'] at hqueued'
        cases hqueued'
      · exact hlater
    · exact h.later _ _ hobj
  · intro address'
    rw [hlist]
    split
    · rename_i hhere
      obtain ⟨rfl, rfl⟩ := hhere
      refine nodup_sortByNonce.2 ?_
      rw [nonces, List.map_append, List.nodup_append]
      refine ⟨(h.queued address').sublist (List.eraseP_sublist.map _), List.nodup_singleton _, ?_⟩
      intro a ha b hb hab
      obtain ⟨obj, hobj, rfl⟩ := List.mem_map.1 ha
      rw [List.map_singleton, List.mem_singleton] at hb
      exact nonce_ne_of_mem_existingTxs (h.queued address') hobj (hab.trans hb)
    · exact h.queued address'
  · intro address' obj hobj obj' hobj' heq
    rw [hlist] at hobj hobj'
    rcases hmem _ _ _ hobj with ⟨hpool', rfl, rfl⟩ | hold
    · rcases hmem _ _ _ hobj' with ⟨hpool'', -, -⟩ | hold'
      · rw [← hpool'] at hpool''
        cases hpool''
      · exact hqueued hpool'.symm obj' hold' heq.symm
    · rcases hmem _ _ _ hobj' with ⟨-, rfl, rfl⟩ | hold'
      · exact hpending obj hold heq
      · exact h.apart _ _ hold _ hold' heq

/-- The evictions of an addition take the last of a list. -/
def AddEvictsLast (s : TxPool) (chain : ChainView) (now : ℕ) (tx : TxManager)
    (isLocalTransaction : Bool) : Prop :=
  ∀ address s₁, tx.getSenderAddress = some address →
    s.offer chain now tx address isLocalTransaction = (none, s₁) →
      EvictsLast (s₁.counts .pending - GLOBAL_SLOTS).toNat s₁

theorem InSequence.offer (hhash : Set.InjOn TxManager.hash txs) (hreports : Reports state chain)
    (h : InSequence state txs s) (now : ℕ) (htx : tx ∈ txs)
    (hsender : tx.getSenderAddress = some address) (isLocalTransaction : Bool) :
    InSequence state txs (s.offer chain now tx address isLocalTransaction).2 := by
  rcases s.offer_cases chain now tx address isLocalTransaction with
    ⟨e, hoffer, -⟩ | ⟨price, pool, s₁, hvalidate, hclassify, hcases⟩
  · rw [hoffer]
    exact h
  · obtain ⟨hnew, account, haccount, hnonce, hcost⟩ := validate_ok hvalidate
    obtain rfl := hreports.head _ _ haccount
    obtain ⟨nonce, hgetNonce, hpool⟩ := classifyTransaction_cases hclassify
    obtain ⟨hs₁, rfl⟩ := h.getNonce hreports hgetNonce
    rw [← getNonce_list hgetNonce] at hpool hnew
    rcases hcases with ⟨-, hoffer⟩ | ⟨-, hoffer⟩
    · rw [hoffer]
      refine hs₁.congr (list_takeExisting _ _ _ _) ?_
      rw [accountNonces_takeExisting]
      exact hs₁.cached
    · have hinsert := hs₁.insert hhash ⟨tx, tx.hash, now, price.1, rfl, price.2⟩ hsender
        htx hcost hnonce hpool hnew isLocalTransaction
      rw [hoffer]
      cases pool with
      | queued => exact hinsert
      | pending => exact hinsert.promoteExecutables hhash hreports (some address)

theorem InSequence.add (hhash : Set.InjOn TxManager.hash txs) (hreports : Reports state chain)
    (h : InSequence state txs s) {now : ℕ} (htx : tx ∈ txs) {isLocalTransaction : Bool}
    (hevicts : s.AddEvictsLast chain now tx isLocalTransaction) :
    InSequence state txs (s.add chain now tx isLocalTransaction).2 := by
  rcases s.add_cases chain now tx isLocalTransaction with
    ⟨e, hresult, -⟩ | ⟨address, -, hsender, hcases⟩
  · rw [hresult]
    exact h
  · have hoffer := h.offer hhash hreports now htx hsender isLocalTransaction
    rcases hcases with ⟨s₁, heq, hresult⟩ | ⟨e, s₁, heq, hresult⟩
    · rw [heq] at hoffer
      rw [hresult]
      exact (hoffer.evictPending (hevicts address s₁ hsender heq)).evictQueued hhash _
    · rw [heq] at hoffer
      rw [hresult]
      exact hoffer.congr rfl hoffer.cached

/-! ## Cleaning up -/

theorem list_cleanup (s : TxPool) (now : ℕ) (pool : PoolType) (address : Bytes20) :
    (s.cleanup now).list pool address =
      (s.list pool address).filter fun obj => obj.added ≥ now - POOLED_STORAGE_TIME := by
  have hfold : ∀ (pool' : PoolType) (addresses : List Bytes20) (s : TxPool),
      (addresses.foldl (fun s address => s.cleanupList (now - POOLED_STORAGE_TIME) pool' address)
        s).list pool address = if pool = pool' ∧ address ∈ addresses then
          (s.list pool address).filter fun obj => obj.added ≥ now - POOLED_STORAGE_TIME
        else s.list pool address := by
    intro pool' addresses
    induction addresses with
    | nil => simp
    | cons first addresses ih =>
      intro s
      rw [List.foldl_cons, ih, (cleanupList_cases s _ pool' first).list]
      by_cases hpool : pool = pool'
      · subst hpool
        by_cases hfirst : address = first
        · subst hfirst
          simp
        · simp [hfirst]
      · simp [hpool]
  have hkeys : ∀ (s : TxPool), address ∉ (s.lists pool).keys → s.list pool address = [] := by
    intro s hnotMem
    rw [list, JsMap.list, JsMap.get_eq_none.2 hnotMem]
    rfl
  rw [cleanup]
  change (List.foldl _ (List.foldl _ s _) _).list pool address = _
  rw [hfold, hfold]
  cases pool with
  | pending =>
    simp only [reduceCtorEq, false_and, if_false, true_and]
    split
    · rfl
    · rename_i hnotMem
      rw [hkeys s hnotMem]
      rfl
  | queued =>
    simp only [reduceCtorEq, false_and, if_false, true_and]
    split
    · rfl
    · rename_i hnotMem
      have hnil := hkeys _ hnotMem
      rw [hfold] at hnil
      simp only [reduceCtorEq, false_and, if_false] at hnil
      rw [hnil]
      rfl

theorem accountNonces_cleanup (s : TxPool) (now : ℕ) :
    (s.cleanup now).accountNonces = s.accountNonces := by
  have hlist : ∀ (pool : PoolType) (s : TxPool) (address : Bytes20),
      (s.cleanupList (now - POOLED_STORAGE_TIME) pool address).accountNonces = s.accountNonces := by
    intro pool s address
    rw [cleanupList]
    split
    · exact foldl_eq (f := removeOld) (g := TxPool.accountNonces) (fun _ _ => rfl) _ _
    · rfl
  rw [cleanup]
  change TxPool.accountNonces (List.foldl _ (List.foldl _ s _) _) = _
  rw [foldl_eq (g := TxPool.accountNonces) (hlist .queued),
    foldl_eq (g := TxPool.accountNonces) (hlist .pending)]

/-! ## Runs -/

/-- **When a call leaves no gap**: what it takes out of `pending` is the last of a list. -/
def LeavesNoGap (s : TxPool) : PoolCall → Prop
  | .add chain now tx isLocalTransaction => s.AddEvictsLast chain now tx isLocalTransaction
  | .cleanup now => ∀ address, ((s.list .pending address).filter fun obj =>
      obj.added ≥ now - POOLED_STORAGE_TIME) <+: s.list .pending address
  | .removeByHash hash => s.LastOfPending hash
  | .removeNewBlockTxs newBlocks => s.running →
      AlongRun (fun s tx => s.removeByHash tx.hash) (fun s tx => s.LastOfPending tx.hash) s
        newBlocks.flatten
  | _ => True

/-- What a call reads of the chain. -/
def chainOf : PoolCall → Option ChainView
  | .add chain _ _ _ => some chain
  | .promoteExecutables chain _ => some chain
  | .demoteUnexecutables chain => some chain
  | _ => none

theorem InSequence.step (hhash : Set.InjOn TxManager.hash txs) {call : PoolCall}
    (hreports : ∀ chain ∈ chainOf call, Reports state chain) (h : InSequence state txs s)
    (hcall : s.LeavesNoGap call)
    (htxs : ∀ chain now tx isLocalTransaction, call = .add chain now tx isLocalTransaction → tx ∈ txs) :
    InSequence state txs (s.step call) := by
  cases call with
  | start => exact h.congr rfl h.cached
  | add chain now tx isLocalTransaction =>
    exact h.add hhash (hreports chain rfl) (htxs chain now tx isLocalTransaction rfl) hcall
  | promoteExecutables chain address => exact h.promoteExecutables hhash (hreports chain rfl) address
  | demoteUnexecutables chain => exact h.demoteUnexecutables (hreports chain rfl)
  | removeByHash hash => exact h.removeByHash hcall
  | removeNewBlockTxs newBlocks =>
    change InSequence state txs (s.removeNewBlockTxs newBlocks)
    rw [removeNewBlockTxs]
    split
    · rename_i hrunning
      exact (hcall hrunning).inv (fun s tx hs hlast => hs.removeByHash hlast) h
    · exact h
  | cleanup now =>
    refine h.shrink (fun address => ?_) (fun address => ?_) ?_
    · change (s.cleanup now).list .pending address <+: _
      rw [list_cleanup]
      exact hcall address
    · change ((s.cleanup now).list .queued address).Sublist _
      rw [list_cleanup]
      exact List.filter_sublist
    · change ∀ address nonce, (s.cleanup now).accountNonces address = some nonce → _
      rw [accountNonces_cleanup]
      exact h.cached
  | close =>
    refine h.shrink (fun address => ?_) (fun address => ?_) fun address nonce hcached => ?_
    · exact List.nil_prefix
    · exact List.nil_sublist _
    · cases hcached

theorem reports_sampleChain : Reports (fun _ => funded) sampleChain where
  head _ _ h := by
    cases h
    rfl
  vm _ h _ _ h' := by
    cases h
    cases h'
    rfl

end TxPool

end TsEthereum
