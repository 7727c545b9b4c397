import TsEthereum.TxPool.Moves

/-!
# Additions

`add` takes out the transaction of the same nonce that it replaces, where there
is one in the list the new one belongs to, and puts the new one in. That keeps
the books unless the limit of the account is hit after something was replaced,
or the sender has the same nonce in the other list (`AddKeepsBooks`).
-/

namespace TsEthereum

namespace TxPool

variable {s s' : TxPool} {pool pool' : PoolType} {address address' : Bytes20}
variable {objs : List TxPoolObject} {txs : Set TxManager} {chain : ChainView} {tx : TxManager}

/-- One transaction comes into one list. -/
structure Puts (s s' : TxPool) (pool : PoolType) (address : Bytes20) (txObj : TxPoolObject) :
    Prop where
  perm : (s'.list pool address).Perm (txObj :: s.list pool address)
  list : ∀ pool' address', ¬ (pool' = pool ∧ address' = address) →
    s'.list pool' address' = s.list pool' address'
  size : ∀ pool', (s'.lists pool').size = (s.lists pool').size + if pool' = pool then 1 else 0
  counts : ∀ pool', s'.counts pool' = s.counts pool' + if pool' = pool then 1 else 0
  priced : s'.priced = txObj :: s.priced
  hashIndex : s'.hashIndex = Function.update s.hashIndex txObj.hash (some ⟨address, pool⟩)

section

variable {txObj : TxPoolObject}

theorem Puts.mem_list (h : Puts s s' pool address txObj) {obj : TxPoolObject} :
    obj ∈ s'.list pool' address' ↔
      (pool' = pool ∧ address' = address ∧ obj = txObj) ∨ obj ∈ s.list pool' address' := by
  by_cases hhere : pool' = pool ∧ address' = address
  · obtain ⟨rfl, rfl⟩ := hhere
    rw [h.perm.mem_iff, List.mem_cons]
    simp
  · rw [h.list _ _ hhere]
    constructor
    · exact .inr
    · rintro (⟨hpool, haddress, -⟩ | hobj)
      · exact absurd ⟨hpool, haddress⟩ hhere
      · exact hobj

theorem Puts.keeps (h : Puts s s' pool address txObj) (hhash : Set.InjOn TxManager.hash txs)
    (hs : Kept txs s) (hsender : txObj.tx.getSenderAddress = some address)
    (hoffered : txObj.tx ∈ txs)
    (hfresh : ∀ obj ∈ s.all address, obj.tx.nonce ≠ txObj.tx.nonce) : Kept txs s' := by
  obtain ⟨hb, hf⟩ := hs
  -- nothing that is pooled has its hash
  have hnew : ∀ pool' address' obj, obj ∈ s.list pool' address' → obj.hash ≠ txObj.hash := by
    intro pool' address' obj hobj heq
    have htx : obj.tx = txObj.tx := hhash (hf.offered _ _ _ hobj) hoffered
      (by rw [← obj.hash_eq, ← txObj.hash_eq, heq])
    have hs := hf.sender _ _ _ hobj
    rw [htx, hsender] at hs
    cases hs
    exact hfresh obj (mem_all.2 ⟨_, hobj⟩) (by rw [htx])
  refine ⟨⟨?_, ?_, ?_, ?_, ?_⟩, ⟨?_, ?_⟩⟩
  · intro pool'
    have := hb.counted pool'
    rw [h.counts, h.size]
    split
    · omega
    · omega
  · rw [h.priced, List.nodup_cons]
    refine ⟨fun hmem => ?_, hb.nodup_priced⟩
    obtain ⟨pool', address', hobj⟩ := (hb.mem_priced txObj).1 hmem
    exact hnew _ _ _ hobj rfl
  · intro obj
    rw [h.priced, List.mem_cons, hb.mem_priced]
    constructor
    · rintro (rfl | ⟨pool', address', hobj⟩)
      · exact ⟨pool, address, h.mem_list.2 (.inl ⟨rfl, rfl, rfl⟩)⟩
      · exact ⟨pool', address', h.mem_list.2 (.inr hobj)⟩
    · rintro ⟨pool', address', hobj⟩
      rcases h.mem_list.1 hobj with ⟨-, -, rfl⟩ | hobj
      · exact .inl rfl
      · exact .inr ⟨pool', address', hobj⟩
  · intro hash address' pool'
    rw [h.hashIndex]
    by_cases hself : hash = txObj.hash
    · subst hself
      rw [Function.update_self]
      constructor
      · intro heq
        cases heq
        exact ⟨txObj, h.mem_list.2 (.inl ⟨rfl, rfl, rfl⟩), rfl⟩
      · rintro ⟨obj, hobj, heq⟩
        rcases h.mem_list.1 hobj with ⟨rfl, rfl, -⟩ | hobj
        · rfl
        · exact absurd heq (hnew _ _ _ hobj)
    · rw [Function.update_of_ne hself, hb.indexed]
      constructor
      · rintro ⟨obj, hobj, heq⟩
        exact ⟨obj, h.mem_list.2 (.inr hobj), heq⟩
      · rintro ⟨obj, hobj, heq⟩
        rcases h.mem_list.1 hobj with ⟨-, -, rfl⟩ | hobj
        · exact absurd heq.symm hself
        · exact ⟨obj, hobj, heq⟩
  · intro address'
    by_cases haddress : address' = address
    · subst haddress
      have hall : (s'.list .pending address' ++ s'.list .queued address').Perm
          (txObj :: s.all address') := by
        cases pool with
        | pending =>
          rw [h.list .queued address' (by simp)]
          exact h.perm.append_right _
        | queued =>
          rw [h.list .pending address' (by simp)]
          exact (h.perm.append_left _).trans List.perm_middle
      refine ((hall.map fun obj => obj.tx.nonce).nodup_iff).2 ?_
      rw [List.map_cons, List.nodup_cons]
      refine ⟨fun hmem => ?_, hb.nonces address'⟩
      obtain ⟨obj, hobj, heq⟩ := List.mem_map.1 hmem
      exact hfresh obj hobj heq
    · rw [h.list _ _ (by simp [haddress]), h.list _ _ (by simp [haddress])]
      exact hb.nonces address'
  · intro pool' address' obj hobj
    rcases h.mem_list.1 hobj with ⟨-, rfl, rfl⟩ | hobj
    · exact hsender
    · exact hf.sender _ _ _ hobj
  · intro pool' address' obj hobj
    rcases h.mem_list.1 hobj with ⟨-, -, rfl⟩ | hobj
    · exact hoffered
    · exact hf.offered _ _ _ hobj

end

/-! ## The transaction that is replaced -/

theorem perm_find_eraseP {α : Type} (p : α → Bool) (l : List α) :
    l.Perm ((l.find? p).toList ++ l.eraseP p) := by
  induction l with
  | nil => exact List.Perm.refl _
  | cons a l ih =>
    by_cases ha : p a = true
    · rw [List.find?_cons_of_pos ha, List.eraseP_cons_of_pos ha]
      exact List.Perm.refl _
    · rw [List.find?_cons_of_neg ha, List.eraseP_cons_of_neg ha]
      exact (ih.cons a).trans List.perm_middle.symm

/-- The transaction of a list that one of the same nonce replaces. -/
def replaced (s : TxPool) (tx : TxManager) (address : Bytes20) (pool : PoolType) :
    Option TxPoolObject :=
  (s.list pool address).find? fun obj => obj.tx.nonce = tx.nonce

theorem existingTxs_perm (s : TxPool) (tx : TxManager) (address : Bytes20) (pool : PoolType) :
    (s.list pool address).Perm ((s.replaced tx address pool).toList ++ s.existingTxs tx address pool) :=
  perm_find_eraseP _ _

/-- **Taking the replaced transaction out** takes it out of its list, once that is
set. -/
theorem takeExisting_takes (s : TxPool) (tx : TxManager) (address : Bytes20) (pool : PoolType) :
    Takes s ((s.takeExisting tx address pool).replaceList pool address
      (s.existingTxs tx address pool)) pool address (s.replaced tx address pool).toList
      (s.existingTxs tx address pool) := by
  have hperm := s.existingTxs_perm tx address pool
  cases hfind : s.replaced tx address pool with
  | none =>
    have htake : s.takeExisting tx address pool = s := by
      rw [replaced] at hfind
      rw [takeExisting, hfind]
    rw [hfind] at hperm
    rw [htake]
    refine takes_of_replace hperm rfl ?_ ?_ (fun obj hobj => by cases hobj) fun _ _ => rfl
    · rw [replaceList, addCount]
      simp
    · simp [replaceList]
  | some oldTxObj =>
    have htake : s.takeExisting tx address pool = s.takeReplaced pool oldTxObj := by
      rw [replaced] at hfind
      rw [takeExisting, hfind]
    rw [hfind] at hperm
    rw [htake]
    refine takes_of_replace hperm rfl rfl ?_ ?_ ?_
    · simp [replaceList, takeReplaced, addCount, deleteHashIndex, removeFromPriced]
    · intro obj hobj
      rw [Option.mem_toList.1 hobj |> Option.some.inj]
      simp [replaceList, takeReplaced, addCount, deleteHashIndex]
    · intro hash hother
      have hne := hother oldTxObj (by simp)
      simp [replaceList, takeReplaced, addCount, deleteHashIndex, removeFromPriced, hne.symm]

theorem lists_insert (s : TxPool) (txObj : TxPoolObject) (address : Bytes20) (pool : PoolType)
    (objs : List TxPoolObject) (isLocalTransaction : Bool) :
    (s.insert txObj address pool objs isLocalTransaction).lists =
      (s.setList pool address (sortByNonce (objs ++ [txObj]))).lists := by
  cases isLocalTransaction with
  | false => rfl
  | true => rfl

theorem list_insert (s : TxPool) (txObj : TxPoolObject) (address : Bytes20) (pool : PoolType)
    (objs : List TxPoolObject) (isLocalTransaction : Bool) (pool' : PoolType)
    (address' : Bytes20) :
    (s.insert txObj address pool objs isLocalTransaction).list pool' address' =
      if pool' = pool ∧ address' = address then sortByNonce (objs ++ [txObj])
      else s.list pool' address' := by
  rw [← list_setList, list, list, lists_insert]

/-- **`insert` puts the transaction in**, where the others of the list are those it was
handed. -/
theorem insert_puts (s : TxPool) (txObj : TxPoolObject) (address : Bytes20) (pool : PoolType)
    (objs : List TxPoolObject) (isLocalTransaction : Bool) :
    Puts (s.replaceList pool address objs) (s.insert txObj address pool objs isLocalTransaction)
      pool address txObj := by
  have hcounts : (s.insert txObj address pool objs isLocalTransaction).counts =
      (s.addCount pool 1).counts := by
    cases isLocalTransaction with
    | false => rfl
    | true => rfl
  refine ⟨?_, ?_, ?_, ?_, ?_, ?_⟩
  · rw [list_insert, list_replaceList, if_pos ⟨rfl, rfl⟩, if_pos ⟨rfl, rfl⟩]
    exact (sortByNonce_perm _).trans (List.perm_append_singleton _ _)
  · intro pool' address' hne
    rw [list_insert, list_replaceList, if_neg hne, if_neg hne]
  · intro pool'
    rw [lists_insert, lists_setList, lists_replaceList]
    by_cases hpool : pool' = pool
    · subst hpool
      rw [Function.update_self, Function.update_self, if_pos rfl]
      have hset := JsMap.size_set (s.lists pool') address (sortByNonce (objs ++ [txObj]))
      have hreplace := JsMap.size_replace (s.lists pool') address objs
      rw [(sortByNonce_perm _).length_eq, List.length_append, List.length_singleton] at hset
      omega
    · rw [Function.update_of_ne hpool, Function.update_of_ne hpool, if_neg hpool, Nat.add_zero]
  · intro pool'
    rw [hcounts, addCount]
    change Function.update s.counts pool _ pool' = s.counts pool' + _
    by_cases hpool : pool' = pool
    · subst hpool
      simp
    · simp [hpool]
  · cases isLocalTransaction with
    | false => rfl
    | true => rfl
  · cases isLocalTransaction with
    | false => rfl
    | true => rfl

theorem list_takeExisting (s : TxPool) (tx : TxManager) (address : Bytes20) (pool : PoolType) :
    (s.takeExisting tx address pool).list = s.list := by
  rw [takeExisting]
  cases (s.list pool address).find? fun obj => obj.tx.nonce = tx.nonce with
  | none => rfl
  | some oldTxObj => rfl

theorem accountNonces_takeExisting (s : TxPool) (tx : TxManager) (address : Bytes20)
    (pool : PoolType) : (s.takeExisting tx address pool).accountNonces = s.accountNonces := by
  rw [takeExisting]
  cases (s.list pool address).find? fun obj => obj.tx.nonce = tx.nonce with
  | none => rfl
  | some oldTxObj => rfl

theorem accountNonces_insert (s : TxPool) (txObj : TxPoolObject) (address : Bytes20)
    (pool : PoolType) (objs : List TxPoolObject) (isLocalTransaction : Bool) :
    (s.insert txObj address pool objs isLocalTransaction).accountNonces = s.accountNonces := by
  cases isLocalTransaction with
  | false => rfl
  | true => rfl

/-! ## Adding -/

/-- The list that a transaction is not in. -/
def other : PoolType → PoolType
  | .pending => .queued
  | .queued => .pending

/-- The limit of the account is hit. -/
def LimitHit (s : TxPool) (tx : TxManager) (address : Bytes20) (pool : PoolType)
    (isLocalTransaction : Bool) : Prop :=
  isLocalTransaction = false ∧ accountLimit pool ≤ (s.existingTxs tx address pool).length

/-- **When `add` keeps the books.** Where the transaction passes `validate` and belongs to
`pool`: if the limit of the account is hit, nothing of its nonce is in that list; if
it is not, nothing of its nonce is in the other one. -/
def AddKeepsBooks (s : TxPool) (chain : ChainView) (tx : TxManager) (isLocalTransaction : Bool) :
    Prop :=
  ∀ address price pool s₁, tx.getSenderAddress = some address →
    s.validate chain tx address isLocalTransaction = .ok price →
    s.classifyTransaction chain tx address = .ok (pool, s₁) →
    (s.LimitHit tx address pool isLocalTransaction →
      ∀ obj ∈ s.list pool address, obj.tx.nonce ≠ tx.nonce) ∧
    (¬ s.LimitHit tx address pool isLocalTransaction →
      ∀ obj ∈ s.list (other pool) address, obj.tx.nonce ≠ tx.nonce)

theorem classifyTransaction_cases {s₁ : TxPool}
    (h : s.classifyTransaction chain tx address = .ok (pool, s₁)) :
    ∃ nonce, s.getNonce chain address = .ok (nonce, s₁) ∧
      classify nonce tx.nonce (s.list .pending address) = pool := by
  rw [classifyTransaction] at h
  cases hnonce : s.getNonce chain address with
  | error e =>
    rw [hnonce] at h
    cases h
  | ok r =>
    obtain ⟨nonce, s₂⟩ := r
    rw [hnonce] at h
    cases h
    refine ⟨nonce, rfl, ?_⟩
    rw [(getNonce_cases hnonce).1]
    rfl

theorem getNonce_list {nonce : ℕ} (h : s.getNonce chain address = .ok (nonce, s')) :
    s'.list = s.list := by
  rw [(getNonce_cases h).1]
  rfl

theorem takeExisting_eq (h : ∀ obj ∈ s.list pool address, obj.tx.nonce ≠ tx.nonce) :
    s.takeExisting tx address pool = s := by
  have hfind : (s.list pool address).find? (fun obj => obj.tx.nonce = tx.nonce) = none := by
    refine List.find?_eq_none.2 fun obj hobj => ?_
    rw [decide_eq_true_eq]
    exact h obj hobj
  rw [takeExisting, hfind]

theorem nonce_ne_of_mem_existingTxs
    (hlist : ((s.list pool address).map fun obj => obj.tx.nonce).Nodup) {obj : TxPoolObject}
    (hobj : obj ∈ s.existingTxs tx address pool) : obj.tx.nonce ≠ tx.nonce := by
  have hperm := s.existingTxs_perm tx address pool
  have hnodup := ((hperm.map fun obj => obj.tx.nonce).nodup_iff).1 hlist
  intro heq
  cases hfind : s.replaced tx address pool with
  | none =>
    have hmem := hperm.mem_iff.2 (List.mem_append_right _ hobj)
    rw [replaced, List.find?_eq_none] at hfind
    exact hfind obj hmem (decide_eq_true heq)
  | some oldTxObj =>
    have hkey := List.find?_some hfind
    have hold : oldTxObj.tx.nonce = tx.nonce := of_decide_eq_true hkey
    rw [hfind, List.map_append] at hnodup
    exact (List.nodup_append.1 hnodup).2.2 _
      (List.mem_map.2 ⟨oldTxObj, Option.mem_toList.2 rfl, rfl⟩) _
      (List.mem_map.2 ⟨obj, hobj, rfl⟩) (hold.trans heq.symm)

/-- **Putting a transaction in keeps the books**, where the other list has nothing of
its nonce. -/
theorem insert_keeps (hhash : Set.InjOn TxManager.hash txs) (hs : Kept txs s)
    (txObj : TxPoolObject) (hsender : txObj.tx.getSenderAddress = some address)
    (hoffered : txObj.tx ∈ txs)
    (hother : ∀ obj ∈ s.list (other pool) address, obj.tx.nonce ≠ txObj.tx.nonce)
    (isLocalTransaction : Bool) :
    Kept txs ((s.takeExisting txObj.tx address pool).insert txObj address pool
      (s.existingTxs txObj.tx address pool) isLocalTransaction) := by
  have htakes := s.takeExisting_takes txObj.tx address pool
  refine (insert_puts _ txObj address pool _ isLocalTransaction).keeps hhash
    (htakes.keeps hhash hs) hsender hoffered fun obj hobj => ?_
  obtain ⟨pool', hpool'⟩ := mem_all.1 hobj
  rw [htakes.list] at hpool'
  by_cases hpool : pool' = pool
  · subst hpool
    rw [if_pos ⟨rfl, rfl⟩] at hpool'
    exact nonce_ne_of_mem_existingTxs (hs.1.nodup_list _ _) hpool'
  · rw [if_neg (by simp [hpool])] at hpool'
    have hpool'' : pool' = other pool := by
      cases pool with
      | pending =>
        cases pool' with
        | pending => exact absurd rfl hpool
        | queued => rfl
      | queued =>
        cases pool' with
        | pending => rfl
        | queued => exact absurd rfl hpool
    subst hpool''
    exact hother obj hpool'

/-- **What `offer` does**, where the transaction passes `validate`: the limit of the account is
hit, or the transaction is put in. -/
theorem offer_cases (chain : ChainView) (now : ℕ) (tx : TxManager) (address : Bytes20)
    (isLocalTransaction : Bool) :
    (∃ e, s.offer chain now tx address isLocalTransaction = (some e, s) ∧
      (s.validate chain tx address isLocalTransaction = .error e ∨
        ∃ price, s.validate chain tx address isLocalTransaction = .ok price ∧
          s.classifyTransaction chain tx address = .error e)) ∨
    ∃ price pool s₁, s.validate chain tx address isLocalTransaction = .ok price ∧
      s.classifyTransaction chain tx address = .ok (pool, s₁) ∧
      (s.LimitHit tx address pool isLocalTransaction ∧
          s.offer chain now tx address isLocalTransaction =
            (some (.accountLimit address pool (accountLimit pool)),
              s₁.takeExisting tx address pool) ∨
        ¬ s.LimitHit tx address pool isLocalTransaction ∧
          s.offer chain now tx address isLocalTransaction =
            match pool with
            | .queued => (none, (s₁.takeExisting tx address pool).insert
                ⟨tx, tx.hash, now, price.1, rfl, price.2⟩ address pool
                (s₁.existingTxs tx address pool) isLocalTransaction)
            | .pending => ((s₁.takeExisting tx address pool).insert
                ⟨tx, tx.hash, now, price.1, rfl, price.2⟩ address pool
                (s₁.existingTxs tx address pool) isLocalTransaction).promoteExecutables chain
                  (some address)) := by
  cases hvalidate : s.validate chain tx address isLocalTransaction with
  | error e => exact .inl ⟨e, by rw [offer, hvalidate], .inl rfl⟩
  | ok price =>
    cases hclassify : s.classifyTransaction chain tx address with
    | error e => exact .inl ⟨e, by rw [offer, hvalidate, hclassify], .inr ⟨price, rfl, rfl⟩⟩
    | ok r =>
      obtain ⟨pool, s₁⟩ := r
      obtain ⟨nonce, hnonce, -⟩ := classifyTransaction_cases hclassify
      have hexisting : s₁.existingTxs tx address pool = s.existingTxs tx address pool := by
        rw [existingTxs, existingTxs, getNonce_list hnonce]
      refine .inr ⟨price, pool, s₁, rfl, rfl, ?_⟩
      rw [LimitHit, ← hexisting]
      by_cases hlimit : isLocalTransaction = false ∧
          accountLimit pool ≤ (s₁.existingTxs tx address pool).length
      · refine .inl ⟨hlimit, ?_⟩
        rw [offer, hvalidate, hclassify]
        exact if_pos hlimit
      · refine .inr ⟨hlimit, ?_⟩
        rw [offer, hvalidate, hclassify]
        exact if_neg hlimit

theorem offer_keeps (hhash : Set.InjOn TxManager.hash txs) (hs : Kept txs s) (now : ℕ)
    (htx : tx ∈ txs) (hsender : tx.getSenderAddress = some address) {isLocalTransaction : Bool}
    (hadd : s.AddKeepsBooks chain tx isLocalTransaction) :
    Kept txs (s.offer chain now tx address isLocalTransaction).2 := by
  rcases s.offer_cases chain now tx address isLocalTransaction with
    ⟨e, hoffer, -⟩ | ⟨price, pool, s₁, hvalidate, hclassify, hcases⟩
  · rw [hoffer]
    exact hs
  · obtain ⟨hfull, hroom⟩ := hadd address price pool s₁ hsender hvalidate hclassify
    obtain ⟨nonce, hnonce, -⟩ := classifyTransaction_cases hclassify
    have hs₁ := getNonce_keeps hnonce hs
    have hlist := getNonce_list hnonce
    rcases hcases with ⟨hlimit, hoffer⟩ | ⟨hlimit, hoffer⟩
    · rw [hoffer, takeExisting_eq (by rw [hlist]; exact hfull hlimit)]
      exact hs₁
    · have hkept := insert_keeps hhash hs₁
        ⟨tx, tx.hash, now, price.1, rfl, price.2⟩ hsender htx
        (by rw [hlist]; exact hroom hlimit) isLocalTransaction
      rw [hoffer]
      cases pool with
      | queued => exact hkept
      | pending => exact promoteExecutables_keeps hhash chain (some address) hkept

/-- What `add` leaves, where the sender is known: what `offer` left, with the limits
enforced or with the error kept in `handled`. -/
theorem add_cases (chain : ChainView) (now : ℕ) (tx : TxManager) (isLocalTransaction : Bool) :
    (∃ e, s.add chain now tx isLocalTransaction = (some e, s) ∧
      (tx.isSigned = false ∨ tx.getSenderAddress = none)) ∨
    ∃ address, tx.isSigned = true ∧ tx.getSenderAddress = some address ∧
      ((∃ s₁, s.offer chain now tx address isLocalTransaction = (none, s₁) ∧
          s.add chain now tx isLocalTransaction = (none, s₁.enforcePoolLimits)) ∨
        ∃ e s₁, s.offer chain now tx address isLocalTransaction = (some e, s₁) ∧
          s.add chain now tx isLocalTransaction =
            (some e, s₁.setHandled tx.hash ⟨address, now, some e⟩)) := by
  by_cases hsigned : tx.isSigned = false
  · exact .inl ⟨.unsigned, by rw [add, if_pos hsigned], .inl hsigned⟩
  · cases hsender : tx.getSenderAddress with
    | none => exact .inl ⟨.noSender, by rw [add, if_neg hsigned, hsender], .inr rfl⟩
    | some address =>
      refine .inr ⟨address, Bool.eq_true_of_not_eq_false hsigned, rfl, ?_⟩
      rw [add, if_neg hsigned, hsender]
      simp only [tryAdd]
      generalize s.offer chain now tx address isLocalTransaction = r
      obtain ⟨_ | e, s₁⟩ := r
      · exact .inl ⟨s₁, rfl, rfl⟩
      · exact .inr ⟨e, s₁, rfl, rfl⟩

theorem add_keeps (hhash : Set.InjOn TxManager.hash txs) (hs : Kept txs s) (now : ℕ)
    (htx : tx ∈ txs) {isLocalTransaction : Bool}
    (hadd : s.AddKeepsBooks chain tx isLocalTransaction) :
    Kept txs (s.add chain now tx isLocalTransaction).2 := by
  rcases s.add_cases chain now tx isLocalTransaction with
    ⟨e, hresult, -⟩ | ⟨address, -, hsender, hcases⟩
  · rw [hresult]
    exact hs
  · have hoffer := offer_keeps hhash hs now htx hsender hadd
    rcases hcases with ⟨s₁, heq, hresult⟩ | ⟨e, s₁, heq, hresult⟩
    · rw [heq] at hoffer
      rw [hresult]
      exact enforcePoolLimits_keeps hhash hoffer
    · rw [heq] at hoffer
      rw [hresult]
      exact ⟨hoffer.1.congr rfl rfl rfl rfl, hoffer.2.congr rfl⟩

end TxPool

end TsEthereum
