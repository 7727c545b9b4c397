import TsEthereum.Common.Runs
import TsEthereum.TxPool.Methods

/-!
# The books of the pool

The counters, the heap and the hash index are kept by hand beside the two maps
of lists. `Books` says that they agree with them, and that no sender has two
transactions of one nonce. What a method does to the lists of one sender is a
`Rearranges`: some transactions leave, the others stay in the list they were in
or move to the other one. All but `add` do nothing else, and it keeps the books
(`Books.rearrange`) where the index is kept with the lists. `add` puts one
transaction in as well (`Books.put`).
-/

namespace TsEthereum

namespace TxPool

variable {s s' : TxPool} {pool pool' : PoolType} {address address' : Bytes20}
variable {objs : List TxPoolObject}

/-! ## What is read after an update -/

theorem lists_setList (s : TxPool) (pool : PoolType) (address : Bytes20) (objs : List TxPoolObject) :
    (s.setList pool address objs).lists =
      Function.update s.lists pool ((s.lists pool).set address objs) := rfl

theorem lists_replaceList (s : TxPool) (pool : PoolType) (address : Bytes20)
    (objs : List TxPoolObject) : (s.replaceList pool address objs).lists =
      Function.update s.lists pool ((s.lists pool).replace address objs) := rfl

theorem list_setList (s : TxPool) (pool : PoolType) (address : Bytes20) (objs : List TxPoolObject)
    (pool' : PoolType) (address' : Bytes20) :
    (s.setList pool address objs).list pool' address' =
      if pool' = pool ∧ address' = address then objs else s.list pool' address' := by
  rw [list, lists_setList]
  by_cases hpool : pool' = pool
  · subst hpool
    rw [Function.update_self, JsMap.list_set]
    simp [list]
  · rw [Function.update_of_ne hpool]
    simp [hpool, list]

theorem list_replaceList (s : TxPool) (pool : PoolType) (address : Bytes20)
    (objs : List TxPoolObject) (pool' : PoolType) (address' : Bytes20) :
    (s.replaceList pool address objs).list pool' address' =
      if pool' = pool ∧ address' = address then objs else s.list pool' address' := by
  rw [list, lists_replaceList]
  by_cases hpool : pool' = pool
  · subst hpool
    rw [Function.update_self, JsMap.list_replace]
    simp [list]
  · rw [Function.update_of_ne hpool]
    simp [hpool, list]

theorem forAddresses_keeps {method : TxPool → Bytes20 → Except TxPoolError TxPool}
    {P : TxPool → Prop} (h : ∀ s address s', P s → method s address = .ok s' → P s')
    (addresses : List Bytes20) {s : TxPool} (hs : P s) :
    P (forAddresses method s addresses).2 := by
  induction addresses generalizing s with
  | nil => exact hs
  | cons address addresses ih =>
    rw [forAddresses]
    cases hmethod : method s address with
    | error e => exact hs
    | ok s' => exact ih (h s address s' hs hmethod)

theorem sortByNonce_perm (objs : List TxPoolObject) : (sortByNonce objs).Perm objs :=
  List.perm_insertionSort _ objs

/-! ## The books -/

/-- A transaction is in the pool. -/
def Pooled (s : TxPool) (obj : TxPoolObject) : Prop := ∃ pool address, obj ∈ s.list pool address

/-- **The books are kept**: each counter is the length of its lists, the heap and
the hash index have the pooled transactions and no others, and no sender has
two of one nonce. -/
structure Books (s : TxPool) : Prop where
  counted : ∀ pool, s.counts pool = (s.lists pool).size
  nodup_priced : s.priced.Nodup
  mem_priced : ∀ obj, obj ∈ s.priced ↔ s.Pooled obj
  indexed : ∀ hash address pool, s.hashIndex hash = some ⟨address, pool⟩ ↔
    ∃ obj ∈ s.list pool address, obj.hash = hash
  nonces : ∀ address,
    ((s.list .pending address ++ s.list .queued address).map fun obj => obj.tx.nonce).Nodup

/-- **What is pooled was offered**, and is filed under its sender. -/
structure Filed (txs : Set TxManager) (s : TxPool) : Prop where
  sender : ∀ pool address obj, obj ∈ s.list pool address → obj.tx.getSenderAddress = some address
  offered : ∀ pool address obj, obj ∈ s.list pool address → obj.tx ∈ txs

variable {txs : Set TxManager}

/-- What every method keeps. -/
def Kept (txs : Set TxManager) (s : TxPool) : Prop := Books s ∧ Filed txs s

theorem books_new : Books new where
  counted _ := rfl
  nodup_priced := List.nodup_nil
  mem_priced obj := by
    constructor
    · intro h
      cases h
    · rintro ⟨_, _, h⟩
      cases h
  indexed hash address pool := by
    constructor
    · intro h
      cases h
    · rintro ⟨_, h, _⟩
      cases h
  nonces _ := List.nodup_nil

theorem filed_new : Filed txs new where
  sender _ _ _ h := by cases h
  offered _ _ _ h := by cases h

theorem Books.congr (h : Books s) (hlists : s'.lists = s.lists) (hcounts : s'.counts = s.counts)
    (hpriced : s'.priced = s.priced) (hindex : s'.hashIndex = s.hashIndex) : Books s' where
  counted := by rw [hcounts, hlists]; exact h.counted
  nodup_priced := by rw [hpriced]; exact h.nodup_priced
  mem_priced := by
    simp only [Pooled, list, hlists, hpriced]
    exact h.mem_priced
  indexed := by
    simp only [list, hlists, hindex]
    exact h.indexed
  nonces := by
    simp only [list, hlists]
    exact h.nonces

theorem Filed.congr (h : Filed txs s) (hlists : s'.lists = s.lists) : Filed txs s' where
  sender := by
    simp only [list, hlists]
    exact h.sender
  offered := by
    simp only [list, hlists]
    exact h.offered

/-- All that a sender has. -/
def all (s : TxPool) (address : Bytes20) : List TxPoolObject :=
  s.list .pending address ++ s.list .queued address

theorem mem_all {obj : TxPoolObject} : obj ∈ s.all address ↔ ∃ pool, obj ∈ s.list pool address := by
  rw [all, List.mem_append]
  constructor
  · rintro (h | h)
    · exact ⟨_, h⟩
    · exact ⟨_, h⟩
  · rintro ⟨_ | _, h⟩
    · exact .inl h
    · exact .inr h

theorem Filed.address_eq (h : Filed txs s) (hhash : Set.InjOn TxManager.hash txs)
    {obj obj' : TxPoolObject} (hmem : obj ∈ s.list pool address) (hmem' : obj' ∈ s.list pool' address')
    (heq : obj.hash = obj'.hash) : address = address' := by
  have htx : obj.tx = obj'.tx := hhash (h.offered _ _ _ hmem) (h.offered _ _ _ hmem')
    (by rw [← obj.hash_eq, ← obj'.hash_eq, heq])
  have hsender := h.sender _ _ _ hmem
  rw [htx, h.sender _ _ _ hmem'] at hsender
  exact (Option.some.inj hsender).symm

theorem Filed.eq_of_hash (h : Filed txs s) (hhash : Set.InjOn TxManager.hash txs)
    (hnonces : ((s.all address).map fun obj => obj.tx.nonce).Nodup)
    {obj obj' : TxPoolObject} (hmem : obj ∈ s.all address) (hmem' : obj' ∈ s.all address)
    (heq : obj.hash = obj'.hash) : obj = obj' := by
  obtain ⟨pool, hpool⟩ := mem_all.1 hmem
  obtain ⟨pool', hpool'⟩ := mem_all.1 hmem'
  have htx : obj.tx = obj'.tx := hhash (h.offered _ _ _ hpool) (h.offered _ _ _ hpool')
    (by rw [← obj.hash_eq, ← obj'.hash_eq, heq])
  exact List.inj_on_of_nodup_map hnonces hmem hmem' (by rw [htx])

/-! ## Rearrangements -/

/-- **What a method does to one sender's transactions**: `gone` leave, and the
others are in `kept`. -/
structure Rearranges (s s' : TxPool) (address : Bytes20) (gone : List TxPoolObject)
    (kept : PoolType → List TxPoolObject) : Prop where
  perm : (s.all address).Perm (gone ++ (kept .pending ++ kept .queued))
  list : ∀ pool address', s'.list pool address' =
    if address' = address then kept pool else s.list pool address'
  size : ∀ pool, (s'.lists pool).size + (s.list pool address).length =
    (s.lists pool).size + (kept pool).length
  counts : ∀ pool, s'.counts pool + (s.list pool address).length =
    s.counts pool + (kept pool).length
  priced : s'.priced = s.priced.filter fun item => ∀ obj ∈ gone, item.hash ≠ obj.hash
  unindexed : ∀ obj ∈ gone, s'.hashIndex obj.hash = none
  indexed : ∀ pool, ∀ obj ∈ kept pool, s'.hashIndex obj.hash = some ⟨address, pool⟩
  others : ∀ hash, (∀ obj ∈ s.all address, obj.hash ≠ hash) → s'.hashIndex hash = s.hashIndex hash

section

variable {gone : List TxPoolObject} {kept : PoolType → List TxPoolObject}

theorem Rearranges.mem_all (h : Rearranges s s' address gone kept) {obj : TxPoolObject} :
    obj ∈ s.all address ↔ obj ∈ gone ∨ ∃ pool, obj ∈ kept pool := by
  rw [h.perm.mem_iff, List.mem_append, List.mem_append]
  refine or_congr_right ⟨?_, ?_⟩
  · rintro (hobj | hobj)
    · exact ⟨_, hobj⟩
    · exact ⟨_, hobj⟩
  · rintro ⟨_ | _, hobj⟩
    · exact .inl hobj
    · exact .inr hobj

theorem Rearranges.exists_mem_list (h : Rearranges s s' address gone kept) {obj : TxPoolObject}
    (hobj : obj ∈ s'.list pool address') : ∃ pool', obj ∈ s.list pool' address' := by
  rw [h.list] at hobj
  split at hobj
  · rename_i haddress
    subst haddress
    exact TxPool.mem_all.1 (h.mem_all.2 (.inr ⟨_, hobj⟩))
  · exact ⟨_, hobj⟩

theorem Filed.rearrange (hf : Filed txs s) (h : Rearranges s s' address gone kept) :
    Filed txs s' where
  sender _ _ _ hobj := by
    obtain ⟨_, hobj⟩ := h.exists_mem_list hobj
    exact hf.sender _ _ _ hobj
  offered _ _ _ hobj := by
    obtain ⟨_, hobj⟩ := h.exists_mem_list hobj
    exact hf.offered _ _ _ hobj

theorem Books.nodup_rearrange (hb : Books s) (h : Rearranges s s' address gone kept) :
    ((gone ++ (kept .pending ++ kept .queued)).map fun obj => obj.tx.nonce).Nodup :=
  ((h.perm.map _).nodup_iff).1 (hb.nonces address)

theorem Books.notMem_kept (hb : Books s) (h : Rearranges s s' address gone kept) {obj : TxPoolObject}
    (hobj : obj ∈ gone) : obj ∉ kept pool := by
  intro hkept
  have hnodup := (hb.nodup_rearrange h).of_map
  refine (List.nodup_append.1 hnodup).2.2 obj hobj obj (List.mem_append.2 ?_) rfl
  cases pool with
  | pending => exact .inl hkept
  | queued => exact .inr hkept

theorem Books.pool_eq (hb : Books s) (h : Rearranges s s' address gone kept) {obj : TxPoolObject}
    (hobj : obj ∈ kept pool) (hobj' : obj ∈ kept pool') : pool = pool' := by
  have hnodup := (List.nodup_append.1 (hb.nodup_rearrange h).of_map).2.1
  have hdisjoint := (List.nodup_append.1 hnodup).2.2
  cases pool with
  | pending =>
    cases pool' with
    | pending => rfl
    | queued => exact absurd rfl (hdisjoint obj hobj obj hobj')
  | queued =>
    cases pool' with
    | pending => exact absurd rfl (hdisjoint obj hobj' obj hobj)
    | queued => rfl

theorem Books.rearrange (hb : Books s) (hf : Filed txs s) (hhash : Set.InjOn TxManager.hash txs)
    (h : Rearranges s s' address gone kept) : Books s' where
  counted pool := by
    have hcounts := h.counts pool
    have hsize := h.size pool
    have := hb.counted pool
    omega
  nodup_priced := by
    rw [h.priced]
    exact hb.nodup_priced.filter _
  mem_priced obj := by
    rw [h.priced, List.mem_filter, hb.mem_priced, decide_eq_true_eq]
    constructor
    · rintro ⟨⟨pool, address', hobj⟩, hne⟩
      by_cases haddress : address' = address
      · subst haddress
        rcases h.mem_all.1 (TxPool.mem_all.2 ⟨_, hobj⟩) with hgone | ⟨pool', hkept⟩
        · exact absurd rfl (hne obj hgone)
        · exact ⟨pool', address', by rw [h.list, if_pos rfl]; exact hkept⟩
      · exact ⟨pool, address', by rw [h.list, if_neg haddress]; exact hobj⟩
    · rintro ⟨pool, address', hobj⟩
      obtain ⟨pool', hobj'⟩ := h.exists_mem_list hobj
      refine ⟨⟨_, _, hobj'⟩, fun gone' hgone heq => ?_⟩
      have hall := h.mem_all.2 (.inl hgone)
      obtain ⟨_, hgone'⟩ := TxPool.mem_all.1 hall
      obtain rfl : address' = address := hf.address_eq hhash hobj' hgone' heq
      rw [h.list, if_pos rfl] at hobj
      obtain rfl := hf.eq_of_hash hhash (hb.nonces address') (TxPool.mem_all.2 ⟨_, hobj'⟩) hall heq
      exact hb.notMem_kept h hgone hobj
  indexed hash address' pool := by
    by_cases hhere : ∃ obj ∈ s.all address, obj.hash = hash
    · obtain ⟨obj, hall, rfl⟩ := hhere
      -- whatever has this hash afterwards is this transaction
      have hself : ∀ obj' ∈ s'.list pool address', obj'.hash = obj.hash →
          address' = address ∧ obj' = obj := by
        intro obj' hobj' heq
        obtain ⟨_, hbefore⟩ := h.exists_mem_list hobj'
        obtain ⟨_, hobj⟩ := TxPool.mem_all.1 hall
        obtain rfl : address' = address := hf.address_eq hhash hbefore hobj heq
        exact ⟨rfl, hf.eq_of_hash hhash (hb.nonces address') (TxPool.mem_all.2 ⟨_, hbefore⟩) hall heq⟩
      rcases h.mem_all.1 hall with hgone | ⟨pool', hkept⟩
      · rw [h.unindexed obj hgone]
        constructor
        · intro hnone
          cases hnone
        · rintro ⟨obj', hobj', heq⟩
          obtain ⟨rfl, rfl⟩ := hself obj' hobj' heq
          rw [h.list, if_pos rfl] at hobj'
          exact absurd hobj' (hb.notMem_kept h hgone)
      · rw [h.indexed pool' obj hkept]
        constructor
        · intro heq
          cases heq
          exact ⟨obj, by rw [h.list, if_pos rfl]; exact hkept, rfl⟩
        · rintro ⟨obj', hobj', heq⟩
          obtain ⟨rfl, rfl⟩ := hself obj' hobj' heq
          rw [h.list, if_pos rfl] at hobj'
          rw [hb.pool_eq h hkept hobj']
    · have hnone : ∀ obj ∈ s.all address, obj.hash ≠ hash := fun obj hobj heq => hhere ⟨obj, hobj, heq⟩
      rw [h.others hash hnone, hb.indexed, h.list]
      by_cases haddress : address' = address
      · subst haddress
        rw [if_pos rfl]
        constructor
        · rintro ⟨obj, hobj, heq⟩
          exact absurd heq (hnone obj (TxPool.mem_all.2 ⟨_, hobj⟩))
        · rintro ⟨obj, hobj, heq⟩
          exact absurd heq (hnone obj (h.mem_all.2 (.inr ⟨_, hobj⟩)))
      · rw [if_neg haddress]
  nonces address' := by
    rw [h.list, h.list]
    split
    · have hnodup := hb.nodup_rearrange h
      rw [List.map_append] at hnodup
      exact (List.nodup_append.1 hnodup).2.1
    · exact hb.nonces address'

end

/-! ## One list -/

/-- Transactions leave one list. -/
structure Takes (s s' : TxPool) (pool : PoolType) (address : Bytes20)
    (gone kept : List TxPoolObject) : Prop where
  perm : (s.list pool address).Perm (gone ++ kept)
  list : ∀ pool' address', s'.list pool' address' =
    if pool' = pool ∧ address' = address then kept else s.list pool' address'
  size : ∀ pool', (s'.lists pool').size + (if pool' = pool then gone.length else 0) =
    (s.lists pool').size
  counts : ∀ pool', s'.counts pool' + (if pool' = pool then gone.length else 0 : ℕ) =
    s.counts pool'
  priced : s'.priced = s.priced.filter fun item => ∀ obj ∈ gone, item.hash ≠ obj.hash
  unindexed : ∀ obj ∈ gone, s'.hashIndex obj.hash = none
  others : ∀ hash, (∀ obj ∈ gone, obj.hash ≠ hash) → s'.hashIndex hash = s.hashIndex hash

/-- The lists of a sender, where one of them is another. -/
def listsWith (s : TxPool) (address : Bytes20) (pool : PoolType) (kept : List TxPoolObject) :
    PoolType → List TxPoolObject :=
  Function.update (fun pool => s.list pool address) pool kept

theorem Takes.rearranges {gone kept : List TxPoolObject} (h : Takes s s' pool address gone kept)
    (hb : Books s) (hf : Filed txs s) (hhash : Set.InjOn TxManager.hash txs) :
    Rearranges s s' address gone (s.listsWith address pool kept) := by
  have hperm : (s.all address).Perm (gone ++ (s.listsWith address pool kept .pending ++
      s.listsWith address pool kept .queued)) := by
    cases pool with
    | pending =>
      change (s.list .pending address ++ s.list .queued address).Perm
        (gone ++ (kept ++ s.list .queued address))
      rw [← List.append_assoc]
      exact h.perm.append_right _
    | queued =>
      change (s.list .pending address ++ s.list .queued address).Perm
        (gone ++ (s.list .pending address ++ kept))
      refine (h.perm.append_left _).trans ?_
      rw [← List.append_assoc, ← List.append_assoc]
      exact List.perm_append_comm.append_right _
  have hnodup := ((hperm.map fun obj => obj.tx.nonce).nodup_iff).1 (hb.nonces address)
  have hlength := h.perm.length_eq
  rw [List.length_append] at hlength
  refine ⟨hperm, ?_, ?_, ?_, h.priced, h.unindexed, ?_, ?_⟩
  · intro pool' address'
    rw [h.list, listsWith]
    by_cases haddress : address' = address
    · subst haddress
      by_cases hpool : pool' = pool
      · subst hpool
        simp
      · simp [hpool]
    · simp [haddress]
  · intro pool'
    have hsize := h.size pool'
    by_cases hpool : pool' = pool
    · subst hpool
      rw [if_pos rfl] at hsize
      rw [listsWith, Function.update_self]
      omega
    · rw [if_neg hpool] at hsize
      rw [listsWith, Function.update_of_ne hpool]
      omega
  · intro pool'
    have hcounts := h.counts pool'
    by_cases hpool : pool' = pool
    · subst hpool
      rw [if_pos rfl] at hcounts
      rw [listsWith, Function.update_self]
      omega
    · rw [if_neg hpool] at hcounts
      rw [listsWith, Function.update_of_ne hpool]
      omega
  · intro pool' obj hobj
    have hlisted : obj ∈ s.listsWith address pool kept .pending ++
        s.listsWith address pool kept .queued := by
      rw [List.mem_append]
      cases pool' with
      | pending => exact .inl hobj
      | queued => exact .inr hobj
    have hall := hperm.mem_iff.2 (List.mem_append_right _ hlisted)
    rw [h.others]
    · refine (hb.indexed _ _ _).2 ⟨obj, ?_, rfl⟩
      rw [listsWith] at hobj
      by_cases hpool : pool' = pool
      · subst hpool
        rw [Function.update_self] at hobj
        exact h.perm.mem_iff.2 (List.mem_append_right _ hobj)
      · rwa [Function.update_of_ne hpool] at hobj
    · intro obj' hgone heq
      have hall' := hperm.mem_iff.2 (List.mem_append_left _ hgone)
      obtain rfl := hf.eq_of_hash hhash (hb.nonces address) hall' hall heq
      exact (List.nodup_append.1 hnodup.of_map).2.2 _ hgone _ hlisted rfl
  · intro hash hother
    refine h.others hash fun obj hobj => hother obj (TxPool.mem_all.2 ⟨pool, ?_⟩)
    exact h.perm.mem_iff.2 (List.mem_append_left _ hobj)

/-- The state when a list is replaced and some counters, items and entries are
gone. -/
theorem takes_of_replace {gone kept : List TxPoolObject}
    (hperm : (s.list pool address).Perm (gone ++ kept))
    (hlists : s'.lists = (s.replaceList pool address kept).lists)
    (hcounts : s'.counts = (s.addCount pool (-gone.length)).counts)
    (hpriced : s'.priced = s.priced.filter fun item => ∀ obj ∈ gone, item.hash ≠ obj.hash)
    (hgone : ∀ obj ∈ gone, s'.hashIndex obj.hash = none)
    (hothers : ∀ hash, (∀ obj ∈ gone, obj.hash ≠ hash) → s'.hashIndex hash = s.hashIndex hash) :
    Takes s s' pool address gone kept := by
  refine ⟨hperm, ?_, ?_, ?_, hpriced, hgone, hothers⟩
  · intro pool' address'
    rw [← list_replaceList, list, list, hlists]
  · intro pool'
    rw [hlists, lists_replaceList]
    by_cases hpool : pool' = pool
    · subst hpool
      rw [Function.update_self, if_pos rfl]
      have hsize := JsMap.size_replace (s.lists pool') address kept
      have hlength := hperm.length_eq
      rw [List.length_append] at hlength
      change _ + (s.list pool' address).length = _ at hsize
      omega
    · rw [Function.update_of_ne hpool, if_neg hpool]
      rfl
  · intro pool'
    rw [hcounts, addCount]
    by_cases hpool : pool' = pool
    · subst hpool
      simp
    · simp [hpool]

theorem Takes.keeps {gone kept : List TxPoolObject} (h : Takes s s' pool address gone kept)
    (hhash : Set.InjOn TxManager.hash txs) (hs : Kept txs s) : Kept txs s' :=
  have hr := h.rearranges hs.1 hs.2 hhash
  ⟨hs.1.rearrange hs.2 hhash hr, hs.2.rearrange hr⟩

end TxPool

end TsEthereum
