import TsEthereum.TxPool.Removals

/-!
# Promotions

`promoteExecutables` sorts the queued transactions of a sender into those that
go to `pending`, those that are stale and those that stay (`promotion_perm`),
and keeps the index with the lists. So it keeps the books, for one sender and
for all.
-/

namespace TsEthereum

namespace TxPool

variable {s s' : TxPool} {pool pool' : PoolType} {address address' : Bytes20}
variable {objs : List TxPoolObject} {txs : Set TxManager} {chain : ChainView}

theorem promotion_perm (accountNonce nextExpectedNonce : ℕ) (objs : List TxPoolObject) :
    objs.Perm ((promotion accountNonce nextExpectedNonce objs).stale ++
      ((promotion accountNonce nextExpectedNonce objs).toPromote ++
        (promotion accountNonce nextExpectedNonce objs).remaining)) := by
  induction objs generalizing nextExpectedNonce with
  | nil => exact List.Perm.refl _
  | cons txObj objs ih =>
    rw [promotion]
    split
    · exact ((ih _).cons txObj).trans List.perm_middle.symm
    · split
      · exact (ih _).cons txObj
      · refine ((ih nextExpectedNonce).cons txObj).trans ?_
        rw [← List.append_assoc, ← List.append_assoc]
        exact List.perm_middle.symm

theorem getNonce_cases {nonce : ℕ} (h : s.getNonce chain address = .ok (nonce, s')) :
    s' = { s with accountNonces := s'.accountNonces } ∧ s'.accountNonces address = some nonce ∧
      (∀ address', address' ≠ address → s'.accountNonces address' = s.accountNonces address') ∧
      (s.accountNonces address = some nonce ∨
        s.accountNonces address = none ∧
          ∃ account, chain.headAccount address = .ok account ∧ account.nonce = nonce) := by
  rw [getNonce] at h
  cases hcached : s.accountNonces address with
  | some cached =>
    rw [hcached] at h
    cases h
    exact ⟨rfl, hcached, fun _ _ => rfl, .inl rfl⟩
  | none =>
    rw [hcached] at h
    cases haccount : chain.headAccount address with
    | error e =>
      rw [haccount] at h
      cases h
    | ok account =>
      rw [haccount] at h
      cases h
      refine ⟨rfl, Function.update_self _ _ _, fun address' hne => ?_, .inr ⟨rfl, account, rfl, rfl⟩⟩
      exact Function.update_of_ne hne _ _

theorem getNonce_keeps {nonce : ℕ} (h : s.getNonce chain address = .ok (nonce, s'))
    (hs : Kept txs s) : Kept txs s' := by
  rw [(getNonce_cases h).1]
  exact ⟨hs.1.congr rfl rfl rfl rfl, hs.2.congr rfl⟩

/-! ## What a promotion leaves -/

/-- `pending` with the promoted ones. -/
def promotedList (s : TxPool) (address : Bytes20) (toPromote : List TxPoolObject) :
    List TxPoolObject :=
  if toPromote.isEmpty then s.list .pending address
  else sortByNonce (s.list .pending address ++ toPromote)

theorem promotedList_perm (s : TxPool) (address : Bytes20) (toPromote : List TxPoolObject) :
    (s.promotedList address toPromote).Perm (s.list .pending address ++ toPromote) := by
  rw [promotedList]
  split
  · rename_i hnil
    rw [List.isEmpty_iff.1 hnil, List.append_nil]
  · exact sortByNonce_perm _

theorem list_movePromoted (s : TxPool) (address : Bytes20) (toPromote : List TxPoolObject)
    (pool' : PoolType) (address' : Bytes20) :
    (s.movePromoted address toPromote).list pool' address' =
      if pool' = .pending ∧ address' = address then s.promotedList address toPromote
      else s.list pool' address' := by
  rw [movePromoted, promotedList]
  split
  · split
    · rename_i heq
      rw [heq.1, heq.2]
    · rfl
  · rw [← list_setList, list, list]
    exact congrArg (fun lists => (lists pool').list address')
      (foldl_eq (f := indexPromoted address) (g := TxPool.lists) (fun _ _ => rfl) toPromote _)

theorem size_movePromoted (s : TxPool) (address : Bytes20) (toPromote : List TxPoolObject)
    (pool' : PoolType) : ((s.movePromoted address toPromote).lists pool').size =
      (s.lists pool').size + if pool' = .pending then toPromote.length else 0 := by
  rw [movePromoted]
  split
  · rename_i hnil
    simp [List.isEmpty_iff.1 hnil]
  · rw [foldl_eq (f := indexPromoted address) (g := TxPool.lists) (fun _ _ => rfl)]
    change ((s.setList .pending address _).lists pool').size = _
    rw [lists_setList]
    by_cases hpool : pool' = .pending
    · subst hpool
      rw [Function.update_self, if_pos rfl]
      have hsize := JsMap.size_set (s.lists .pending) address
        (sortByNonce (s.list .pending address ++ toPromote))
      rw [(sortByNonce_perm _).length_eq, List.length_append] at hsize
      change _ + (s.list .pending address).length = _ at hsize
      omega
    · rw [Function.update_of_ne hpool, if_neg hpool, Nat.add_zero]

theorem counts_movePromoted (s : TxPool) (address : Bytes20) (toPromote : List TxPoolObject)
    (pool' : PoolType) : (s.movePromoted address toPromote).counts pool' =
      s.counts pool' + if pool' = .pending then (toPromote.length : ℤ) else -toPromote.length := by
  rw [movePromoted]
  split
  · rename_i hnil
    simp [List.isEmpty_iff.1 hnil]
  · rw [foldl_eq (f := indexPromoted address) (g := TxPool.counts) (fun _ _ => rfl)]
    cases pool' with
    | pending => simp [addCount, setList]
    | queued => simp [addCount, setList]

theorem priced_movePromoted (s : TxPool) (address : Bytes20) (toPromote : List TxPoolObject) :
    (s.movePromoted address toPromote).priced = s.priced := by
  rw [movePromoted]
  split
  · rfl
  · exact foldl_eq (f := indexPromoted address) (g := TxPool.priced) (fun _ _ => rfl) toPromote _

theorem hashIndex_movePromoted (s : TxPool) (address : Bytes20) (toPromote : List TxPoolObject)
    (hash : Bytes32) : (s.movePromoted address toPromote).hashIndex hash =
      if ∃ obj ∈ toPromote, obj.hash = hash then some ⟨address, .pending⟩
      else s.hashIndex hash := by
  rw [movePromoted]
  split
  · rename_i hnil
    simp [List.isEmpty_iff.1 hnil]
  · exact foldl_hashIndex (f := indexPromoted address) (fun _ _ => rfl) _ _ _

theorem lists_foldl_removeStale (stale : List TxPoolObject) (s : TxPool) :
    (stale.foldl removeStale s).lists = s.lists :=
  foldl_eq (f := removeStale) (g := TxPool.lists) (fun _ _ => rfl) stale s

theorem counts_foldl_removeStale (stale : List TxPoolObject) (s : TxPool) (pool' : PoolType) :
    (stale.foldl removeStale s).counts pool' =
      s.counts pool' - if pool' = .queued then (stale.length : ℤ) else 0 := by
  induction stale generalizing s with
  | nil => simp
  | cons txObj stale ih =>
    rw [List.foldl_cons, ih]
    change Function.update s.counts .queued (s.counts .queued + -1) pool' - _ = _
    cases pool' with
    | pending => simp
    | queued =>
      simp only [Function.update_self, if_true, List.length_cons]
      omega

theorem promoteAddress_cases (h : s.promoteAddress chain address = .ok s') :
    s' = s ∧ s.list .queued address = [] ∨
      ∃ nonce s₁, s.getNonce chain address = .ok (nonce, s₁) ∧ s' = s₁.promote nonce address := by
  rw [promoteAddress] at h
  split at h
  · rename_i hnil
    cases h
    exact .inl ⟨rfl, List.isEmpty_iff.1 hnil⟩
  · cases hnonce : s.getNonce chain address with
    | error e =>
      rw [hnonce] at h
      cases h
    | ok r =>
      obtain ⟨nonce, s₁⟩ := r
      rw [hnonce] at h
      cases h
      exact .inr ⟨nonce, s₁, rfl, rfl⟩

/-- How the queued transactions of a sender are sorted out. -/
def sortedOut (s : TxPool) (accountNonce : ℕ) (address : Bytes20) : Promotion :=
  promotion accountNonce (nextExpectedNonce accountNonce (s.list .pending address))
    (sortByNonce (s.list .queued address))

/-- The lists a sender has afterwards. -/
def sortedLists (s : TxPool) (accountNonce : ℕ) (address : Bytes20) :
    PoolType → List TxPoolObject
  | .pending => s.promotedList address (s.sortedOut accountNonce address).toPromote
  | .queued => (s.sortedOut accountNonce address).remaining

theorem queued_perm (s : TxPool) (accountNonce : ℕ) (address : Bytes20) :
    (s.list .queued address).Perm ((s.sortedOut accountNonce address).stale ++
      ((s.sortedOut accountNonce address).toPromote ++
        (s.sortedOut accountNonce address).remaining)) :=
  (sortByNonce_perm _).symm.trans (promotion_perm _ _ _)

theorem promote_eq (s : TxPool) (accountNonce : ℕ) (address : Bytes20) :
    s.promote accountNonce address =
      (((s.sortedOut accountNonce address).stale.foldl removeStale s).movePromoted address
        (s.sortedOut accountNonce address).toPromote).replaceList .queued address
          (s.sortedOut accountNonce address).remaining := rfl

theorem list_promote (s : TxPool) (accountNonce : ℕ) (address : Bytes20) (pool' : PoolType)
    (address' : Bytes20) : (s.promote accountNonce address).list pool' address' =
      if address' = address then s.sortedLists accountNonce address pool'
      else s.list pool' address' := by
  have hstale : ∀ pool' address', ((s.sortedOut accountNonce address).stale.foldl removeStale s).list
      pool' address' = s.list pool' address' := by
    intro pool' address'
    rw [list, lists_foldl_removeStale, list]
  rw [promote_eq, list_replaceList, list_movePromoted]
  by_cases haddress : address' = address
  · subst haddress
    cases pool' with
    | pending =>
      rw [if_neg (by simp), if_pos ⟨rfl, rfl⟩, if_pos rfl, sortedLists, promotedList, promotedList,
        hstale]
    | queued => rw [if_pos ⟨rfl, rfl⟩, if_pos rfl, sortedLists]
  · rw [if_neg (by simp [haddress]), if_neg (by simp [haddress]), if_neg haddress, hstale]

theorem promote_leaves {β : Type} (g : TxPool → β) (hstale : ∀ s txObj, g (removeStale s txObj) = g s)
    (hindex : ∀ s txObj, g (indexPromoted address s txObj) = g s)
    (hset : ∀ s objs, g (s.setList .pending address objs) = g s)
    (hreplace : ∀ s objs, g (s.replaceList .queued address objs) = g s)
    (hcount : ∀ s pool difference, g (s.addCount pool difference) = g s) (s : TxPool)
    (accountNonce : ℕ) : g (s.promote accountNonce address) = g s := by
  rw [promote_eq, hreplace, movePromoted]
  split
  · exact foldl_eq (f := removeStale) (g := g) hstale _ _
  · rw [foldl_eq (f := indexPromoted address) (g := g) hindex, hcount, hcount, hset]
    exact foldl_eq (f := removeStale) (g := g) hstale _ _

theorem accountNonces_promote (s : TxPool) (accountNonce : ℕ) (address : Bytes20) :
    (s.promote accountNonce address).accountNonces = s.accountNonces :=
  promote_leaves TxPool.accountNonces (fun _ _ => rfl) (fun _ _ => rfl) (fun _ _ => rfl)
    (fun _ _ => rfl) (fun _ _ _ => rfl) s accountNonce

theorem mem_of_mem_promote {accountNonce : ℕ} {obj : TxPoolObject}
    (h : obj ∈ (s.promote accountNonce address).list pool address') :
    ∃ pool', obj ∈ s.list pool' address' := by
  rw [list_promote] at h
  split at h
  · rename_i haddress
    subst haddress
    have hqueued := s.queued_perm accountNonce address'
    cases pool with
    | pending =>
      rcases List.mem_append.1 ((promotedList_perm s address' _).mem_iff.1 h) with hold | hpromoted
      · exact ⟨.pending, hold⟩
      · exact ⟨.queued, hqueued.mem_iff.2 (by simp [hpromoted])⟩
    | queued =>
      exact ⟨.queued, hqueued.mem_iff.2 (List.mem_append_right _ (List.mem_append_right _ h))⟩
  · exact ⟨pool, h⟩

/-- **A promotion is a rearrangement**: the stale ones leave, and those that are
promoted are in `pending` afterwards. -/
theorem promote_rearranges (hb : Books s) (hf : Filed txs s) (hhash : Set.InjOn TxManager.hash txs)
    (accountNonce : ℕ) (address : Bytes20) :
    Rearranges s (s.promote accountNonce address) address (s.sortedOut accountNonce address).stale
      (s.sortedLists accountNonce address) := by
  have hqueued := s.queued_perm accountNonce address
  have hpending := promotedList_perm s address (s.sortedOut accountNonce address).toPromote
  have hqlength := hqueued.length_eq
  have hplength := hpending.length_eq
  rw [List.length_append, List.length_append] at hqlength
  rw [List.length_append] at hplength
  have hperm : (s.all address).Perm ((s.sortedOut accountNonce address).stale ++
      (s.sortedLists accountNonce address .pending ++
        s.sortedLists accountNonce address .queued)) := by
    rw [← Multiset.coe_eq_coe] at hqueued hpending ⊢
    simp only [all, sortedLists, ← Multiset.coe_add] at hqueued hpending ⊢
    rw [hqueued, hpending]
    ac_rfl
  -- no two of the sender's transactions have one hash
  have huniq : ∀ obj ∈ s.all address, ∀ obj' ∈ s.all address, obj.hash = obj'.hash → obj = obj' :=
    fun obj hobj obj' hobj' => hf.eq_of_hash hhash (hb.nonces address) hobj hobj'
  have hnodup : ((s.sortedOut accountNonce address).stale ++
      ((s.sortedOut accountNonce address).toPromote ++
        (s.sortedOut accountNonce address).remaining)).Nodup :=
    (hqueued.nodup_iff).1 (hb.nodup_list .queued address).of_map
  have hmem : ∀ obj, obj ∈ (s.sortedOut accountNonce address).stale ++
      ((s.sortedOut accountNonce address).toPromote ++
        (s.sortedOut accountNonce address).remaining) → obj ∈ s.all address :=
    fun obj hobj => mem_all.2 ⟨.queued, hqueued.mem_iff.2 hobj⟩
  have hindex : ∀ hash, (s.promote accountNonce address).hashIndex hash =
      if ∃ obj ∈ (s.sortedOut accountNonce address).toPromote, obj.hash = hash then
        some ⟨address, .pending⟩
      else if ∃ obj ∈ (s.sortedOut accountNonce address).stale, obj.hash = hash then none
      else s.hashIndex hash := by
    intro hash
    refine (hashIndex_movePromoted _ _ _ hash).trans ?_
    rw [foldl_hashIndex (f := removeStale) (fun _ _ => rfl)]
    rfl
  refine ⟨hperm, fun pool' address' => s.list_promote accountNonce address pool' address', ?_, ?_,
    ?_, ?_, ?_, ?_⟩
  · intro pool'
    rw [promote_eq, lists_replaceList]
    cases pool' with
    | pending =>
      rw [Function.update_of_ne (show PoolType.pending ≠ .queued by decide), size_movePromoted,
        lists_foldl_removeStale, if_pos rfl, sortedLists]
      omega
    | queued =>
      rw [Function.update_self, sortedLists]
      have hreplace := JsMap.size_replace
        (((s.sortedOut accountNonce address).stale.foldl removeStale s).movePromoted address
          (s.sortedOut accountNonce address).toPromote |>.lists .queued) address
        (s.sortedOut accountNonce address).remaining
      rw [size_movePromoted, lists_foldl_removeStale, if_neg (by decide), Nat.add_zero] at hreplace
      rw [← hreplace]
      change _ + (s.list .queued address).length = _ +
        (TxPool.list _ .queued address).length
      rw [list_movePromoted, if_neg (fun h => absurd h.1 (by decide)), list, list,
        lists_foldl_removeStale]
  · intro pool'
    rw [promote_eq]
    change TxPool.counts (movePromoted _ _ _) pool' + _ = _
    rw [counts_movePromoted, counts_foldl_removeStale]
    cases pool' with
    | pending =>
      simp only [sortedLists, reduceCtorEq, if_true, if_false]
      omega
    | queued =>
      simp only [sortedLists, reduceCtorEq, if_true, if_false]
      omega
  · refine (priced_movePromoted _ _ _).trans ?_
    exact foldl_priced (f := removeStale) (fun _ _ => rfl) _ _
  · intro obj hobj
    rw [hindex, if_neg, if_pos ⟨obj, hobj, rfl⟩]
    rintro ⟨obj', hobj', heq⟩
    obtain rfl := huniq obj' (hmem _ (by simp [hobj'])) obj (hmem _ (by simp [hobj])) heq
    exact (List.nodup_append.1 hnodup).2.2 obj' hobj obj' (List.mem_append_left _ hobj') rfl
  · intro pool' obj hobj
    have hall : obj ∈ s.all address := by
      refine hperm.mem_iff.2 (List.mem_append_right _ (List.mem_append.2 ?_))
      cases pool' with
      | pending => exact .inl hobj
      | queued => exact .inr hobj
    rw [hindex]
    cases pool' with
    | pending =>
      split
      · rfl
      · rename_i hnew
        have hold : obj ∈ s.list .pending address := by
          rcases List.mem_append.1 (hpending.mem_iff.1 hobj) with hold | hpromoted
          · exact hold
          · exact absurd ⟨obj, hpromoted, rfl⟩ hnew
        rw [if_neg]
        · exact (hb.indexed _ _ _).2 ⟨obj, hold, rfl⟩
        · rintro ⟨obj', hobj', heq⟩
          obtain rfl := huniq obj' (hmem _ (by simp [hobj'])) obj hall heq
          have hboth := (hb.nonces address).of_map
          exact (List.nodup_append.1 hboth).2.2 obj' hold obj'
            (hqueued.mem_iff.2 (List.mem_append_left _ hobj')) rfl
    | queued =>
      have hdisjoint := (List.nodup_append.1 (List.nodup_append.1 hnodup).2.1).2.2
      rw [if_neg, if_neg]
      · refine (hb.indexed _ _ _).2 ⟨obj, hqueued.mem_iff.2 ?_, rfl⟩
        exact List.mem_append_right _ (List.mem_append_right _ hobj)
      · rintro ⟨obj', hobj', heq⟩
        obtain rfl := huniq obj' (hmem _ (by simp [hobj'])) obj hall heq
        exact (List.nodup_append.1 hnodup).2.2 obj' hobj' obj' (List.mem_append_right _ hobj) rfl
      · rintro ⟨obj', hobj', heq⟩
        obtain rfl := huniq obj' (hmem _ (by simp [hobj'])) obj hall heq
        exact hdisjoint obj' hobj' obj' hobj rfl
  · intro hash hother
    rw [hindex, if_neg, if_neg]
    · rintro ⟨obj, hobj, heq⟩
      exact hother obj (hmem _ (by simp [hobj])) heq
    · rintro ⟨obj, hobj, heq⟩
      exact hother obj (hmem _ (by simp [hobj])) heq

theorem promoteExecutables_eq_of_cached {n : ℕ} (h : s.accountNonces address = some n)
    (chain : ChainView) :
    s.promoteExecutables chain (some address) =
      (none, if (s.list .queued address).isEmpty then s else s.promote n address) := by
  have hnonce : s.getNonce chain address = .ok (n, s) := by
    rw [getNonce, h]
  rw [promoteExecutables, forAddresses]
  by_cases hnil : (s.list .queued address).isEmpty
  · rw [promoteAddress, if_pos hnil, if_pos hnil]
    rfl
  · rw [promoteAddress, if_neg hnil, if_neg hnil, hnonce]
    rfl

theorem promoteExecutables_of_cached {n : ℕ} (h : s.accountNonces address = some n) :
    (s.promoteExecutables chain (some address)).1 = none := by
  rw [promoteExecutables_eq_of_cached h]

theorem promoteExecutables_keeps (hhash : Set.InjOn TxManager.hash txs) (chain : ChainView)
    (address : Option Bytes20) (hs : Kept txs s) : Kept txs (s.promoteExecutables chain address).2 := by
  refine forAddresses_keeps (P := Kept txs) (fun s address s' hs h => ?_) _ hs
  rcases promoteAddress_cases h with ⟨rfl, -⟩ | ⟨nonce, s₁, hnonce, rfl⟩
  · exact hs
  · have hs₁ := getNonce_keeps hnonce hs
    have hr := promote_rearranges hs₁.1 hs₁.2 hhash nonce address
    exact ⟨hs₁.1.rearrange hs₁.2 hhash hr, hs₁.2.rearrange hr⟩

end TxPool

end TsEthereum
