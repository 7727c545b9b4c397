import TsEthereum.TxPool.Books

/-!
# Removals from the pool

`removeByHash`, on which `removeNewBlockTxs` and the evictions rest, and
`cleanup`: each takes transactions out of one list at a time, and keeps the
books whatever it finds.
-/

namespace TsEthereum

namespace TxPool

variable {s s' : TxPool} {pool pool' : PoolType} {address address' : Bytes20}
variable {objs : List TxPoolObject} {txs : Set TxManager}

/-! ## Removals -/

theorem removeByHash_cases (s : TxPool) (hash : Bytes32) :
    s.removeByHash hash = s ∨ ∃ handled pool txObj, s.handled hash = some handled ∧
      (pool = .pending ∨ ∀ obj ∈ s.list .pending handled.address, obj.hash ≠ hash) ∧
      txObj ∈ s.list pool handled.address ∧ txObj.hash = hash ∧
      s.removeByHash hash = ((((s.replaceList pool handled.address
        ((s.list pool handled.address).filter fun obj => obj.hash ≠ hash)).addCount pool (-1)
        ).removeFromPriced txObj).deleteHashIndex hash).deleteLocal hash := by
  cases hhandled : s.handled hash with
  | none =>
    left
    rw [removeByHash, hhandled]
  | some handled =>
    by_cases hany : (s.list .pending handled.address).any (fun obj => obj.hash = hash) = true
    · cases hfind : (s.list .pending handled.address).find? fun obj => obj.hash = hash with
      | none =>
        left
        simp only [removeByHash, hhandled, if_pos hany, hfind]
      | some txObj =>
        right
        have hkey := List.find?_some hfind
        refine ⟨handled, .pending, txObj, rfl, .inl rfl, List.mem_of_find?_eq_some hfind,
          of_decide_eq_true hkey, ?_⟩
        simp only [removeByHash, hhandled, if_pos hany, hfind]
    · cases hfind : (s.list .queued handled.address).find? fun obj => obj.hash = hash with
      | none =>
        left
        simp only [removeByHash, hhandled, if_neg hany, hfind]
      | some txObj =>
        right
        have hkey := List.find?_some hfind
        refine ⟨handled, .queued, txObj, rfl, .inr fun obj hobj heq => hany ?_,
          List.mem_of_find?_eq_some hfind, of_decide_eq_true hkey, ?_⟩
        · exact List.any_eq_true.2 ⟨obj, hobj, decide_eq_true heq⟩
        · simp only [removeByHash, hhandled, if_neg hany, hfind]

theorem list_removeByHash (s : TxPool) (hash : Bytes32) (pool : PoolType) (address : Bytes20) :
    (s.removeByHash hash).list pool address = s.list pool address ∨
      (s.removeByHash hash).list pool address =
        (s.list pool address).filter fun obj => obj.hash ≠ hash := by
  rcases removeByHash_cases s hash with heq | ⟨handled, pool', txObj, -, -, -, -, heq⟩
  · exact .inl (by rw [heq])
  · rw [heq]
    change (s.replaceList pool' handled.address _).list pool address = _ ∨
      (s.replaceList pool' handled.address _).list pool address = _
    rw [list_replaceList]
    split
    · rename_i hhere
      rw [hhere.1, hhere.2]
      exact .inr rfl
    · exact .inl rfl

theorem accountNonces_removeByHash (s : TxPool) (hash : Bytes32) :
    (s.removeByHash hash).accountNonces = s.accountNonces := by
  rcases removeByHash_cases s hash with heq | ⟨_, _, _, -, -, -, -, heq⟩
  · rw [heq]
  · rw [heq]
    rfl

theorem perm_cons_filter_hash {hash : Bytes32} {txObj : TxPoolObject} (hnodup : objs.Nodup)
    (hobj : txObj ∈ objs) (heq : txObj.hash = hash)
    (huniq : ∀ obj ∈ objs, obj.hash = hash → obj = txObj) :
    objs.Perm ([txObj] ++ objs.filter fun obj => obj.hash ≠ hash) := by
  refine (List.perm_cons_erase hobj).trans ?_
  rw [hnodup.erase_eq_filter, List.singleton_append]
  have hfilter : objs.filter (fun obj => obj != txObj) = objs.filter fun obj => obj.hash ≠ hash := by
    refine List.filter_congr fun obj hmem => ?_
    by_cases h : obj = txObj
    · subst h
      simp [heq]
    · have hne : obj.hash ≠ hash := fun h' => h (huniq obj hmem h')
      simp [h, hne]
  rw [hfilter]

theorem Books.nodup_list (hb : Books s) (pool : PoolType) (address : Bytes20) :
    ((s.list pool address).map fun obj => obj.tx.nonce).Nodup := by
  have hnodup := hb.nonces address
  rw [List.map_append] at hnodup
  cases pool with
  | pending => exact (List.nodup_append.1 hnodup).1
  | queued => exact (List.nodup_append.1 hnodup).2.1

theorem removeByHash_keeps (hhash : Set.InjOn TxManager.hash txs) (hash : Bytes32)
    (hs : Kept txs s) : Kept txs (s.removeByHash hash) := by
  rcases removeByHash_cases s hash with heq | ⟨handled, pool, txObj, -, -, hobj, rfl, heq⟩
  · rw [heq]
    exact hs
  · have huniq : ∀ obj ∈ s.list pool handled.address, obj.hash = txObj.hash → obj = txObj :=
      fun obj hmem h => hs.2.eq_of_hash hhash (hs.1.nonces _) (mem_all.2 ⟨_, hmem⟩)
        (mem_all.2 ⟨_, hobj⟩) h
    have hperm := perm_cons_filter_hash (hs.1.nodup_list pool handled.address).of_map hobj rfl huniq
    refine (takes_of_replace hperm ?_ ?_ ?_ ?_ ?_).keeps hhash hs
    · rw [heq]
      rfl
    · rw [heq]
      rfl
    · rw [heq]
      simp [deleteLocal, deleteHashIndex, removeFromPriced, addCount, replaceList]
    · intro obj hmem
      rw [heq, List.mem_singleton.1 hmem]
      simp [deleteLocal, deleteHashIndex]
    · intro hash hother
      have hne := hother txObj (List.mem_singleton_self _)
      rw [heq]
      simp [deleteLocal, deleteHashIndex, removeFromPriced, addCount, replaceList, hne.symm]

theorem removeNewBlockTxs_keeps (hhash : Set.InjOn TxManager.hash txs)
    (newBlocks : List (List TxManager)) (hs : Kept txs s) :
    Kept txs (s.removeNewBlockTxs newBlocks) := by
  rw [removeNewBlockTxs]
  split
  · exact foldl_keeps (P := Kept txs) (fun _ _ hs => removeByHash_keeps hhash _ hs) _ hs
  · exact hs

/-! ## Evictions -/

/-- A transaction of a pool that may be evicted, as far as `locals` goes. -/
structure Remote (s : TxPool) (pool : PoolType) (obj : TxPoolObject) : Prop where
  mem : ∃ address, obj ∈ s.list pool address
  locals : s.locals obj.hash = false

theorem foldl_lowest (s : TxPool) {P : TxPoolObject → Prop} (l : List TxPoolObject)
    (hl : ∀ obj ∈ l, s.locals obj.hash = false → P obj) (start : ℕ × Option TxPoolObject)
    (hsome : ∀ lowestTx, start.2 = some lowestTx → P lowestTx ∧ lowestTx.price.tip = start.1 ∧
      lowestTx.price.tip < MAX_SAFE_INTEGER)
    (hnone : start.2 = none → start.1 = MAX_SAFE_INTEGER) :
    let found := l.foldl (fun (lowest : ℕ × Option TxPoolObject) txObj =>
      if s.locals txObj.hash then lowest
      else if txObj.price.tip < lowest.1 then (txObj.price.tip, some txObj)
      else lowest) start
    (∀ lowestTx, found.2 = some lowestTx → P lowestTx ∧ lowestTx.price.tip = found.1 ∧
      lowestTx.price.tip < MAX_SAFE_INTEGER) ∧
    (found.2 = none → found.1 = MAX_SAFE_INTEGER) ∧ found.1 ≤ start.1 ∧
    ∀ obj ∈ l, s.locals obj.hash = false → found.1 ≤ obj.price.tip := by
  induction l generalizing start with
  | nil => exact ⟨hsome, hnone, le_rfl, fun obj hobj => by cases hobj⟩
  | cons obj l ih =>
    have ih := ih (List.forall_mem_cons.1 hl).2
    dsimp only
    rw [List.foldl_cons]
    split
    · rename_i hlocal
      obtain ⟨h1, h2, h3, h4⟩ := ih start hsome hnone
      refine ⟨h1, h2, h3, fun other hother hremote => ?_⟩
      rcases List.mem_cons.1 hother with rfl | hother
      · rw [hlocal] at hremote
        cases hremote
      · exact h4 other hother hremote
    · rename_i hlocal
      split
      · rename_i hlt
        have hbelow : start.1 ≤ MAX_SAFE_INTEGER := by
          cases hstart : start.2 with
          | none => exact (hnone hstart).le
          | some lowestTx =>
            obtain ⟨-, heq, hlt⟩ := hsome lowestTx hstart
            rw [← heq]
            exact hlt.le
        obtain ⟨h1, h2, h3, h4⟩ := ih (obj.price.tip, some obj)
          (fun lowestTx hlowest => by
            rw [← Option.some.inj hlowest]
            exact ⟨hl obj List.mem_cons_self (Bool.eq_false_iff.2 hlocal), rfl,
              lt_of_lt_of_le hlt hbelow⟩)
          (fun hnone => by cases hnone)
        refine ⟨h1, h2, h3.trans hlt.le, fun other hother hremote => ?_⟩
        rcases List.mem_cons.1 hother with rfl | hother
        · exact h3
        · exact h4 other hother hremote
      · rename_i hge
        obtain ⟨h1, h2, h3, h4⟩ := ih start hsome hnone
        refine ⟨h1, h2, h3, fun other hother hremote => ?_⟩
        rcases List.mem_cons.1 hother with rfl | hother
        · exact h3.trans (not_lt.1 hge)
        · exact h4 other hother hremote

theorem mem_entries_iff {obj : TxPoolObject} :
    obj ∈ (s.lists pool).entries.flatMap Prod.snd ↔ ∃ address, obj ∈ s.list pool address := by
  rw [List.mem_flatMap]
  constructor
  · rintro ⟨⟨address, objs⟩, hentry, hobj⟩
    refine ⟨address, ?_⟩
    rw [list, JsMap.list_of_mem_entries hentry]
    exact hobj
  · rintro ⟨address, hobj⟩
    rw [list, JsMap.list] at hobj
    cases hget : (s.lists pool).get address with
    | none =>
      rw [hget] at hobj
      cases hobj
    | some objs =>
      rw [hget] at hobj
      exact ⟨(address, objs), JsMap.get_eq_some.1 hget, hobj⟩

/-- **The search**: what it finds is lowest priced, and below the price that it starts from. Where
it finds nothing, nothing remote is below that. -/
theorem lowestPriced_spec :
    (∀ lowestTx, s.lowestPriced pool = some lowestTx → s.Remote pool lowestTx ∧
      lowestTx.price.tip < MAX_SAFE_INTEGER ∧
        ∀ obj, s.Remote pool obj → lowestTx.price.tip ≤ obj.price.tip) ∧
    (s.lowestPriced pool = none → ∀ obj, s.Remote pool obj → MAX_SAFE_INTEGER ≤ obj.price.tip) := by
  obtain ⟨hsome, hnone, -, hle⟩ := foldl_lowest s ((s.lists pool).entries.flatMap Prod.snd)
    (fun obj hobj hlocal => (⟨mem_entries_iff.1 hobj, hlocal⟩ : s.Remote pool obj))
    (MAX_SAFE_INTEGER, none) (fun _ h => by cases h) (fun _ => rfl)
  constructor
  · intro lowestTx hlowest
    obtain ⟨hremote, heq, hlt⟩ := hsome lowestTx hlowest
    refine ⟨hremote, hlt, fun obj hobj => ?_⟩
    rw [heq]
    exact hle obj (mem_entries_iff.2 hobj.mem) hobj.locals
  · intro hlowest obj hobj
    rw [← hnone hlowest]
    exact hle obj (mem_entries_iff.2 hobj.mem) hobj.locals

theorem lowestPriced_mem {txObj : TxPoolObject} (h : s.lowestPriced pool = some txObj) :
    (∃ address, txObj ∈ s.list pool address) ∧ s.locals txObj.hash = false := by
  have hremote := (lowestPriced_spec.1 txObj h).1
  exact ⟨hremote.mem, hremote.locals⟩

theorem evictLowestPriced_keeps (hhash : Set.InjOn TxManager.hash txs) (hs : Kept txs s)
    (h : s.evictLowestPriced pool = some s') : Kept txs s' := by
  obtain ⟨lowestTx, -, rfl⟩ := Option.map_eq_some_iff.1 h
  exact removeByHash_keeps hhash _ hs

theorem enforceLimit_keeps (hhash : Set.InjOn TxManager.hash txs) (pool : PoolType) (limit : ℤ)
    (turns : ℕ) {s : TxPool} (hs : Kept txs s) :
    Kept txs (enforceLimit pool limit turns s) := by
  induction turns generalizing s with
  | zero => exact hs
  | succ turns ih =>
    rw [enforceLimit]
    split
    · cases hevict : s.evictLowestPriced pool with
      | none => exact hs
      | some s' => exact ih (evictLowestPriced_keeps hhash hs hevict)
    · exact hs

theorem enforcePoolLimits_keeps (hhash : Set.InjOn TxManager.hash txs) (hs : Kept txs s) :
    Kept txs s.enforcePoolLimits :=
  enforceLimit_keeps hhash _ _ _ (enforceLimit_keeps hhash _ _ _ hs)

/-! ## Cleaning up -/

theorem foldl_removeOld_lists (gone : List TxPoolObject) (s : TxPool) :
    (gone.foldl removeOld s).lists = s.lists :=
  foldl_eq (f := removeOld) (g := TxPool.lists) (fun _ _ => rfl) gone s

theorem foldl_removeOld_counts (gone : List TxPoolObject) (s : TxPool) :
    (gone.foldl removeOld s).counts = s.counts :=
  foldl_eq (f := removeOld) (g := TxPool.counts) (fun _ _ => rfl) gone s

theorem filter_priced_cons (priced : List TxPoolObject) (obj : TxPoolObject)
    (gone : List TxPoolObject) :
    (priced.filter fun item => item.hash ≠ obj.hash).filter
      (fun item => ∀ obj ∈ gone, item.hash ≠ obj.hash) =
    priced.filter fun item => ∀ obj' ∈ obj :: gone, item.hash ≠ obj'.hash := by
  rw [List.filter_filter]
  refine List.filter_congr fun item _ => ?_
  rw [Bool.eq_iff_iff]
  simp [and_comm]

theorem foldl_priced {f : TxPool → TxPoolObject → TxPool}
    (h : ∀ s obj, (f s obj).priced = (s.removeFromPriced obj).priced) (gone : List TxPoolObject)
    (s : TxPool) : (gone.foldl f s).priced =
      s.priced.filter fun item => ∀ obj ∈ gone, item.hash ≠ obj.hash := by
  induction gone generalizing s with
  | nil => simp
  | cons obj gone ih =>
    rw [List.foldl_cons, ih, h, ← filter_priced_cons]
    rfl

theorem foldl_hashIndex {f : TxPool → TxPoolObject → TxPool} {entry : Option HashIndexEntry}
    (h : ∀ s obj, (f s obj).hashIndex = Function.update s.hashIndex obj.hash entry)
    (moved : List TxPoolObject) (s : TxPool) (hash : Bytes32) :
    (moved.foldl f s).hashIndex hash =
      if ∃ obj ∈ moved, obj.hash = hash then entry else s.hashIndex hash := by
  induction moved generalizing s with
  | nil => simp
  | cons obj moved ih =>
    rw [List.foldl_cons, ih, h]
    by_cases hmoved : ∃ obj ∈ moved, obj.hash = hash
    · obtain ⟨obj', hobj', heq⟩ := hmoved
      rw [if_pos ⟨obj', hobj', heq⟩, if_pos ⟨obj', List.mem_cons_of_mem _ hobj', heq⟩]
    · rw [if_neg hmoved]
      by_cases hself : obj.hash = hash
      · rw [if_pos ⟨obj, List.mem_cons_self, hself⟩, hself, Function.update_self]
      · rw [Function.update_of_ne (Ne.symm hself), if_neg]
        rintro ⟨obj', hobj', heq⟩
        rcases List.mem_cons.1 hobj' with rfl | hobj'
        · exact hself heq
        · exact hmoved ⟨obj', hobj', heq⟩

theorem cleanupList_cases (s : TxPool) (compDate : ℕ) (pool : PoolType) (address : Bytes20) :
    Takes s (s.cleanupList compDate pool address) pool address
      ((s.list pool address).filter fun obj => obj.added < compDate)
      ((s.list pool address).filter fun obj => obj.added ≥ compDate) := by
  have hperm : (s.list pool address).Perm (((s.list pool address).filter fun obj =>
      obj.added < compDate) ++ (s.list pool address).filter fun obj => obj.added ≥ compDate) := by
    have h := List.filter_append_perm (fun obj : TxPoolObject => decide (obj.added < compDate))
      (s.list pool address)
    have hnot : (fun obj : TxPoolObject => !decide (obj.added < compDate)) =
        fun obj => decide (obj.added ≥ compDate) := by
      funext obj
      rw [← decide_not]
      exact decide_eq_decide.2 Nat.not_lt
    rw [hnot] at h
    exact h.symm
  have hlength := hperm.length_eq
  rw [List.length_append] at hlength
  rw [cleanupList]
  split
  · refine takes_of_replace hperm ?_ ?_ ?_ ?_ ?_
    · rw [lists_replaceList, foldl_removeOld_lists]
      rfl
    · change (List.foldl removeOld _ _).counts = _
      rw [foldl_removeOld_counts]
      congr 2
      omega
    · exact foldl_priced (f := removeOld) (fun _ _ => rfl) _ _
    · intro obj hobj
      exact (foldl_hashIndex (f := removeOld) (fun _ _ => rfl) _ _ _).trans (if_pos ⟨obj, hobj, rfl⟩)
    · intro hash hother
      refine (foldl_hashIndex (f := removeOld) (fun _ _ => rfl) _ _ _).trans (if_neg ?_)
      rintro ⟨obj, hobj, heq⟩
      exact hother obj hobj heq
  · rename_i hzero
    have hnil : ((s.list pool address).filter fun obj => obj.added < compDate) = [] :=
      List.eq_nil_of_length_eq_zero (by omega)
    have hall : ((s.list pool address).filter fun obj => obj.added ≥ compDate) =
        s.list pool address :=
      List.filter_sublist.eq_of_length (by rw [hnil] at hlength; exact hlength.symm ▸ (by simp))
    rw [hnil, hall]
    refine ⟨List.Perm.refl _, ?_, ?_, ?_, ?_, ?_, ?_⟩
    · intro pool' address'
      split
      · rename_i heq
        rw [heq.1, heq.2]
      · rfl
    · intro pool'
      simp
    · intro pool'
      simp
    · simp
    · intro obj hobj
      cases hobj
    · intro hash _
      rfl

theorem cleanup_keeps (hhash : Set.InjOn TxManager.hash txs) (now : ℕ) (hs : Kept txs s) :
    Kept txs (s.cleanup now) := by
  have hlist : ∀ pool (s : TxPool) address, Kept txs s →
      Kept txs (s.cleanupList (now - POOLED_STORAGE_TIME) pool address) :=
    fun pool s address hs => (cleanupList_cases s _ pool address).keeps hhash hs
  have hpending := foldl_keeps (P := Kept txs) (hlist .pending) (s.lists .pending).keys hs
  have hqueued := foldl_keeps (P := Kept txs) (hlist .queued) (((s.lists .pending).keys.foldl
    (fun s address => s.cleanupList (now - POOLED_STORAGE_TIME) .pending address) s).lists
      .queued).keys hpending
  exact ⟨hqueued.1.congr rfl rfl rfl rfl, hqueued.2.congr rfl⟩

end TxPool

end TsEthereum
