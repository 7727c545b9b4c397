import TsEthereum.TxPool.Evolution

/-!
# The limits of the pool

`enforcePoolLimits` evicts as long as a counter is over its limit and `evictLowestPriced` finds
something. What it finds is removed by its hash, which is looked up in `handled`: where that has
forgotten it nothing is removed, and the loop goes on for ever. And nothing is found whose tip is
`Number.MAX_SAFE_INTEGER` or more, so that the loop stops over the limit. Where neither can be, the
limits are kept, by what is lowest priced (`Evictable.limits`).
-/

namespace TsEthereum

namespace TxPool

variable {s s' s'' : TxPool} {pool pool' : PoolType} {address : Bytes20} {limit : ℤ}

/-! ## The loop -/

/-- **A loop of `enforcePoolLimits` ends**, however many turns it takes. -/
inductive Ends (pool : PoolType) (limit : ℤ) : TxPool → TxPool → Prop
  | within {s : TxPool} : ¬ s.counts pool > limit → Ends pool limit s s
  | noMore {s : TxPool} : s.counts pool > limit → s.evictLowestPriced pool = none →
      Ends pool limit s s
  | turn {s s' s'' : TxPool} : s.counts pool > limit → s.evictLowestPriced pool = some s' →
      Ends pool limit s' s'' → Ends pool limit s s''

theorem Ends.enforceLimit (h : Ends pool limit s s') :
    ∃ enough, ∀ turns, enough ≤ turns → TxPool.enforceLimit pool limit turns s = s' := by
  induction h with
  | @within s hle =>
    refine ⟨0, fun turns _ => ?_⟩
    cases turns with
    | zero => rfl
    | succ turns => rw [TxPool.enforceLimit, if_neg hle]
  | @noMore s hgt hevict =>
    refine ⟨0, fun turns _ => ?_⟩
    cases turns with
    | zero => rfl
    | succ turns => rw [TxPool.enforceLimit, if_pos hgt, hevict]
  | @turn s s' s'' hgt hevict _ ih =>
    obtain ⟨enough, henough⟩ := ih
    refine ⟨enough + 1, fun turns hle => ?_⟩
    cases turns with
    | zero => omega
    | succ turns =>
      rw [TxPool.enforceLimit, if_pos hgt, hevict]
      exact henough turns (by omega)

/-- What a loop is to do. -/
structure Enforced (s s' : TxPool) (pool : PoolType) (limit : ℤ) : Prop where
  ends : Ends pool limit s s'
  /-- The limit is kept, or only local transactions remain. -/
  within : s'.counts pool ≤ limit ∨ ∀ obj, ¬ s'.Remote pool obj
  /-- What is not evicted stays where it was, and nothing comes in. -/
  sublist : ∀ address, (s'.list pool address).Sublist (s.list pool address)
  /-- Nothing local is evicted. -/
  evicted : ∀ address, ∀ obj ∈ s.list pool address, obj ∉ s'.list pool address →
    s.locals obj.hash = false
  /-- Nothing lower priced stays. -/
  lowest : ∀ address, ∀ obj ∈ s.list pool address, obj ∉ s'.list pool address →
    ∀ other, s'.Remote pool other → obj.price.tip ≤ other.price.tip

/-- What a loop leaves as it is. -/
structure SameElsewhere (s s' : TxPool) (pool : PoolType) : Prop where
  locals : s'.locals = s.locals
  handled : s'.handled = s.handled
  counts : ∀ pool', pool' ≠ pool → s'.counts pool' = s.counts pool'
  list : ∀ pool', pool' ≠ pool → ∀ address, s'.list pool' address = s.list pool' address
  occurrences : ∀ hash address, s'.occurrences hash address ≤ s.occurrences hash address

theorem SameElsewhere.refl (s : TxPool) (pool : PoolType) : SameElsewhere s s pool :=
  ⟨rfl, rfl, fun _ _ => rfl, fun _ _ _ => rfl, fun _ _ => le_rfl⟩

theorem SameElsewhere.trans (h : SameElsewhere s s' pool) (h' : SameElsewhere s' s'' pool) :
    SameElsewhere s s'' pool where
  locals := h'.locals.trans h.locals
  handled := h'.handled.trans h.handled
  counts pool' hne := (h'.counts pool' hne).trans (h.counts pool' hne)
  list pool' hne address := (h'.list pool' hne address).trans (h.list pool' hne address)
  occurrences hash address := (h'.occurrences hash address).trans (h.occurrences hash address)

/-! ## One turn -/

/-- **Nothing is evicted** where nothing remote is below the price that the search starts from. -/
theorem evictLowestPriced_eq_none
    (h : ∀ address, ∀ obj ∈ s.list pool address, MAX_SAFE_INTEGER ≤ obj.price.tip) :
    s.evictLowestPriced pool = none := by
  rw [evictLowestPriced, Option.map_eq_none_iff]
  cases hlowest : s.lowestPriced pool with
  | none => rfl
  | some lowestTx =>
    obtain ⟨⟨address, hmem⟩, -⟩ := lowestPriced_mem hlowest
    have hlt := (lowestPriced_spec.1 lowestTx hlowest).2.1
    have hle := h address lowestTx hmem
    omega

theorem pool_eq_of_findable {obj obj' : TxPoolObject} (hfind : s.Findable obj.hash)
    (hobj : obj ∈ s.list pool address) (hobj' : obj' ∈ s.list pool' address)
    (hhash : obj'.hash = obj.hash) : pool' = pool := by
  obtain ⟨-, hone⟩ := hfind address (occurrences_pos hobj)
  have hpos : 0 < occurring obj.hash (s.list pool address) :=
    List.countP_pos_iff.2 ⟨obj, hobj, decide_eq_true rfl⟩
  have hpos' : 0 < occurring obj.hash (s.list pool' address) :=
    List.countP_pos_iff.2 ⟨obj', hobj', decide_eq_true hhash⟩
  rw [occurrences] at hone
  cases pool <;> cases pool'
  · rfl
  · omega
  · omega
  · rfl

theorem eq_of_findable {obj obj' : TxPoolObject} {address' : Bytes20} (hfind : s.Findable obj.hash)
    (hobj : obj ∈ s.list pool address) (hobj' : obj' ∈ s.list pool' address')
    (hhash : obj'.hash = obj.hash) : obj' = obj := by
  obtain ⟨⟨handled, hhandled, haddress⟩, hone⟩ := hfind address (occurrences_pos hobj)
  obtain ⟨⟨handled', hhandled', haddress'⟩, -⟩ := hfind address' (by
    rw [← hhash]
    exact occurrences_pos hobj')
  obtain rfl : address' = address := by
    rw [← haddress, ← haddress', Option.some.inj (hhandled'.symm.trans hhandled)]
  obtain rfl := pool_eq_of_findable hfind hobj hobj' hhash
  have hle : ((s.list pool' address').filter fun other => other.hash = obj.hash).length ≤ 1 := by
    rw [← List.countP_eq_length_filter]
    rw [occurrences] at hone
    cases pool' with
    | pending => exact (Nat.le_add_right _ _).trans hone.le
    | queued => exact (Nat.le_add_left _ _).trans hone.le
  have hmem : obj ∈ (s.list pool' address').filter fun other => other.hash = obj.hash :=
    List.mem_filter.2 ⟨hobj, decide_eq_true rfl⟩
  have hmem' : obj' ∈ (s.list pool' address').filter fun other => other.hash = obj.hash :=
    List.mem_filter.2 ⟨hobj', decide_eq_true hhash⟩
  generalize (s.list pool' address').filter (fun other => other.hash = obj.hash) = found at *
  rcases found with _ | ⟨only, _ | ⟨next, rest⟩⟩
  · cases hmem
  · rw [List.mem_singleton.1 hmem, List.mem_singleton.1 hmem']
  · rw [List.length_cons, List.length_cons] at hle
    omega

theorem evicted_findable {obj : TxPoolObject} (hobj : obj ∈ s.list pool address)
    (hlocal : s.locals obj.hash = false) (hfind : s.Findable obj.hash) :
    SameElsewhere s (s.removeByHash obj.hash) pool ∧
      (s.removeByHash obj.hash).counts pool = s.counts pool - 1 ∧
      ∀ address', (s.removeByHash obj.hash).list pool address' =
        (s.list pool address').filter fun other => other.hash ≠ obj.hash := by
  obtain ⟨⟨handled, hhandled, haddress⟩, -⟩ := hfind address (occurrences_pos hobj)
  rcases removeByHash_cases s obj.hash with
    heq | ⟨handled', pool', txObj, hhandled', -, hmem, hhash, heq⟩
  · have hlacks := hfind.removeByHash
    rw [heq] at hlacks
    exact absurd rfl (hlacks.hash_ne hobj)
  · obtain rfl : handled' = handled := Option.some.inj (hhandled'.symm.trans hhandled)
    rw [haddress] at hmem heq
    obtain rfl := pool_eq_of_findable hfind hobj hmem hhash
    have hlocals : (s.removeByHash obj.hash).locals = s.locals := by
      rw [heq]
      change Function.update s.locals obj.hash false = s.locals
      rw [← hlocal, Function.update_eq_self]
    have hlist : ∀ pool'' address', (s.removeByHash obj.hash).list pool'' address' =
        if pool'' = pool' ∧ address' = address then
          (s.list pool' address).filter fun other => other.hash ≠ obj.hash
        else s.list pool'' address' := by
      intro pool'' address'
      rw [heq]
      exact list_replaceList s pool' address _ pool'' address'
    have hcounts : ∀ pool'', (s.removeByHash obj.hash).counts pool'' =
        Function.update s.counts pool' (s.counts pool' + -1) pool'' := by
      intro pool''
      rw [heq]
      rfl
    refine ⟨⟨hlocals, handled_removeByHash s obj.hash, fun pool'' hne => ?_,
      fun pool'' hne address' => ?_, fun hash address' => occurrences_removeByHash_le _ _ _ _⟩, ?_,
      fun address' => ?_⟩
    · rw [hcounts, Function.update_of_ne hne]
    · rw [hlist, if_neg fun h => hne h.1]
    · rw [hcounts, Function.update_self]
      omega
    · rw [hlist]
      split
      · rename_i hhere
        rw [hhere.2]
      · rename_i hother
        -- of another sender there is nothing with the hash
        refine (List.filter_eq_self.2 fun other hmem' => decide_eq_true ?_).symm
        rintro hsame
        refine hother ⟨rfl, ?_⟩
        obtain ⟨⟨handled'', hhandled'', haddress''⟩, -⟩ := hfind address' (by
          rw [← hsame]
          exact occurrences_pos hmem')
        rw [hhandled] at hhandled''
        rw [← haddress'', ← Option.some.inj hhandled'', haddress]

/-! ## The loops -/

/-- **What a pool is to be like** where it is over its limit: of what is not local, each is
findable, and below the price that the search starts from. -/
def Evictable (s : TxPool) (pool : PoolType) (limit : ℤ) : Prop :=
  s.counts pool > limit → ∀ obj, s.Remote pool obj →
    s.Findable obj.hash ∧ obj.price.tip < MAX_SAFE_INTEGER

theorem Remote.of_sublist (hlocals : s'.locals = s.locals)
    (hsub : ∀ address, (s'.list pool address).Sublist (s.list pool address)) {obj : TxPoolObject}
    (h : s'.Remote pool obj) : s.Remote pool obj := by
  obtain ⟨address, hobj⟩ := h.mem
  refine ⟨⟨address, (hsub address).subset hobj⟩, ?_⟩
  rw [← hlocals]
  exact h.locals

theorem Enforced.self (hends : Ends pool limit s s)
    (hwithin : s.counts pool ≤ limit ∨ ∀ obj, ¬ s.Remote pool obj) : Enforced s s pool limit :=
  ⟨hends, hwithin, fun _ => List.Sublist.refl _, fun _ _ hobj hnot => absurd hobj hnot,
    fun _ _ hobj hnot => absurd hobj hnot⟩

/-- **A turn and then the others**: what the turn evicts is lowest priced of what was there. -/
theorem Enforced.turn {lowestTx : TxPoolObject} (hgt : s.counts pool > limit)
    (hlowest : s.lowestPriced pool = some lowestTx) (hfind : s.Findable lowestTx.hash)
    (hrest : Enforced (s.removeByHash lowestTx.hash) s' pool limit)
    (helsewhere : SameElsewhere (s.removeByHash lowestTx.hash) s' pool) :
    Enforced s s' pool limit := by
  obtain ⟨⟨⟨address, hmem⟩, hlocal⟩, -, hle⟩ := lowestPriced_spec.1 lowestTx hlowest
  obtain ⟨hturn, -, hlist⟩ := evicted_findable hmem hlocal hfind
  have hevict : s.evictLowestPriced pool = some (s.removeByHash lowestTx.hash) := by
    rw [evictLowestPriced, hlowest]
    rfl
  have hsub : ∀ address', ((s.removeByHash lowestTx.hash).list pool address').Sublist
      (s.list pool address') := by
    intro address'
    rw [hlist]
    exact List.filter_sublist
  -- what the turn takes out has the hash of the one that was found
  have hhash : ∀ address' obj, obj ∈ s.list pool address' →
      obj ∉ (s.removeByHash lowestTx.hash).list pool address' → obj.hash = lowestTx.hash := by
    intro address' obj hobj hgone
    rw [hlist, List.mem_filter, not_and, decide_eq_true_eq, not_not] at hgone
    exact hgone hobj
  refine ⟨.turn hgt hevict hrest.ends, hrest.within,
    fun address' => (hrest.sublist address').trans (hsub address'), ?_, ?_⟩
  · intro address' obj hobj hnot
    by_cases hstays : obj ∈ (s.removeByHash lowestTx.hash).list pool address'
    · rw [← hturn.locals]
      exact hrest.evicted address' obj hstays hnot
    · rw [hhash address' obj hobj hstays]
      exact hlocal
  · intro address' obj hobj hnot other hother
    by_cases hstays : obj ∈ (s.removeByHash lowestTx.hash).list pool address'
    · exact hrest.lowest address' obj hstays hnot other hother
    · rw [eq_of_findable hfind hmem hobj (hhash address' obj hobj hstays)]
      exact hle other ((hother.of_sublist helsewhere.locals hrest.sublist).of_sublist hturn.locals hsub)

/-- **A loop over what may be evicted**, in as many turns as the counter is over the limit. -/
theorem Evictable.enforced {turns : ℕ} (hturns : (s.counts pool - limit).toNat ≤ turns)
    (h : s.Evictable pool limit) :
    Enforced s (enforceLimit pool limit turns s) pool limit ∧
      SameElsewhere s (enforceLimit pool limit turns s) pool := by
  induction turns generalizing s with
  | zero =>
    have hle : ¬ s.counts pool > limit := by omega
    exact ⟨Enforced.self (.within hle) (.inl (not_lt.1 hle)), SameElsewhere.refl s pool⟩
  | succ turns ih =>
    rw [enforceLimit]
    split
    · rename_i hgt
      cases hlowest : s.lowestPriced pool with
      | none =>
        have hevict : s.evictLowestPriced pool = none := by
          rw [evictLowestPriced, hlowest]
          rfl
        rw [hevict]
        refine ⟨Enforced.self (.noMore hgt hevict) (.inr fun obj hobj => ?_),
          SameElsewhere.refl s pool⟩
        have hle := lowestPriced_spec.2 hlowest obj hobj
        have hlt := (h hgt obj hobj).2
        omega
      | some lowestTx =>
        have hremote := (lowestPriced_spec.1 lowestTx hlowest).1
        obtain ⟨address, hmem⟩ := hremote.mem
        have hfind := (h hgt lowestTx hremote).1
        obtain ⟨hturn, hcount, hlist⟩ := evicted_findable hmem hremote.locals hfind
        have hevict : s.evictLowestPriced pool = some (s.removeByHash lowestTx.hash) := by
          rw [evictLowestPriced, hlowest]
          rfl
        rw [hevict]
        dsimp only
        -- the counter is one lower, and what is left may be evicted still
        obtain ⟨hrest, helsewhere⟩ := @ih (s.removeByHash lowestTx.hash) (by omega)
          fun _ obj hobj => by
            obtain ⟨hfind', htip⟩ := h hgt obj (hobj.of_sublist hturn.locals fun address' => by
              rw [hlist]
              exact List.filter_sublist)
            exact ⟨hfind'.of_le (fun address' => hturn.occurrences _ address') (by rw [hturn.handled]),
              htip⟩
        exact ⟨Enforced.turn hgt hlowest hfind hrest helsewhere, hturn.trans helsewhere⟩
    · rename_i hle
      exact ⟨Enforced.self (.within hle) (.inl (not_lt.1 hle)), SameElsewhere.refl s pool⟩

/-- `GLOBAL_SLOTS` and `GLOBAL_QUEUE`. -/
def globalLimit : PoolType → ℤ
  | .pending => GLOBAL_SLOTS
  | .queued => GLOBAL_QUEUE

/-- **What `enforcePoolLimits` is to do**: its loops end, each pool is within its limit or has only
local transactions, nothing local is evicted, and nothing that pays more than what stays. -/
structure Limits (s s' : TxPool) : Prop where
  ends : ∃ between, Ends .pending GLOBAL_SLOTS s between ∧ Ends .queued GLOBAL_QUEUE between s'
  within : ∀ pool, s'.counts pool ≤ globalLimit pool ∨ ∀ obj, ¬ s'.Remote pool obj
  locals : ∀ pool address, ∀ obj ∈ s.list pool address, s.locals obj.hash = true →
    obj ∈ s'.list pool address
  lowest : ∀ pool address, ∀ obj ∈ s.list pool address, obj ∉ s'.list pool address →
    ∀ other, s'.Remote pool other → obj.price.tip ≤ other.price.tip

theorem Evictable.limits (h : ∀ pool, s.Evictable pool (globalLimit pool)) :
    Limits s s.enforcePoolLimits := by
  obtain ⟨hpending, helsewhere⟩ := (h .pending).enforced le_rfl
  rw [enforcePoolLimits]
  change Enforced s (enforceLimit .pending GLOBAL_SLOTS
    (s.counts .pending - GLOBAL_SLOTS).toNat s) .pending GLOBAL_SLOTS at hpending
  change SameElsewhere s (enforceLimit .pending GLOBAL_SLOTS
    (s.counts .pending - GLOBAL_SLOTS).toNat s) .pending at helsewhere
  generalize enforceLimit .pending GLOBAL_SLOTS
    (s.counts .pending - GLOBAL_SLOTS).toNat s = between at *
  have hne : PoolType.queued ≠ .pending := by decide
  have hevictable : between.Evictable .queued GLOBAL_QUEUE := by
    intro hgt obj hobj
    rw [helsewhere.counts .queued hne] at hgt
    have hremote : s.Remote .queued obj := by
      obtain ⟨address, hmem⟩ := hobj.mem
      rw [helsewhere.list .queued hne] at hmem
      exact ⟨⟨address, hmem⟩, by rw [← helsewhere.locals]; exact hobj.locals⟩
    obtain ⟨hfind, htip⟩ := h .queued hgt obj hremote
    exact ⟨hfind.of_le (fun address => helsewhere.occurrences _ address) (by rw [helsewhere.handled]),
      htip⟩
  obtain ⟨hqueued, helsewhere'⟩ := hevictable.enforced
    (le_refl (between.counts .queued - GLOBAL_QUEUE).toNat)
  generalize enforceLimit .queued GLOBAL_QUEUE
    (between.counts .queued - GLOBAL_QUEUE).toNat between = s' at *
  have hremote : ∀ obj, s'.Remote .pending obj → between.Remote .pending obj := by
    rintro obj ⟨⟨address, hmem⟩, hlocal⟩
    rw [helsewhere'.list .pending hne.symm] at hmem
    exact ⟨⟨address, hmem⟩, by rw [← helsewhere'.locals]; exact hlocal⟩
  refine ⟨⟨between, hpending.ends, hqueued.ends⟩, fun pool => ?_, fun pool address obj hobj hlocal => ?_,
    fun pool address obj hobj hnot => ?_⟩
  · cases pool with
    | pending =>
      rw [helsewhere'.counts .pending hne.symm]
      exact hpending.within.imp_right fun hnone obj hobj => hnone obj (hremote obj hobj)
    | queued => exact hqueued.within
  · by_contra hnot
    cases pool with
    | pending =>
      rw [helsewhere'.list .pending hne.symm] at hnot
      rw [hpending.evicted address obj hobj hnot] at hlocal
      cases hlocal
    | queued =>
      have hmem : obj ∈ between.list .queued address := by
        rw [helsewhere.list .queued hne]
        exact hobj
      have hevicted := hqueued.evicted address obj hmem hnot
      rw [helsewhere.locals, hlocal] at hevicted
      cases hevicted
  · cases pool with
    | pending =>
      rw [helsewhere'.list .pending hne.symm] at hnot
      exact fun other hother => hpending.lowest address obj hobj hnot other (hremote other hother)
    | queued =>
      have hmem : obj ∈ between.list .queued address := by
        rw [helsewhere.list .queued hne]
        exact hobj
      exact hqueued.lowest address obj hmem hnot

theorem not_ends_of_forgotten {lowestTx : TxPoolObject} (hgt : s.counts pool > limit)
    (hlowest : s.lowestPriced pool = some lowestTx) (hforgotten : s.handled lowestTx.hash = none) :
    ¬ Ends pool limit s s' := by
  have hsame : s.evictLowestPriced pool = some s := by
    rw [evictLowestPriced, hlowest, Option.map_some, removeByHash, hforgotten]
  intro hends
  induction hends with
  | within hle => exact hle hgt
  | noMore _ hnone =>
    rw [hsame] at hnone
    cases hnone
  | turn _ hevict _ ih =>
    obtain rfl := Option.some.inj (hsame.symm.trans hevict)
    exact ih hgt hlowest hforgotten hsame

/-! ## Runs -/

/-- **A request**: one of the calls, or a reorg. -/
inductive PoolRequest where
  | call (call : PoolCall)
  | handleReorg (chain : ChainView) (now : ℕ) (oldBlocks newBlocks : List (List TxManager))

/-- What a request leaves. -/
def answer (s : TxPool) : PoolRequest → TxPool
  | .call call => s.step call
  | .handleReorg chain now oldBlocks newBlocks => (s.handleReorg chain now oldBlocks newBlocks).2

/-- An addition comes to `enforcePoolLimits`, in the pool that `offer` has left. -/
def AddEnforces (s : TxPool) (chain : ChainView) (now : ℕ) (tx : TxManager)
    (isLocalTransaction : Bool) (offered : TxPool) : Prop :=
  tx.isSigned = true ∧ ∃ address, tx.getSenderAddress = some address ∧
    s.offer chain now tx address isLocalTransaction = (none, offered)

/-- **A request comes to `enforcePoolLimits`.** A reorg does so whenever it adds a transaction of an
old block. -/
def Enforces (s : TxPool) : PoolRequest → TxPool → Prop
  | .call (.add chain now tx isLocalTransaction), offered =>
    s.AddEnforces chain now tx isLocalTransaction offered
  | .handleReorg chain now oldBlocks newBlocks, offered =>
    ∃ before tx after, oldBlocks.flatten = before ++ tx :: after ∧
      (∀ newTx ∈ newBlocks.flatten, newTx.hash ≠ tx.hash) ∧
      let s := before.foldl (fun s tx => s.reinject chain now newBlocks.flatten tx) s
      s.handled tx.hash = none ∧ s.AddEnforces chain now tx true offered
  | _, _ => False

/-- **Whenever a request begins and whenever it enforces the limits**, what is over them may be
evicted. -/
structure KeepsEvictable (s : TxPool) (request : PoolRequest) : Prop where
  begins : ∀ pool, s.Evictable pool (globalLimit pool)
  enforces : ∀ offered, s.Enforces request offered →
    ∀ pool, offered.Evictable pool (globalLimit pool)

/-- **The limits are enforced** by `enforcePoolLimits`, when a request begins and whenever the
request calls it. -/
structure EnforcesLimits (s : TxPool) (request : PoolRequest) : Prop where
  begins : Limits s s.enforcePoolLimits
  enforces : ∀ offered, s.Enforces request offered → Limits offered offered.enforcePoolLimits

/-- A sender for each number. -/
def sampleSender (i : ℕ) : Bytes20 :=
  ⟨List.replicate 18 0 ++ [UInt8.ofNat (i / 256), UInt8.ofNat i], by simp⟩

theorem sampleSender_inj {i j : ℕ} (hi : i < 65536) (hj : j < 65536)
    (h : sampleSender i = sampleSender j) : i = j := by
  have hbytes := congrArg Subtype.val h
  simp only [sampleSender, List.append_cancel_left_eq, List.cons.injEq, and_true] at hbytes
  obtain ⟨hhigh, hlow⟩ := hbytes
  have hhigh := congrArg UInt8.toNat hhigh
  have hlow := congrArg UInt8.toNat hlow
  simp only [UInt8.toNat_ofNat'] at hhigh hlow
  omega

/-- **A transaction that is never evicted**: its tip is `Number.MAX_SAFE_INTEGER`, and it is of the
second nonce, so that it is queued. -/
def dearTx (i : ℕ) : TxManager where
  hash := ⟨(sampleSender i).1 ++ List.replicate 12 0, by
    rw [List.length_append, (sampleSender i).2, List.length_replicate]⟩
  isSigned := true
  getSenderAddress := some (sampleSender i)
  nonce := 1
  gasLimit := 21000
  value := 0
  dataLength := 0
  type := .legacy MAX_SAFE_INTEGER

/-- An account that can pay for it. -/
def wealthy : Account := ⟨0, 10 ^ 21, KECCAK256_RLP, KECCAK256_NULL, by simp [bigEndian]⟩

def wealthyChain : ChainView where
  getCanonicalHeadHeader := .ok ⟨some 7, 30000000⟩
  headAccount _ := .ok wealthy
  vmAccounts := .ok (some fun _ => .ok wealthy)

/-- **So many of them are queued**, each with a sender of its own, and nothing else is pooled. -/
structure Queued (n : ℕ) (s : TxPool) : Prop where
  pendingCount : s.counts .pending = 0
  queuedCount : s.counts .queued = n
  pending : ∀ address, s.list .pending address = []
  dear : ∀ address, ∀ obj ∈ s.list .queued address, MAX_SAFE_INTEGER ≤ obj.price.tip
  next : ∀ i, n ≤ i → i < 65536 → s.list .queued (sampleSender i) = []
  locals : ∀ hash, s.locals hash = false
  nonces : ∀ address nonce, s.accountNonces address = some nonce → nonce = 0
  pooled : 0 < n → ∃ address obj, obj ∈ s.list .queued address

theorem Queued.evictLowestPriced {n : ℕ} (h : Queued n s) :
    s.evictLowestPriced pool = none := by
  refine evictLowestPriced_eq_none fun address obj hobj => ?_
  cases pool with
  | pending =>
    rw [h.pending] at hobj
    cases hobj
  | queued => exact h.dear address obj hobj

theorem Queued.enforceLimit {n : ℕ} (h : Queued n s) (turns : ℕ) :
    TxPool.enforceLimit pool limit turns s = s := by
  cases turns with
  | zero => rfl
  | succ turns =>
    rw [TxPool.enforceLimit, h.evictLowestPriced]
    exact ite_self s

theorem Queued.enforcePoolLimits {n : ℕ} (h : Queued n s) : s.enforcePoolLimits = s := by
  rw [TxPool.enforcePoolLimits, h.enforceLimit, h.enforceLimit]

theorem Queued.validate {n : ℕ} (h : Queued n s) (hn : n ≤ 1024) :
    s.validate wealthyChain (dearTx n) (sampleSender n) false =
      .ok ⟨⟨MAX_SAFE_INTEGER, MAX_SAFE_INTEGER⟩, rfl⟩ := by
  have hprice : s.validatePrice MAX_SAFE_INTEGER = .ok () := by
    rw [validatePrice]
    simp only [h.pendingCount, h.queuedCount]
    rw [if_neg (by simp only [MAX_POOL_SIZE]; omega), if_neg (by decide),
      if_neg (by simp only [NEAR_CAPACITY]; omega)]
  have hsender : s.validateSender (dearTx n) (sampleSender n) ⟨MAX_SAFE_INTEGER, MAX_SAFE_INTEGER⟩
      false = .ok () := by
    rw [validateSender]
    simp only [h.pending, h.next n le_rfl (by omega)]
    rfl
  have hhead : validateHead wealthyChain (dearTx n) (sampleSender n)
      ⟨MAX_SAFE_INTEGER, MAX_SAFE_INTEGER⟩ false = .ok () := by
    simp [validateHead, wealthyChain, dearTx, wealthy, MAX_SAFE_INTEGER, bind, Except.bind]
  rw [TxPool.validate, if_neg (by simp [dearTx]), if_neg (by simp [dearTx])]
  change (s.validatePrice MAX_SAFE_INTEGER >>= fun _ =>
    s.validateSender (dearTx n) (sampleSender n) ⟨MAX_SAFE_INTEGER, MAX_SAFE_INTEGER⟩ false >>=
      fun _ => validateHead wealthyChain (dearTx n) (sampleSender n)
        ⟨MAX_SAFE_INTEGER, MAX_SAFE_INTEGER⟩ false >>= fun _ => .ok _) = _
  rw [hprice, hsender, hhead]
  rfl

theorem Queued.classifyTransaction {n : ℕ} (h : Queued n s) :
    ∃ s', s.classifyTransaction wealthyChain (dearTx n) (sampleSender n) = .ok (.queued, s') ∧
      s'.lists = s.lists ∧ s'.counts = s.counts ∧ s'.locals = s.locals ∧
      ∀ address nonce, s'.accountNonces address = some nonce → nonce = 0 := by
  rw [TxPool.classifyTransaction, getNonce]
  cases hnonce : s.accountNonces (sampleSender n) with
  | some nonce =>
    obtain rfl := h.nonces _ _ hnonce
    refine ⟨s, ?_, rfl, rfl, rfl, h.nonces⟩
    simp only [h.pending]
    rfl
  | none =>
    refine ⟨s.setNonce (sampleSender n) 0, ?_, rfl, rfl, rfl, fun address nonce hget => ?_⟩
    · change Except.ok (classify 0 1 (s.list .pending (sampleSender n)), _) = _
      rw [h.pending]
      rfl
    · change Function.update s.accountNonces (sampleSender n) (some 0) address = some nonce at hget
      by_cases hself : address = sampleSender n
      · rw [hself, Function.update_self] at hget
        exact (Option.some.inj hget).symm
      · rw [Function.update_of_ne hself] at hget
        exact h.nonces _ _ hget

theorem Queued.add {n : ℕ} (h : Queued n s) (hn : n ≤ 1024) :
    Queued (n + 1) (s.add wealthyChain 0 (dearTx n) false).2 := by
  obtain ⟨s', hclassify, hlists, hcounts, hlocals, hnonces⟩ := h.classifyTransaction
  let txObj : TxPoolObject :=
    ⟨dearTx n, (dearTx n).hash, 0, ⟨MAX_SAFE_INTEGER, MAX_SAFE_INTEGER⟩, rfl, rfl⟩
  have hsame : ∀ pool address, s'.list pool address = s.list pool address := by
    intro pool address
    rw [list, list, hlists]
  have hnone : s'.list .queued (sampleSender n) = [] := by
    rw [hsame]
    exact h.next n le_rfl (by omega)
  have hlist : ∀ pool address, (s'.insert txObj (sampleSender n) .queued [] false).list pool
      address = if pool = .queued ∧ address = sampleSender n then [txObj] else s.list pool address := by
    intro pool address
    rw [← hsame]
    exact list_setList s' .queued (sampleSender n) [txObj] pool address
  have hqueued : Queued (n + 1) (s'.insert txObj (sampleSender n) .queued [] false) := by
    refine ⟨?_, ?_, fun address => ?_, fun address obj hobj => ?_, fun i hi hlt => ?_, ?_, hnonces,
      fun _ => ⟨sampleSender n, txObj, ?_⟩⟩
    · change Function.update s'.counts .queued (s'.counts .queued + 1) .pending = 0
      rw [Function.update_of_ne (by decide), hcounts, h.pendingCount]
    · change Function.update s'.counts .queued (s'.counts .queued + 1) .queued = _
      rw [Function.update_self, hcounts, h.queuedCount]
      rfl
    · rw [hlist, if_neg (by simp), h.pending]
    · rw [hlist] at hobj
      split at hobj
      · rw [List.mem_singleton.1 hobj]
      · exact h.dear address obj hobj
    · rw [hlist, if_neg fun heq => ?_, h.next i (by omega) hlt]
      have := sampleSender_inj hlt (by omega) heq.2
      omega
    · intro hash
      change s'.locals hash = false
      rw [hlocals, h.locals]
    · rw [hlist, if_pos ⟨rfl, rfl⟩]
      exact List.mem_singleton.2 rfl
  have hoffer : s.offer wealthyChain 0 (dearTx n) (sampleSender n) false =
      (none, s'.insert txObj (sampleSender n) .queued [] false) := by
    rw [offer, h.validate hn]
    simp only [hclassify, existingTxs, takeExisting, hnone]
    rfl
  have hadd : (s.add wealthyChain 0 (dearTx n) false).2 =
      (s'.insert txObj (sampleSender n) .queued [] false).enforcePoolLimits := by
    have hsender : (dearTx n).getSenderAddress = some (sampleSender n) := rfl
    rw [TxPool.add, if_neg (by simp [dearTx]), hsender]
    dsimp only
    rw [tryAdd, hoffer]
  rw [hadd, hqueued.enforcePoolLimits]
  exact hqueued

/-- The requests for so many of them. -/
def dearRun (n : ℕ) : List PoolRequest :=
  (List.range n).map fun i => .call (.add wealthyChain 0 (dearTx i) false)

theorem queued_dearRun {n : ℕ} (hn : n ≤ 1025) : Queued n ((dearRun n).foldl answer new) := by
  induction n with
  | zero =>
    exact ⟨rfl, rfl, fun _ => rfl, fun _ _ hobj => (List.not_mem_nil hobj).elim, fun _ _ _ => rfl,
      fun _ => rfl, fun _ _ hget => (Option.some_ne_none _ hget.symm).elim,
      fun hlt => absurd hlt (lt_irrefl 0)⟩
  | succ n ih =>
    rw [dearRun, List.range_succ, List.map_append, List.foldl_append]
    exact (ih (by omega)).add (by omega)

end TxPool

end TsEthereum
