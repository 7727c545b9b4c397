import TsEthereum.Blockchain.Calls

/-!
# The chain behind its caches

A `Node` is a chain whose database has caches before it and may reject a
request; an `Attempt` is a call with the requests that are rejected. A batch
updates the caches first and is written then (`DBManager.batch`), so one that
is rejected leaves them ahead of the database. As long as none is, a node
does what the plain chain does (`run_eq_of_unrejected`).
-/

namespace TsEthereum.Blockchain

open TsEthereum

/-- Whether what a target holds is cached. -/
def DBTarget.isCached (target : DBTarget) : Bool := target.cacheString.isSome

/-- **A call, and what the database rejects of it**: of its reads, by their
places in the code, the requests, and its batch. -/
structure Attempt extends Call where
  rejectsRead : ℕ → ℕ → Bool
  rejectsBatch : Bool

/-- What a rejected request throws. -/
def requestRejected : ChainError := .rejected "request rejected"

/-- **A node**: the mutable state, the database behind its caches, and how many
reads the call has made so far. -/
structure Node (C : StoreCache DBTarget.Value) where
  state : MutableState
  store : Await.Cached C
  awaits : ℕ

section

variable {C : StoreCache DBTarget.Value}

def updateCache (cache : C.State) (op : DBWrite) : C.State :=
  if op.1.isCached then C.apply cache op else cache

/-- `ops.map((op) => op.updateCache(this._cache))`. -/
def updateCaches (cache : C.State) (ops : List DBWrite) : C.State := ops.foldl updateCache cache

/-- **The backend of a node.** -/
def cached (a : Attempt) : Backend (Node C) where
  state s := s.state
  setState state s := { s with state := state }
  await p := fun s =>
    let (x, store) :=
      p.run DBTarget.isCached (a.rejectsRead s.awaits) requestRejected { s.store with requests := 0 }
    (x, { s with store := store, awaits := s.awaits + 1 })
  executeBatch ops := fun s =>
    let cache := updateCaches s.store.cache ops
    if a.rejectsBatch then (.error requestRejected, { s with store := { s.store with cache := cache } })
    else (.ok (), { s with store := { s.store with cache := cache, db := s.store.db.batch ops } })
  hook h := fun s => (a.hooks h, s)

namespace Node

/-- The chain it is. -/
def chain (s : Node C) : Chain := ⟨s.state, s.store.db⟩

/-- **One attempt.** -/
def step (cfg : Config) (s : Node C) (a : Attempt) : Except ChainError Unit × Node C :=
  runOp cfg (cached a) a.trackDeleted a.op { s with awaits := 0 }

/-- The node after it. -/
def after (cfg : Config) (s : Node C) (a : Attempt) : Node C := (s.step cfg a).2

/-- A node that holds its genesis alone. -/
def init (cfg : Config) : Node C where
  state := (Chain.init cfg).state
  store :=
    { cache := updateCaches C.empty (Chain.genesisOps cfg)
      db := (Chain.init cfg).db
      requests := 0 }
  awaits := 0

/-- **A later lookup** of a record: once other reads were made, and with
nothing rejected. -/
def lookup {α : Type} (s : Node C) (reads : Reading α) (r : Record) :
    Except ChainError (Option (DBTarget.Value (.record r))) :=
  let store := (reads.run DBTarget.isCached (fun _ => false) requestRejected s.store).2
  ((Await.lookup (DBTarget.record r)).run DBTarget.isCached (fun _ => false) requestRejected store).1

end Node

end

/-! ## Coherent nodes -/

variable {C : StoreCache DBTarget.Value} {cfg : Config} {a : Attempt} {σ : MutableState}
variable {db : Database} {k : ℕ} {s s' : Node C} {ops : List DBWrite}

/-- The caches hold what the database holds, and of its records only. -/
structure CachesAgree (C : StoreCache DBTarget.Value) (cache : C.State) (db : Database) : Prop where
  coherent : C.Coherent cache db
  uncached : ∀ t : DBTarget, t.isCached = false → C.holds cache t = none

/-- **Where a node is**: its state, its database behind caches that agree with
it, and how many reads were made. -/
structure Node.At (s : Node C) (σ : MutableState) (db : Database) (k : ℕ) : Prop where
  agree : CachesAgree C s.store.cache db
  state : s.state = σ
  db : s.store.db = db
  awaits : s.awaits = k

theorem CachesAgree.batch {cache : C.State} (h : CachesAgree C cache db) (ops : List DBWrite) :
    CachesAgree C (updateCaches cache ops) (db.batch ops) := by
  unfold updateCaches Store.batch
  induction ops generalizing cache db with
  | nil => exact h
  | cons op ops ih =>
    refine ih ?_
    by_cases hcached : op.1.isCached = true
    · rw [updateCache, if_pos hcached]
      refine ⟨h.coherent.apply op, fun t ht => ?_⟩
      have hne : t ≠ op.1 := by
        rintro rfl
        rw [hcached] at ht
        cases ht
      refine Option.eq_none_iff_forall_ne_some.2 fun v hv => ?_
      have hold : C.holds cache t = some v := by
        unfold StoreCache.apply at hv
        split at hv
        · rcases C.holds_set _ _ _ _ _ hv with heq | ⟨-, hold⟩
          · exact absurd (congrArg Sigma.fst heq) hne
          · exact hold
        · exact (C.holds_delete _ _ _ _ hv).2
      rw [h.uncached t ht] at hold
      cases hold
    · rw [updateCache, if_neg hcached]
      rw [Bool.not_eq_true] at hcached
      exact ⟨h.coherent.apply_of_none (h.uncached _ hcached), h.uncached⟩

theorem CachesAgree.rejected {cache : C.State} (h : CachesAgree C cache db) {ops : List DBWrite}
    (hthere : ∀ op ∈ ops, op.1.isCached = true → ∀ v, op.2 = some v → db op.1 = some v) :
    CachesAgree C (updateCaches cache ops) db := by
  unfold updateCaches
  induction ops generalizing cache with
  | nil => exact h
  | cons op ops ih =>
    refine ih ?_ fun op' hop' => hthere op' (List.mem_cons_of_mem op hop')
    by_cases hcached : op.1.isCached = true
    · rw [updateCache, if_pos hcached]
      have hthere' := hthere op List.mem_cons_self hcached
      have hold {t : DBTarget} {v : t.Value} (hv : C.holds (C.apply cache op) t = some v) :
          t = op.1 ∧ db t = some v ∨ C.holds cache t = some v := by
        unfold StoreCache.apply at hv
        split at hv
        · next w hw =>
          rcases C.holds_set _ _ _ _ _ hv with heq | ⟨-, hold⟩
          · cases heq
            exact .inl ⟨rfl, hthere' _ hw⟩
          · exact .inr hold
        · exact .inr (C.holds_delete _ _ _ _ hv).2
      refine ⟨fun t v hv => ?_, fun t ht => ?_⟩
      · rcases hold hv with ⟨-, hdb⟩ | hold
        · exact hdb
        · exact h.coherent t v hold
      · refine Option.eq_none_iff_forall_ne_some.2 fun v hv => ?_
        rcases hold hv with ⟨rfl, -⟩ | hold
        · rw [hcached] at ht
          cases ht
        · rw [h.uncached t ht] at hold
          cases hold
    · rw [updateCache, if_neg hcached]
      exact h

/-! ## The backend, triple by triple -/

namespace Node.At

variable {α : Type} {p : Reading α}

theorem coherent (h : s.At σ db k) (n : ℕ) :
    Await.Cached.Coherent { s.store with requests := n } := by
  unfold Await.Cached.Coherent
  dsimp only
  rw [h.db]
  exact h.agree.coherent

theorem agree_run (h : s.At σ db k) (p : Reading α) (rejects : ℕ → Bool) (e : ChainError) (n : ℕ) :
    (p.run DBTarget.isCached rejects e { s.store with requests := n }).2.db = db ∧
      CachesAgree C (p.run DBTarget.isCached rejects e { s.store with requests := n }).2.cache db := by
  obtain ⟨hdb, hagree⟩ : (p.run DBTarget.isCached rejects e { s.store with requests := n }).2.db =
      s.store.db ∧ _ := Await.run_coherent p (h.coherent n)
  refine ⟨hdb.trans h.db, ?_, fun t ht => Await.run_keeps_uncached p ht (h.agree.uncached t ht)⟩
  unfold Await.Cached.Coherent at hagree
  rwa [hdb, h.db] at hagree

theorem await_apply (p : Reading α) (s : Node C) : (cached a).await p s =
    ((p.run DBTarget.isCached (a.rejectsRead s.awaits) requestRejected
        { s.store with requests := 0 }).1,
      { s with
        store := (p.run DBTarget.isCached (a.rejectsRead s.awaits) requestRejected
          { s.store with requests := 0 }).2
        awaits := s.awaits + 1 }) := rfl

theorem await (h : s.At σ db k) (p : Reading α) :
    Action.Triple ((cached a).await p) s
      (fun x s' => s'.At σ db (k + 1) ∧ (p.run DBTarget.isCached (a.rejectsRead k) requestRejected
        { s.store with requests := 0 }).1 = .ok x)
      (fun e s' => s'.At σ db (k + 1) ∧ (p.run DBTarget.isCached (a.rejectsRead k) requestRejected
        { s.store with requests := 0 }).1 = .error e) := by
  obtain ⟨hdb, hagree⟩ := h.agree_run p (a.rejectsRead s.awaits) requestRejected 0
  have hat : Node.At { s with
      store := (p.run DBTarget.isCached (a.rejectsRead s.awaits) requestRejected
        { s.store with requests := 0 }).2
      awaits := s.awaits + 1 } σ db (k + 1) := by
    refine ⟨hagree, h.state, hdb, ?_⟩
    dsimp only
    rw [h.awaits]
  constructor
  · intro x s' heq
    rw [await_apply] at heq
    obtain ⟨hx, rfl⟩ := Prod.mk.inj heq
    rw [h.awaits] at hx
    exact ⟨hat, hx⟩
  · intro e s' heq
    rw [await_apply] at heq
    obtain ⟨hx, rfl⟩ := Prod.mk.inj heq
    rw [h.awaits] at hx
    exact ⟨hat, hx⟩

theorem await_strict (h : s.At σ db k) {p : Reading α} (hp : p.Strict) :
    Action.Triple ((cached a).await p) s
      (fun x s' => s'.At σ db (k + 1) ∧ p.eval db = .ok x) fun _ s' => s'.At σ db (k + 1) := by
  refine (h.await p).weaken (fun x s' ⟨hat, hx⟩ => ⟨hat, ?_⟩) fun _ _ hat => hat.1
  have heval := hp.eval_of_run_ok (h.coherent 0) hx
  dsimp only at heval
  rwa [h.db] at heval

theorem getState (h : s.At σ db k) {E : ChainError → Node C → Prop} :
    Action.Triple (cached a).getState s (fun x s' => s'.At σ db k ∧ x = σ) E where
  ok := by
    rintro x s' ⟨⟩
    exact ⟨h, h.state⟩
  error := by
    rintro _ _ ⟨⟩

theorem modify (h : s.At σ db k) (f : MutableState → MutableState)
    {E : ChainError → Node C → Prop} :
    Action.Triple ((cached a).modify f) s (fun _ s' => s'.At (f σ) db k) E where
  ok := by
    rintro x s' ⟨⟩
    exact ⟨h.agree, congrArg f h.state, h.db, h.awaits⟩
  error := by
    rintro _ _ ⟨⟩

theorem hook (h : s.At σ db k) (hk : Hook) :
    Action.Triple ((cached a).hook hk) s (fun _ s' => s'.At σ db k)
      fun e s' => s'.At σ db k ∧ a.hooks hk = .error e where
  ok := by
    intro x s' heq
    obtain ⟨-, rfl⟩ := Prod.mk.inj heq
    exact h
  error := by
    intro e s' heq
    obtain ⟨hhook, rfl⟩ := Prod.mk.inj heq
    exact ⟨h, hhook⟩

theorem hookIf (h : s.At σ db k) (c : Bool) (hk : Hook) :
    Action.Triple ((cached a).hookIf c hk) s (fun _ s' => s'.At σ db k)
      fun _ s' => s'.At σ db k := by
  unfold Backend.hookIf
  split
  · exact (h.hook hk).weaken (fun _ _ hat => hat) fun _ _ hat => hat.1
  · exact .pure h

theorem executeBatch (h : s.At σ db k) (ops : List DBWrite) :
    Action.Triple ((cached a).executeBatch ops) s (fun _ s' => s'.At σ (db.batch ops) k)
      fun _ s' => a.rejectsBatch = true ∧ s'.state = σ ∧ s'.store.db = db ∧ s'.awaits = k ∧
        s'.store.cache = updateCaches s.store.cache ops := by
  unfold cached
  dsimp only
  constructor
  · intro x s' heq
    split at heq
    · cases heq
    · obtain ⟨-, rfl⟩ := Prod.mk.inj heq
      refine ⟨?_, h.state, ?_, h.awaits⟩
      · exact h.agree.batch ops
      · dsimp only
        rw [h.db]
  · intro e s' heq
    split at heq
    · next hrejects =>
      obtain ⟨-, rfl⟩ := Prod.mk.inj heq
      exact ⟨hrejects, h.state, h.db, h.awaits, rfl⟩
    · cases heq

end Node.At

/-! ## Reads that do not go on after a rejected request -/

theorem strict_getTotalDifficultyAt (hash : Bytes) (n : ℤ) :
    (getTotalDifficultyAt hash n).Strict :=
  .bind (Await.strict_lookup _) fun _ => Await.strict_pure _

theorem strict_getTotalDifficulty (hash : Bytes) : (getTotalDifficulty hash).Strict := by
  refine And.intro (fun e => trivial) fun v => ?_
  cases v with
  | none => trivial
  | some n => exact strict_getTotalDifficultyAt hash n

theorem strict_getParentTD (x : BlockHeader) : (getParentTD x).Strict := by
  unfold getParentTD
  split
  · exact Await.strict_pure _
  · exact strict_getTotalDifficultyAt _ _

theorem strict_numberToHash (n : ℤ) : (numberToHash n).Strict := Await.strict_lookup _

theorem strict_getHeader (hash : Bytes) (n : ℤ) : (getHeader cfg hash n).Strict := by
  refine .bind (Await.strict_lookup _) fun header => ?_
  split
  · exact Await.strict_throw _
  · split
    · exact Await.strict_pure _
    · exact Await.strict_throw _

theorem strict_getBlockAt (hash : Bytes) (n : ℤ) : (getBlockAt cfg hash n).Strict := by
  refine .bind (strict_getHeader hash n) fun header => .bind (Await.strict_lookup _) fun body =>
    .bind ?_ fun body => ?_
  · trivial
  · split
    · exact Await.strict_pure _
    · exact Await.strict_throw _

theorem strict_trackedBlock (trackDeleted : Bool) (n : ℤ) :
    (trackedBlock cfg trackDeleted n).Strict := by
  unfold trackedBlock getBlockByNumber
  split
  · refine .bind (strict_numberToHash n) fun hash => ?_
    split
    · exact Await.strict_pure _
    · exact .bind (strict_getBlockAt _ _) fun _ => Await.strict_pure _
  · exact Await.strict_pure _

theorem strict_deleteCanonicalFrom (newHeadHash : Bytes) (trackDeleted : Bool) (fuel : ℕ) (n : ℤ)
    (r : DeleteCanonicalResult) :
    (deleteCanonicalFrom cfg newHeadHash trackDeleted fuel n r).Strict := by
  induction fuel generalizing n r with
  | zero => exact Await.strict_throw _
  | succ fuel ih =>
    refine .bind (strict_numberToHash n) fun hash => ?_
    split
    · exact Await.strict_pure _
    · exact .bind (strict_trackedBlock _ _) fun _ => ih _ _

/-! ## A node and the plain chain -/

/-- **A backend follows another** along a relation of their states. -/
structure Backend.Follows {σ τ : Type} (R : σ → τ → Prop) (B : Backend σ) (B' : Backend τ) :
    Prop where
  state : ∀ s t, R s t → B.state s = B'.state t
  setState : ∀ state s t, R s t → R (B.setState state s) (B'.setState state t)
  await : ∀ {α : Type} (p : Reading α), Action.Sim R (B.await p) (B'.await p)
  executeBatch : ∀ ops, Action.Sim R (B.executeBatch ops) (B'.executeBatch ops)
  hook : ∀ h, Action.Sim R (B.hook h) (B'.hook h)

namespace Backend.Follows

variable {σ τ : Type} {R : σ → τ → Prop} {B : Backend σ} {B' : Backend τ}
variable (h : B.Follows R B')
include h

theorem sim_getState : Action.Sim R B.getState B'.getState :=
  fun s t hst => ⟨congrArg Except.ok (h.state s t hst), hst⟩

theorem sim_modify (f : MutableState → MutableState) :
    Action.Sim R (B.modify f) (B'.modify f) := by
  refine Action.Sim.modify fun s t hst => ?_
  rw [h.state s t hst]
  exact h.setState _ s t hst

theorem sim_hookIf (c : Bool) (hk : Hook) : Action.Sim R (B.hookIf c hk) (B'.hookIf c hk) := by
  unfold Backend.hookIf
  split
  · exact h.hook hk
  · exact .pure ()

theorem sim_savePut (item : Item) (dbOps : List DBWrite) (commonAncestor : Option BlockHeader)
    (ancestorHeaders : List BlockHeader) :
    Action.Sim R (savePut B item dbOps commonAncestor ancestorHeaders)
      (savePut B' item dbOps commonAncestor ancestorHeaders) :=
  .bind h.sim_getState fun _ => .bind (h.executeBatch _) fun _ => h.hook _

theorem sim_putUnderLock (cfg : Config) (trackDeleted : Bool) (item : Item) :
    Action.Sim R (putUnderLock cfg B trackDeleted item)
      (putUnderLock cfg B' trackDeleted item) := by
  unfold putUnderLock
  split
  · split
    · exact .pure ()
    · exact .throw _
  · split
    · exact .throw _
    · refine .bind (h.sim_hookIf _ _) fun _ => .bind (h.sim_hookIf _ _) fun _ =>
        .bind h.sim_getState fun _ => .bind (h.await _) fun _ => .bind (h.await _) fun _ =>
        .bind (h.await _) fun _ => ?_
      dsimp only
      split
      · exact .bind h.sim_getState fun _ => .bind (h.await _) fun _ => .bind (h.sim_modify _)
          fun _ => .bind (h.sim_hookIf _ _) fun _ => .bind h.sim_getState fun _ =>
          .bind (h.await _) fun _ => .bind (h.sim_modify _) fun _ => .bind h.sim_getState fun _ =>
          .bind (h.await _) fun _ => .bind (h.sim_modify _) fun _ => h.sim_savePut _ _ _ _
      · exact .bind (h.sim_modify _) fun _ => h.sim_savePut _ _ _ _

theorem sim_runOp (cfg : Config) (trackDeleted : Bool) (op : Op) :
    Action.Sim R (runOp cfg B trackDeleted op) (runOp cfg B' trackDeleted op) := by
  cases op with
  | put item =>
    refine .bind h.sim_getState fun old => .bind (.onError (h.sim_putUnderLock _ _ _) ?_) fun _ =>
      h.sim_modify _
    intro s t hst
    rw [h.state s t hst]
    exact h.setState _ s t hst
  | resetCanonicalHead n =>
    refine .bind (h.await _) fun found => ?_
    cases found with
    | none => exact .throw _
    | some hash =>
      exact .bind (h.await _) fun _ => .bind h.sim_getState fun _ => .bind (h.await _) fun _ =>
        .bind (h.sim_modify _) fun _ => .bind (h.executeBatch _) fun _ => .bind (h.hook _) fun _ =>
        h.sim_modify _
  | setIteratorHead tag headHash =>
    exact .bind (h.sim_modify _) fun _ => .bind h.sim_getState fun _ => h.executeBatch _

end Backend.Follows

/-- A node is a chain behind caches that agree with it. -/
def Node.IsChain (s : Node C) (c : Chain) : Prop :=
  s.chain = c ∧ CachesAgree C s.store.cache s.store.db

theorem cached_follows_plain (a : Attempt) (hreads : ∀ k n, a.rejectsRead k n = false)
    (hbatch : a.rejectsBatch = false) :
    (cached a).Follows (Node.IsChain (C := C)) (plain a.hooks) where
  state := by
    rintro s _ ⟨rfl, -⟩
    rfl
  setState := by
    rintro state s _ ⟨rfl, hagree⟩
    exact ⟨rfl, hagree⟩
  await p := by
    rintro s _ ⟨rfl, hagree⟩
    have hat : s.At s.state s.store.db s.awaits := ⟨hagree, rfl, rfl, rfl⟩
    obtain ⟨hdb, hagree'⟩ := hat.agree_run p (a.rejectsRead s.awaits) requestRejected 0
    rw [Node.At.await_apply, plain_await]
    refine ⟨?_, ?_, ?_⟩
    · exact Await.run_eq_eval p hagree.coherent (hreads s.awaits)
    · exact congrArg (Chain.mk s.state) hdb
    · dsimp only
      rw [hdb]
      exact hagree'
  executeBatch ops := by
    rintro s _ ⟨rfl, hagree⟩
    unfold cached
    dsimp only
    rw [hbatch, plain_executeBatch]
    exact ⟨rfl, rfl, hagree.batch ops⟩
  hook hk := by
    rintro s _ ⟨rfl, hagree⟩
    exact ⟨rfl, rfl, hagree⟩

/-- **A call that no request is rejected of does to a node what it does to its
chain.** -/
theorem step_eq_of_unrejected (hreads : ∀ k n, a.rejectsRead k n = false)
    (hbatch : a.rejectsBatch = false) (hagree : CachesAgree C s.store.cache s.store.db) :
    (s.step cfg a).1 = (s.chain.step cfg a.toCall).1 ∧
      (s.step cfg a).2.IsChain (s.chain.step cfg a.toCall).2 :=
  (cached_follows_plain a hreads hbatch).sim_runOp cfg a.trackDeleted a.op _ _ ⟨rfl, hagree⟩

theorem Node.init_isChain : (Node.init cfg : Node C).IsChain (Chain.init cfg) :=
  ⟨rfl, CachesAgree.batch ⟨C.coherent_empty _, fun t _ => C.holds_empty t⟩ _⟩

end TsEthereum.Blockchain
