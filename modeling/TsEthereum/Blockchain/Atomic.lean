import TsEthereum.Blockchain.Cached
import TsEthereum.Blockchain.Canonical

/-!
# Calls that throw

A put that throws puts the heads back, and nothing else: the deleted blocks
it has tracked stay pending, the caches stay ahead of a batch that was
rejected, and what was written before the consensus threw stays written. A
reset puts nothing back. `Attempt.Harmless` says when a call that throws has
not come that far, or would have changed nothing; in a run of such calls
each one that throws leaves everything as it was (`same_of_run`).
-/

namespace TsEthereum.Blockchain

open TsEthereum

variable {C : StoreCache DBTarget.Value} {cfg : Config} {a : Attempt} {σ σ' : MutableState}
variable {db : Database} {k : ℕ} {s s' : Node C} {item : Item} {td : ℕ} {ops : List DBWrite}

/-- **All is as it was before**: the heads, the pending deleted blocks, and
what every later lookup returns, whatever is read until then. -/
structure SameAsBefore (s s' : Node C) : Prop where
  heads : s'.state.heads = s.state.heads
  headHeaderHash : s'.state.headHeaderHash = s.state.headHeaderHash
  headBlockHash : s'.state.headBlockHash = s.state.headBlockHash
  deletedBlocks : s'.state.deletedBlocks = s.state.deletedBlocks
  lookups : ∀ {α : Type} (reads : Reading α) (r : Record),
    s'.lookup reads r = s.lookup (pure ()) r

/-- What a put writes of its item is there. -/
def Database.Stored (cfg : Config) (db : Database) (item : Item) (td : ℕ) : Prop :=
  ∀ op ∈ itemOps cfg item td, db op.1 = op.2

/-- The consensus throws at the new block. -/
def Attempt.ConsensusThrows (a : Attempt) (item : Item) : Prop :=
  ∃ commonAncestor ancestorHeaders e,
    a.hooks (.newBlock item.blockToProcess commonAncestor ancestorHeaders) = .error e

/-- The place of the read that rebuilds the canonical chain, among those of a
put. -/
def rebuildingRead : ℕ := 5

/-- **A put that does no harm if it throws.** One that becomes canonical: if a
read of the rebuilding is rejected, it has tracked no deleted block; if its
batch is, what it writes is there, and canonical, and it has tracked none;
and if the consensus throws, nothing is above it either. One beside the
chain: if its batch is rejected or the consensus throws, what it writes is
there. -/
def PutHarmless (cfg : Config) (c : Chain) (item : Item) (a : Attempt) : Prop :=
  item.header.number ≠ 0 → ∀ currentTdHeader currentTdBlock parentTd,
    ReadsDifficulties c item currentTdHeader currentTdBlock parentTd →
    (shouldBecomeCanonical item (item.header.difficulty + parentTd) currentTdHeader →
      ((∃ n, a.rejectsRead rebuildingRead n = true) →
        a.trackDeleted = false ∨ c.db.numberToHash ((item.header.number : ℤ) + 1) = none) ∧
      (a.rejectsBatch = true →
        c.db.Stored cfg item (item.header.difficulty + parentTd) ∧
        c.db.numberToHash item.header.number = some (cfg.hash item.header) ∧
        (a.trackDeleted = false ∨ c.db.numberToHash ((item.header.number : ℤ) + 1) = none)) ∧
      (a.ConsensusThrows item →
        c.db.Stored cfg item (item.header.difficulty + parentTd) ∧
        c.db.numberToHash item.header.number = some (cfg.hash item.header) ∧
        c.db.numberToHash ((item.header.number : ℤ) + 1) = none)) ∧
    (¬ shouldBecomeCanonical item (item.header.difficulty + parentTd) currentTdHeader →
      a.rejectsBatch = true ∨ a.ConsensusThrows item →
        c.db.Stored cfg item (item.header.difficulty + parentTd) ∧
        c.db.hashToNumber (cfg.hash item.header) = some (asUintN64 item.header.number))

/-- **A call that does no harm if it throws.** A reset: if its batch is
rejected or the transition throws, nothing is above what it resets to. -/
def Attempt.Harmless (cfg : Config) (c : Chain) (a : Attempt) : Prop :=
  match a.op with
  | .put item => PutHarmless cfg c item a
  | .resetCanonicalHead n => (a.rejectsBatch = true ∨ ∃ e, a.hooks (.transition n) = .error e) →
      c.db.numberToHash (n + 1) = none
  | .setIteratorHead _ _ => True

/-- A call the claim is about: not `setIteratorHead`. -/
def Attempt.IsAtomic (a : Attempt) : Prop :=
  match a.op with
  | .setIteratorHead _ _ => False
  | _ => True

/-- Nothing is pending, and the caches agree with the database. -/
structure Node.Calm (s : Node C) : Prop where
  agree : CachesAgree C s.store.cache s.store.db
  deletedBlocks : s.state.deletedBlocks = []

/-! ## What a call that is thrown out of has left -/

/-- The records are left, and nothing is pending that was not. -/
structure Node.Left (s : Node C) (σ : MutableState) (db : Database) : Prop where
  agree : CachesAgree C s.store.cache s.store.db
  deletedBlocks : s.state.deletedBlocks = σ.deletedBlocks
  records : ∀ r, s.store.db (.record r) = db (.record r)

theorem Node.At.left (h : s.At σ' db k) (hdeleted : σ'.deletedBlocks = σ.deletedBlocks) :
    s.Left σ db where
  agree := by
    rw [h.db]
    exact h.agree
  deletedBlocks := by rw [h.state, hdeleted]
  records r := by rw [h.db]

theorem Node.lookup_eq (hagree : CachesAgree C s.store.cache s.store.db) {α : Type}
    (reads : Reading α) (r : Record) : s.lookup reads r = .ok (s.store.db (.record r)) := by
  obtain ⟨hdb, hcoherent⟩ : (reads.run DBTarget.isCached (fun _ => false) requestRejected
      s.store).2.db = s.store.db ∧ _ := Await.run_coherent reads hagree.coherent
  unfold Node.lookup
  dsimp only
  rw [Await.run_eq_eval _ hcoherent fun _ => rfl, Await.eval_lookup, hdb]

theorem Node.Left.same (h : s'.Left s.state s.store.db)
    (hagree : CachesAgree C s.store.cache s.store.db)
    (hheads : s'.state.heads = s.state.heads)
    (hheader : s'.state.headHeaderHash = s.state.headHeaderHash)
    (hblock : s'.state.headBlockHash = s.state.headBlockHash) : SameAsBefore s s' where
  heads := hheads
  headHeaderHash := hheader
  headBlockHash := hblock
  deletedBlocks := h.deletedBlocks
  lookups reads r := by
    rw [Node.lookup_eq h.agree, Node.lookup_eq hagree, h.records]

theorem batch_of_there {r : Record}
    (hthere : ∀ v, (⟨.record r, v⟩ : DBWrite) ∈ ops → db (.record r) = v) :
    Store.batch db ops (.record r) = db (.record r) := by
  rcases Store.batch_cases db ops (.record r) with hsame | hwritten
  · exact hsame
  · exact (hthere _ hwritten).symm

theorem not_isCached_saveHeadOps {op : DBWrite} (hop : op ∈ createSaveHeadOps σ) :
    op.1.isCached = false := by
  simp only [createSaveHeadOps, List.mem_cons, List.not_mem_nil, or_false] at hop
  rcases hop with rfl | rfl | rfl <;> rfl

/-! ## What the loops return -/

theorem deleteCanonicalFrom_of_none {newHeadHash : Bytes} {trackDeleted : Bool} {fuel : ℕ} {n : ℤ}
    {r r' : DeleteCanonicalResult} (hnone : db.numberToHash n = none)
    (hloop : (deleteCanonicalFrom cfg newHeadHash trackDeleted fuel n r).eval db = .ok r') :
    r' = r := by
  cases fuel with
  | zero => cases hloop
  | succ fuel =>
    unfold deleteCanonicalFrom at hloop
    rw [Await.eval_bind, eval_numberToHash, ok_bind, hnone] at hloop
    exact (Except.ok.inj hloop).symm

theorem deleteCanonicalFrom_untracked {newHeadHash : Bytes} {fuel : ℕ} {n : ℤ}
    {r r' : DeleteCanonicalResult}
    (hloop : (deleteCanonicalFrom cfg newHeadHash false fuel n r).eval db = .ok r') :
    r'.deletedBlocks = r.deletedBlocks := by
  induction fuel generalizing n r with
  | zero => cases hloop
  | succ fuel ih =>
    unfold deleteCanonicalFrom at hloop
    rw [Await.eval_bind, eval_numberToHash, ok_bind] at hloop
    cases hn : db.numberToHash n with
    | none =>
      rw [hn] at hloop
      cases hloop
      rfl
    | some hash =>
      rw [hn] at hloop
      dsimp only at hloop
      rw [Await.eval_bind] at hloop
      obtain ⟨deleted, hdeleted, hloop⟩ := bind_eq_ok.1 hloop
      obtain rfl : none = deleted := Except.ok.inj hdeleted
      rw [ih hloop, DeleteCanonicalResult.add]
      exact List.append_nil _

theorem deletedBlocks_eq_nil {newHeadHash : Bytes} {trackDeleted : Bool} {n : ℤ}
    {r : DeleteCanonicalResult} (hnone : trackDeleted = false ∨ db.numberToHash n = none)
    (hdeleted : (createDeleteCanonicalChainOps cfg n newHeadHash σ trackDeleted).eval db = .ok r) :
    r.deletedBlocks = [] := by
  unfold createDeleteCanonicalChainOps at hdeleted
  rcases hnone with rfl | hnone
  · rw [deleteCanonicalFrom_untracked hdeleted]
  · rw [deleteCanonicalFrom_of_none hnone hdeleted]

/-- **The rebuilding loop throws only as long as it runs**, if nothing is
rejected. -/
theorem rebuildCanonicalFrom_error {fuel : ℕ} {x : BlockHeader} {n : ℤ} {r : Rebuilding}
    {e : ChainError}
    (hloop : (rebuildCanonicalFrom cfg σ fuel x n r).eval db = .error e) : e = .running := by
  induction fuel generalizing x n r with
  | zero =>
    cases hloop
    rfl
  | succ fuel ih =>
    unfold rebuildCanonicalFrom at hloop
    rw [Await.eval_bind, eval_numberToHash, ok_bind] at hloop
    split at hloop
    · cases hloop
    · split at hloop
      · cases hloop
      · rw [Await.eval_bind, eval_numberToHash, ok_bind, Await.eval_bind, Await.eval_attempt] at hloop
        cases hparent : (getHeaderByHash cfg x.parentHash (some (n - 1))).eval db with
        | error e =>
          rw [hparent] at hloop
          cases hloop
        | ok y =>
          rw [hparent] at hloop
          exact ih hloop

theorem rebuild_of_canonical {x : BlockHeader} {cache : Await.Cached C} {rejects : ℕ → Bool}
    (hcoherent : cache.Coherent) (hcanonical : Database.numberToHash cache.db x.number = some (cfg.hash x))
    {result : RebuildCanonicalResult}
    (hrun : ((createRebuildCanonicalOps cfg x σ).run DBTarget.isCached rejects requestRejected
      cache).1 = .ok result) : result.ops = [] := by
  have hloop (fuel : ℕ) (y : Rebuilding × Bytes) (cache' : Await.Cached C)
      (h : (rebuildCanonicalFrom cfg σ fuel x x.number ⟨[], fun _ => false, false⟩).run
        DBTarget.isCached rejects requestRejected cache = (.ok y, cache')) : y.1.ops = [] := by
    cases fuel with
    | zero => cases h
    | succ fuel =>
      unfold rebuildCanonicalFrom at h
      rw [Await.run_bind] at h
      split at h
      · next staleHash cache'' hstale =>
        -- the first lookup finds the hash of the block
        have heval := (strict_numberToHash (x.number : ℤ)).eval_of_run_ok hcoherent
          (congrArg Prod.fst hstale)
        rw [eval_numberToHash, hcanonical] at heval
        rw [if_pos (Except.ok.inj heval).symm] at h
        cases h
        rfl
      · cases h
  unfold createRebuildCanonicalOps at hrun
  rw [Await.run_bind] at hrun
  split at hrun
  · next y cache' hy =>
    have hnil := hloop cfg.fuel y cache' hy
    cases hrun
    exact hnil
  · cases hrun

/-! ## One put -/

/-- What a put may leave when it throws: the loop runs on, or the records and
the pending blocks are what they were. -/
def LeftOrRunning (σ : MutableState) (db : Database) (e : ChainError) (s : Node C) : Prop :=
  e = .running ∨ s.Left σ db

theorem savePut_triple (h : s.At σ' db k) (hdeleted : σ'.deletedBlocks = σ.deletedBlocks ∨
      a.rejectsBatch = false ∧ ¬ a.ConsensusThrows item)
    (hbatch : a.rejectsBatch = true →
      ∀ op ∈ ops, op.1.isCached = true → ∀ v, op.2 = some v → db op.1 = some v)
    (hconsensus : a.ConsensusThrows item → ∀ op ∈ ops, db op.1 = op.2)
    (commonAncestor : Option BlockHeader) (ancestorHeaders : List BlockHeader) :
    Action.Triple (savePut (cached a) item ops commonAncestor ancestorHeaders) s
      (fun _ s' => CachesAgree C s'.store.cache s'.store.db) (LeftOrRunning σ db) := by
  refine .bind (h.getState) fun state s₁ ⟨h₁, hstate⟩ => ?_
  subst hstate
  refine .bind (Q := fun _ s₂ => s₂.At state (db.batch (ops ++ createSaveHeadOps state)) k)
    ?_ fun _ s₂ h₂ => ?_
  · refine (h₁.executeBatch _).weaken (fun _ _ hat => hat) ?_
    rintro e s₂ ⟨hrejects, hstate, hdb, -, hcache⟩
    have hdeleted' := hdeleted.resolve_right fun h => by
      rw [hrejects] at h
      cases h.1
    refine .inr ⟨?_, ?_, fun r => by rw [hdb]⟩
    · rw [hcache, hdb]
      refine h₁.agree.rejected fun op hop hcached => ?_
      rcases List.mem_append.1 hop with hop | hop
      · exact hbatch hrejects op hop hcached
      · rw [not_isCached_saveHeadOps hop] at hcached
        cases hcached
    · rw [hstate, hdeleted']
  · refine (h₂.hook _).weaken (fun _ s₃ h₃ => ?_) ?_
    · rw [h₃.db]
      exact h₃.agree
    · rintro e s₃ ⟨h₃, hthrows⟩
      have hthrows' : a.ConsensusThrows item := ⟨_, _, _, hthrows⟩
      have hdeleted' := hdeleted.resolve_right fun h => h.2 hthrows'
      refine .inr ⟨?_, ?_, fun r => ?_⟩
      · rw [h₃.db]
        exact h₃.agree
      · rw [h₃.state, hdeleted']
      · rw [h₃.db]
        refine batch_of_there fun v hv => ?_
        rcases List.mem_append.1 hv with hv | hv
        · exact hconsensus hthrows' _ hv
        · cases (not_isCached_saveHeadOps hv).symm.trans
            (show (DBTarget.record r).isCached = true by cases r <;> rfl)

theorem putCanonical_triple (h : s.At σ db 3) (hpending : σ.deletedBlocks = [])
    (hread : (∃ n, a.rejectsRead rebuildingRead n = true) →
      a.trackDeleted = false ∨ db.numberToHash ((item.header.number : ℤ) + 1) = none)
    (hbatch : a.rejectsBatch = true → db.Stored cfg item td ∧
      db.numberToHash item.header.number = some (cfg.hash item.header) ∧
      (a.trackDeleted = false ∨ db.numberToHash ((item.header.number : ℤ) + 1) = none))
    (hconsensus : a.ConsensusThrows item → db.Stored cfg item td ∧
      db.numberToHash item.header.number = some (cfg.hash item.header) ∧
      db.numberToHash ((item.header.number : ℤ) + 1) = none) :
    Action.Triple (putCanonical cfg (cached a) a.trackDeleted item (itemOps cfg item td)) s
      (fun _ s' => CachesAgree C s'.store.cache s'.store.db) (LeftOrRunning σ db) := by
  refine .bind h.getState fun state s₁ ⟨h₁, hstate⟩ => ?_
  subst hstate
  refine .bind ((h₁.await _).weaken (fun _ _ hat => hat) fun _ _ hat => .inr (hat.1.left rfl))
    fun found s₂ ⟨h₂, _⟩ => ?_
  refine .bind (h₂.modify _) fun _ s₃ h₃ => ?_
  refine .bind ((h₃.hookIf _ _).weaken (fun _ _ hat => hat) fun _ _ hat => .inr (hat.left rfl))
    fun _ s₄ h₄ => ?_
  refine .bind h₄.getState fun pointed s₅ ⟨h₅, _⟩ => ?_
  refine .bind ((h₅.await_strict (strict_deleteCanonicalFrom _ _ _ _ _)).weaken
    (fun _ _ hat => hat) fun _ _ hat => .inr (hat.left rfl)) fun deleteResult s₆ ⟨h₆, hdelete⟩ => ?_
  refine .bind (h₆.modify _) fun _ s₇ h₇ => ?_
  have hnone (hcond : a.trackDeleted = false ∨
      db.numberToHash ((item.header.number : ℤ) + 1) = none) :
      deleteResult.deletedBlocks = state.deletedBlocks := by
    rw [hpending]
    exact deletedBlocks_eq_nil hcond hdelete
  refine .bind h₇.getState fun deleted s₈ ⟨h₈, hdeleted⟩ => ?_
  refine .bind ((h₈.await _).weaken (fun _ _ hat => hat) ?_)
    fun rebuildResult s₉ ⟨h₉, hrebuilt⟩ => ?_
  · -- a read of the rebuilding was rejected, or the loop runs on
    rintro e s₉ ⟨h₉, herror⟩
    by_cases hrejects : ∃ n, a.rejectsRead rebuildingRead n = true
    · exact .inr (h₉.left (hnone (hread hrejects)))
    · have hall (n : ℕ) : a.rejectsRead (3 + 1 + 1) n = false :=
        Bool.not_eq_true _ ▸ fun h => hrejects ⟨n, h⟩
      rw [Await.run_eq_eval _ (h₈.coherent 0) hall] at herror
      rcases bind_eq_error.1 (Await.eval_bind _ _ ▸ herror) with hloop | ⟨x, -, hx⟩
      · exact .inl (rebuildCanonicalFrom_error hloop)
      · cases hx
  refine .bind (h₉.modify _) fun _ s₁₀ h₁₀ => ?_
  have hrebuild (hcanonical : db.numberToHash item.header.number = some (cfg.hash item.header)) :
      rebuildResult.ops = [] := by
    refine rebuild_of_canonical (h₈.coherent 0) ?_ hrebuilt
    dsimp only
    rw [h₈.db]
    exact hcanonical
  refine savePut_triple h₁₀ ?_ ?_ ?_ _ _
  · by_cases hrejects : a.rejectsBatch = true
    · exact .inl (hnone (hbatch hrejects).2.2)
    · by_cases hthrows : a.ConsensusThrows item
      · exact .inl (hnone (.inr (hconsensus hthrows).2.2))
      · exact .inr ⟨Bool.not_eq_true _ ▸ hrejects, hthrows⟩
  · intro hrejects op hop _ v hv
    obtain ⟨hstored, hcanonical, -⟩ := hbatch hrejects
    rw [hrebuild hcanonical, List.append_nil] at hop
    rcases List.mem_append.1 hop with hop | hop
    · rw [hstored op hop, hv]
    · -- a deletion writes no value
      rcases (deleteCanonicalFrom_writes hdelete).1 op hop with hop | ⟨m, rfl⟩
      · cases hop
      · cases hv
  · intro hthrows op hop
    obtain ⟨hstored, hcanonical, habove⟩ := hconsensus hthrows
    rw [hrebuild hcanonical, List.append_nil, deleteCanonicalFrom_of_none habove hdelete] at hop
    rcases List.mem_append.1 hop with hop | hop
    · exact hstored op hop
    · cases hop

theorem putBeside_triple (h : s.At σ db k) {currentTdBlock : ℕ}
    (hthere : a.rejectsBatch = true ∨ a.ConsensusThrows item → db.Stored cfg item td ∧
      db.hashToNumber (cfg.hash item.header) = some (asUintN64 item.header.number)) :
    Action.Triple (putBeside cfg (cached a) item (itemOps cfg item td) td currentTdBlock) s
      (fun _ s' => CachesAgree C s'.store.cache s'.store.db) (LeftOrRunning σ db) := by
  refine .bind (h.modify _) fun _ s₁ h₁ => ?_
  have hall (hcond : a.rejectsBatch = true ∨ a.ConsensusThrows item) :
      ∀ op ∈ itemOps cfg item td ++
        [createSetHashToNumberOp (cfg.hash item.header) item.header.number], db op.1 = op.2 := by
    intro op hop
    obtain ⟨hstored, hnumber⟩ := hthere hcond
    rcases List.mem_append.1 hop with hop | hop
    · exact hstored op hop
    · rw [List.mem_singleton.1 hop]
      exact hnumber
  refine savePut_triple h₁ (.inl (show _ = σ.deletedBlocks from rfl))
    (fun hrejects op hop _ v hv => ?_) (fun hthrows => hall (.inr hthrows)) _ _
  rw [hall (.inl hrejects) op hop, hv]

theorem putUnderLock_triple (h : s.At σ db 0) (hpending : σ.deletedBlocks = [])
    (hharmless : PutHarmless cfg ⟨σ, db⟩ item a) :
    Action.Triple (putUnderLock cfg (cached a) a.trackDeleted item) s
      (fun _ s' => CachesAgree C s'.store.cache s'.store.db) (LeftOrRunning σ db) := by
  have hleft {s' : Node C} {k : ℕ} (hat : s'.At σ db k) {e : ChainError} :
      LeftOrRunning σ db e s' := .inr (hat.left rfl)
  have hagree : CachesAgree C s.store.cache s.store.db := by
    rw [h.db]
    exact h.agree
  unfold putUnderLock
  split
  · split
    · exact .pure hagree
    · exact .throw (hleft h)
  · next hne =>
    split
    · exact .throw (hleft h)
    · refine .bind ((h.hookIf _ _).weaken (fun _ _ hat => hat) fun _ _ hat => hleft hat)
        fun _ s₁ h₁ => ?_
      refine .bind ((h₁.hookIf _ _).weaken (fun _ _ hat => hat) fun _ _ hat => hleft hat)
        fun _ s₂ h₂ => ?_
      refine .bind h₂.getState fun state s₃ ⟨h₃, hstate⟩ => ?_
      subst hstate
      refine .bind ((h₃.await_strict (strict_getTotalDifficulty _)).weaken (fun _ _ hat => hat)
        fun _ _ hat => hleft hat) fun tdHeader s₄ ⟨h₄, htdHeader⟩ => ?_
      refine .bind ((h₄.await_strict (strict_getTotalDifficulty _)).weaken (fun _ _ hat => hat)
        fun _ _ hat => hleft hat) fun tdBlock s₅ ⟨h₅, htdBlock⟩ => ?_
      refine .bind ((h₅.await_strict (strict_getParentTD _)).weaken (fun _ _ hat => hat)
        fun _ _ hat => hleft hat) fun tdParent s₆ ⟨h₆, htdParent⟩ => ?_
      obtain ⟨hcanonical, hbeside⟩ := hharmless hne _ _ _ ⟨htdHeader, htdBlock, htdParent⟩
      dsimp only
      split
      · next hshould =>
        obtain ⟨hread, hbatch, hconsensus⟩ := hcanonical hshould
        exact putCanonical_triple h₆ hpending hread hbatch hconsensus
      · next hshould => exact putBeside_triple h₆ (hbeside hshould)

/-- What a call may leave when it throws. -/
def SameOrRunning (σ : MutableState) (db : Database) (e : ChainError) (s : Node C) : Prop :=
  e = .running ∨ s.Left σ db ∧ s.state.heads = σ.heads ∧
    s.state.headHeaderHash = σ.headHeaderHash ∧ s.state.headBlockHash = σ.headBlockHash

theorem putBlockOrHeader_triple (h : s.At σ db 0) (hpending : σ.deletedBlocks = [])
    (hharmless : PutHarmless cfg ⟨σ, db⟩ item a) :
    Action.Triple (putBlockOrHeader cfg (cached a) a.trackDeleted item) s
      (fun _ s' => s'.Calm) (SameOrRunning σ db) := by
  refine .bind h.getState fun old s₁ ⟨h₁, hold⟩ => ?_
  subst hold
  refine .bind (.onError ((putUnderLock_triple h₁ hpending hharmless).weaken
    (fun _ _ hagree => hagree) ?_)) fun _ s₂ hagree => ?_
  · rintro e s₂ (hrunning | hleft)
    · exact .inl hrunning
    · exact .inr ⟨⟨hleft.agree, hleft.deletedBlocks, hleft.records⟩, rfl, rfl, rfl⟩
  · exact .modify ⟨hagree, rfl⟩

/-! ## One reset -/

theorem resetCanonicalHead_triple (h : s.At σ db 0) (hpending : σ.deletedBlocks = []) {n : ℤ}
    (hharmless : (a.rejectsBatch = true ∨ ∃ e, a.hooks (.transition n) = .error e) →
      db.numberToHash (n + 1) = none) :
    Action.Triple (resetCanonicalHead cfg (cached a) a.trackDeleted n) s
      (fun _ s' => s'.Calm) (SameOrRunning σ db) := by
  have hsame {s' : Node C} {k : ℕ} (hat : s'.At σ db k) {e : ChainError} :
      SameOrRunning σ db e s' := by
    refine .inr ⟨hat.left rfl, ?_, ?_, ?_⟩ <;> rw [hat.state]
  refine .bind ((h.await_strict (strict_numberToHash n)).weaken (fun _ _ hat => hat)
    fun _ _ hat => hsame hat) fun found s₁ ⟨h₁, _⟩ => ?_
  cases found with
  | none => exact .throw (hsame h₁)
  | some hash =>
    refine .bind ((h₁.await _).weaken (fun _ _ hat => hat) fun _ _ hat => hsame hat.1)
      fun header s₂ ⟨h₂, _⟩ => ?_
    refine .bind h₂.getState fun state s₃ ⟨h₃, hstate⟩ => ?_
    subst hstate
    refine .bind ((h₃.await_strict (strict_deleteCanonicalFrom _ _ _ _ _)).weaken
      (fun _ _ hat => hat) fun _ _ hat => hsame hat) fun deleteResult s₄ ⟨h₄, hdelete⟩ => ?_
    dsimp only
    refine .bind (h₄.modify _) fun _ s₅ h₅ => ?_
    -- with nothing above, the reset assigns what was there
    have hnothing (habove : db.numberToHash (n + 1) = none) :
        deleteResult = ⟨[], [], state.heads, state.headHeaderHash, state.headBlockHash⟩ :=
      deleteCanonicalFrom_of_none habove hdelete
    refine .bind (Q := fun _ s₆ => s₆.At deleteResult.state
      (db.batch (deleteResult.ops ++ createSaveHeadOps deleteResult.state)) 3)
      ((h₅.executeBatch _).weaken (fun _ _ hat => hat) ?_) fun _ s₆ h₆ => ?_
    · rintro e s₆ ⟨hrejects, hstate', hdb, -, hcache⟩
      have hdelete' := hnothing (hharmless (.inl hrejects))
      rw [hdelete'] at hstate' hcache
      refine .inr ⟨⟨?_, ?_, fun r => by rw [hdb]⟩, ?_, ?_, ?_⟩
      · rw [hcache, hdb]
        refine h₅.agree.rejected fun op hop hcached => ?_
        rw [not_isCached_saveHeadOps hop] at hcached
        cases hcached
      · rw [hstate', hpending]
      · rw [hstate']
      · rw [hstate']
      · rw [hstate']
    refine .bind ((h₆.hook _).weaken (fun _ _ hat => hat) ?_) fun _ s₇ h₇ => ?_
    · rintro e s₇ ⟨h₇, hthrows⟩
      have hdelete' := hnothing (hharmless (.inr ⟨e, hthrows⟩))
      subst hdelete'
      refine .inr ⟨⟨?_, ?_, fun r => ?_⟩, ?_, ?_, ?_⟩
      · rw [h₇.db]
        exact h₇.agree
      · exact (congrArg MutableState.deletedBlocks h₇.state).trans hpending.symm
      · rw [h₇.db]
        exact batch_saveHeadOps _ _ _
      · exact (congrArg MutableState.heads h₇.state).trans rfl
      · exact (congrArg MutableState.headHeaderHash h₇.state).trans rfl
      · exact (congrArg MutableState.headBlockHash h₇.state).trans rfl
    · refine .modify ⟨?_, rfl⟩
      dsimp only [cached]
      rw [h₇.db]
      exact h₇.agree

theorem setIteratorHead_triple (h : s.At σ db k) (tag : String) (headHash : Bytes) :
    Action.Triple (setIteratorHead (cached a) tag headHash) s
      (fun _ s' => CachesAgree C s'.store.cache s'.store.db ∧
        s'.state.deletedBlocks = σ.deletedBlocks)
      fun _ s' => CachesAgree C s'.store.cache s'.store.db ∧
        s'.state.deletedBlocks = σ.deletedBlocks := by
  refine .bind (h.modify _) fun _ s₁ h₁ => ?_
  refine .bind h₁.getState fun state s₂ ⟨h₂, hstate⟩ => ?_
  refine (h₂.executeBatch _).weaken ?_ ?_
  · rintro _ s₃ h₃
    rw [h₃.db, h₃.state]
    exact ⟨h₃.agree, rfl⟩
  · rintro _ s₃ ⟨-, hstate', hdb, -, hcache⟩
    rw [hcache, hdb, hstate']
    refine ⟨h₂.agree.rejected fun op hop hcached => ?_, rfl⟩
    rw [not_isCached_saveHeadOps hop] at hcached
    cases hcached

/-! ## Along a run -/

/-- **A call that does no harm leaves the node calm**, and as it was if it
throws. -/
theorem step_of_harmless (h : s.Calm) (hharmless : a.Harmless cfg s.chain)
    (hends : (s.step cfg a).1 ≠ .error .running) :
    (s.after cfg a).Calm ∧
      (a.IsAtomic → ∀ e, (s.step cfg a).1 = .error e → SameAsBefore s (s.after cfg a)) := by
  have hat : Node.At { s with awaits := 0 } s.state s.store.db 0 := ⟨h.agree, rfl, rfl, rfl⟩
  have hresult : s.step cfg a = ((s.step cfg a).1, s.after cfg a) := rfl
  have hatomic (htriple : Action.Triple (runOp cfg (cached a) a.trackDeleted a.op)
      { s with awaits := 0 } (fun _ s' => s'.Calm) (SameOrRunning s.state s.store.db)) :
      (s.after cfg a).Calm ∧
        (a.IsAtomic → ∀ e, (s.step cfg a).1 = .error e → SameAsBefore s (s.after cfg a)) := by
    cases hx : (s.step cfg a).1 with
    | ok u =>
      rw [hx] at hresult
      refine ⟨htriple.ok u _ hresult, fun _ e he => ?_⟩
      cases he
    | error e =>
      rw [hx] at hresult hends
      rcases htriple.error e _ hresult with rfl | ⟨hleft, hheads, hheader, hblock⟩
      · exact absurd rfl hends
      · exact ⟨⟨hleft.agree, hleft.deletedBlocks.trans h.deletedBlocks⟩, fun _ _ _ =>
          hleft.same h.agree hheads hheader hblock⟩
  unfold Attempt.Harmless at hharmless
  cases hop : a.op with
  | put item =>
    rw [hop] at hharmless
    refine hatomic ?_
    rw [hop]
    exact putBlockOrHeader_triple hat h.deletedBlocks hharmless
  | resetCanonicalHead n =>
    rw [hop] at hharmless
    refine hatomic ?_
    rw [hop]
    exact resetCanonicalHead_triple hat h.deletedBlocks hharmless
  | setIteratorHead tag headHash =>
    have htriple := setIteratorHead_triple (a := a) hat tag headHash
    refine ⟨?_, fun hatomic' => ?_⟩
    · have hcalm : CachesAgree C (s.after cfg a).store.cache (s.after cfg a).store.db ∧
          (s.after cfg a).state.deletedBlocks = s.state.deletedBlocks := by
        have hrun : setIteratorHead (cached a) tag headHash { s with awaits := 0 } =
            ((s.step cfg a).1, s.after cfg a) := by
          rw [← hresult, Node.step, hop]
          rfl
        cases hx : (s.step cfg a).1 with
        | ok u => exact htriple.ok u _ (hx ▸ hrun)
        | error e => exact htriple.error e _ (hx ▸ hrun)
      exact ⟨hcalm.1, hcalm.2.trans h.deletedBlocks⟩
    · rw [Attempt.IsAtomic, hop] at hatomic'
      cases hatomic'

theorem calm_init : (Node.init cfg : Node C).Calm := by
  refine ⟨CachesAgree.batch ⟨C.coherent_empty _, fun t _ => C.holds_empty t⟩ _, rfl⟩

/-- **Calls that throw leave all as it was**, in every run of calls that do no
harm if they throw. -/
theorem same_of_run (attempts : List Attempt)
    (hends : ∀ pre a, pre ++ [a] <+: attempts →
      ((pre.foldl (Node.after cfg) (Node.init cfg : Node C)).step cfg a).1 ≠ .error .running)
    (hharmless : ∀ pre a, pre ++ [a] <+: attempts →
      a.Harmless cfg (pre.foldl (Node.after cfg) (Node.init cfg : Node C)).chain) :
    ∀ pre a, pre ++ [a] <+: attempts → a.IsAtomic → ∀ (s : Node C) e,
      pre.foldl (Node.after cfg) (Node.init cfg) = s → (s.step cfg a).1 = .error e →
        SameAsBefore s (s.after cfg a) := by
  have hcalm : ∀ pre, pre <+: attempts →
      (pre.foldl (Node.after cfg) (Node.init cfg : Node C)).Calm := by
    intro pre
    induction pre using List.reverseRecOn with
    | nil => exact fun _ => calm_init
    | append_singleton pre a ih =>
      intro hpre
      rw [List.foldl_concat]
      exact (step_of_harmless (ih ((List.prefix_append pre [a]).trans hpre)) (hharmless pre a hpre)
        (hends pre a hpre)).1
  rintro pre a hpre hatomic s e rfl herror
  exact (step_of_harmless (hcalm pre ((List.prefix_append pre [a]).trans hpre))
    (hharmless pre a hpre) (hends pre a hpre)).2 hatomic e herror

/-! ## A batch that is rejected -/

/-- The node of a sample chain, with caches that forget nothing. -/
def sampleNode : Node (StoreCache.unbounded DBTarget.Value) := Node.init sampleConfig

/-- A put of which the reads at a place are rejected, and perhaps the batch. -/
def rejectedPut (header : BlockHeader) (place : Option ℕ) (rejectsBatch : Bool) : Attempt where
  toCall := samplePut header
  rejectsRead k _ := decide (place = some k)
  rejectsBatch := rejectsBatch

/-- It does no harm unless its batch is rejected, or a read of the
rebuilding. -/
theorem harmless_rejectedPut {header : BlockHeader} {place : Option ℕ} {c : Chain}
    (hplace : place ≠ some rebuildingRead) :
    (rejectedPut header place false).Harmless sampleConfig c := by
  have hconsensus : ¬ (rejectedPut header place false).ConsensusThrows (sampleItem header) := by
    rintro ⟨_, _, _, hthrows⟩
    cases hthrows
  refine fun _ tdHeader tdBlock tdParent _ => ⟨fun _ => ⟨?_, ?_, ?_⟩, fun _ => ?_⟩
  · rintro ⟨n, hn⟩
    exact absurd (of_decide_eq_true hn) hplace
  · intro hrejects
    cases hrejects
  · exact fun hthrows => absurd hthrows hconsensus
  · rintro (hrejects | hthrows)
    · cases hrejects
    · exact absurd hthrows hconsensus

/-- Two puts, of which the second is thrown out of as it deletes. -/
def interruptedPuts : List Attempt :=
  [rejectedPut (sampleHeader [1] [0] 1 1) none false,
    rejectedPut (sampleHeader [2] [1] 2 1) (some 4) false]

theorem same_of_run_interruptedPuts :
    SameAsBefore (sampleNode.after sampleConfig (rejectedPut (sampleHeader [1] [0] 1 1) none false))
      ((sampleNode.after sampleConfig (rejectedPut (sampleHeader [1] [0] 1 1) none false)).after
        sampleConfig (rejectedPut (sampleHeader [2] [1] 2 1) (some 4) false)) := by
  refine same_of_run interruptedPuts ?_ ?_ [rejectedPut (sampleHeader [1] [0] 1 1) none false] _
    List.prefix_rfl trivial _ requestRejected rfl (by decide +kernel)
  · intro pre a hpre
    unfold interruptedPuts at hpre
    rcases concat_prefix_cons.1 hpre with ⟨rfl, rfl⟩ | ⟨pre, rfl, hrest⟩
    · decide +kernel
    rcases concat_prefix_cons.1 hrest with ⟨rfl, rfl⟩ | ⟨pre, rfl, hnil⟩
    · decide +kernel
    simp at hnil
  · intro pre a hpre
    unfold interruptedPuts at hpre
    rcases concat_prefix_cons.1 hpre with ⟨rfl, rfl⟩ | ⟨pre, rfl, hrest⟩
    · exact harmless_rejectedPut (by decide)
    rcases concat_prefix_cons.1 hrest with ⟨rfl, rfl⟩ | ⟨pre, rfl, hnil⟩
    · exact harmless_rejectedPut (by decide)
    simp at hnil

/-- **A rejected batch leaves the caches ahead**: the total difficulty of a
block that was not put is found. -/
theorem rejected_batch_is_cached :
    (sampleNode.step sampleConfig (rejectedPut (sampleHeader [1] [0] 1 1) none true)).1 =
        .error requestRejected ∧
      ¬ SameAsBefore sampleNode
        (sampleNode.after sampleConfig (rejectedPut (sampleHeader [1] [0] 1 1) none true)) := by
  refine ⟨by decide +kernel, fun hsame => ?_⟩
  have hlookup := hsame.lookups (pure ()) (.totalDifficulty 1 [1])
  have hbefore : (sampleNode.lookup (pure ()) (.totalDifficulty 1 [1]) :
      Except ChainError (Option ℕ)) = .ok none := by decide +kernel
  have hafter : ((sampleNode.after sampleConfig
      (rejectedPut (sampleHeader [1] [0] 1 1) none true)).lookup (pure ())
        (.totalDifficulty 1 [1]) : Except ChainError (Option ℕ)) = .ok (some 2) := by
    decide +kernel
  cases (hafter.symm.trans hlookup).trans hbefore

end TsEthereum.Blockchain
