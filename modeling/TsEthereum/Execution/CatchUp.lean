import TsEthereum.Execution.VmExecution

/-!
# Catching up

What `run` does on a stored canonical chain that nothing changes. From a block of
it the iterator runs the next ones until it has run as many as it was asked to, or is at the
end, or a block fails (`iterateVm_spec`); so does a batch (`batch_spec`), and the loop goes on
while the batches are full.

After a failure a batch counts the block that failed. With batches of one block it then looks
full although nothing was run, and the loop goes round on that block for ever.
-/

namespace TsEthereum.VMExecution

open TsEthereum TsEthereum.Blockchain

/-! ## The stored chain -/

/-- **A stored canonical chain**: its blocks are read by their numbers, up to the first that is
not there, and by their hashes, and each names the one before. -/
structure Stored (cfg : Config) (db : Database) (blocks : List Block) : Prop where
  block : ∀ n : ℕ, n ≤ blocks.length → (getBlockByNumber cfg n).eval db = .ok blocks[n]?
  byHash : ∀ b ∈ blocks, (getBlockByHash cfg (cfg.hash b.header)).eval db = .ok b
  number : ∀ n b, blocks[n]? = some b →
    db.hashToNumber (cfg.hash b.header) = some n ∧ b.header.number = n
  linked : ∀ n p b, blocks[n]? = some p → blocks[n + 1]? = some b →
    b.header.parentHash = cfg.hash p.header

/-- **The vm head is block `n`** of it, and its last block the canonical head. -/
structure At (cfg : Config) (blocks : List Block) (n : ℕ) (c : Chain) : Prop where
  stored : Stored cfg c.db blocks
  vmHead : ∃ b, blocks[n]? = some b ∧ iteratorHead cfg c.state "vm" = cfg.hash b.header
  canonicalHead : ∃ b, blocks[blocks.length - 1]? = some b ∧
    c.state.headBlockHash = cfg.hash b.header

/-- Block `n + 1` runs. -/
def Executes (vm : VM) (blocks : List Block) (n : ℕ) : Prop :=
  ∃ p b, blocks[n]? = some p ∧ blocks[n + 1]? = some b ∧ vm.runBlock p b = .ok ()

/-- Block `n + 1` fails. -/
def Fails (vm : VM) (blocks : List Block) (n : ℕ) (message : String) : Prop :=
  ∃ p b, blocks[n]? = some p ∧ blocks[n + 1]? = some b ∧ vm.runBlock p b = .error message

/-- **Block `t` is the last that runs**: the others up to it do, and it is the last of all, or the
next one fails. -/
structure LastExecuted (vm : VM) (blocks : List Block) (s t : ℕ) : Prop where
  le : s ≤ t
  executes : ∀ n, s ≤ n → n < t → Executes vm blocks n
  stops : t + 1 = blocks.length ∨ ∃ message, Fails vm blocks t message

theorem LastExecuted.lt_length {vm : VM} {blocks : List Block} {s t : ℕ}
    (h : LastExecuted vm blocks s t) : t < blocks.length := by
  rcases h.stops with hlast | ⟨message, p, b, hp, -, -⟩
  · omega
  · exact (List.getElem?_eq_some_iff.1 hp).1

/-- **The failure is counted**: it neither ends the iterator quietly nor lacks a witness. -/
def Counted (message : String) : Prop :=
  includes (blockExecutionFailed message) "not found in DB" = false ∧
    includes message "Invalid executionWitness=null" = false

instance (message : String) : Decidable (Counted message) := inferInstanceAs (Decidable (_ ∧ _))

/-- No block fails for a state that is not there. -/
def StatesPresent (vm : VM) : Prop :=
  ∀ p b message, vm.runBlock p b = .error message →
    includes (blockExecutionFailed message).toLower "does not contain state root" = false

variable {cfg : Config} {vm : VM} {opts : Options} {blocks : List Block} {db : Database}
  {c : Chain} {n s t : ℕ}

theorem eval_getBlockAt_congr {db' : Database} (h : ∀ r, db' (.record r) = db (.record r))
    (hash : Bytes) (n : ℤ) :
    (getBlockAt cfg hash n).eval db' = (getBlockAt cfg hash n).eval db := by
  simp only [getBlockAt, getHeader, Await.eval_bind, eval_lookupHeader, eval_lookupBody, ok_bind,
    Database.header, Database.body, h]
  cases db (.record (.header (asUintN64 n) hash)) with
  | none => rfl
  | some header =>
    dsimp only
    cases cfg.headerDefect header with
    | none =>
      simp only [Await.eval_pure, ok_bind, Await.eval]
      cases (db (.record (.body (asUintN64 n) hash))).elim (emptyBody header) Except.ok with
      | error e => rfl
      | ok body =>
        simp only [ok_bind]
        cases cfg.blockDefect ⟨header, body⟩ <;> rfl
    | some reason => rfl

theorem Stored.of_records {db' : Database} (h : Stored cfg db blocks)
    (hrecords : ∀ r, db' (.record r) = db (.record r)) : Stored cfg db' blocks where
  block n hn := by
    rw [← h.block n hn]
    simp only [getBlockByNumber, Await.eval_bind, eval_numberToHash, ok_bind,
      Database.numberToHash, hrecords]
    cases db (.record (.numberToHash (asUintN64 n))) with
    | none => rfl
    | some hash => simp only [Await.eval_bind, Await.eval_pure, eval_getBlockAt_congr hrecords]
  byHash b hb := by
    rw [← h.byHash b hb]
    simp only [getBlockByHash, DBManager.hashToNumber, Await.eval_bind, eval_lookupNumber, ok_bind,
      Database.hashToNumber, hrecords]
    cases db (.record (.hashToNumber (cfg.hash b.header))) with
    | none => rfl
    | some n => simp only [Await.eval_pure, ok_bind, eval_getBlockAt_congr hrecords]
  number n b hb := by
    rw [← (h.number n b hb).1, Database.hashToNumber, Database.hashToNumber, hrecords]
    exact ⟨rfl, (h.number n b hb).2⟩
  linked := h.linked

theorem Stored.index_eq (h : Stored cfg db blocks) {m : ℕ} {b b' : Block} (hb : blocks[n]? = some b)
    (hb' : blocks[m]? = some b') (hhash : cfg.hash b.header = cfg.hash b'.header) : n = m := by
  have hn := (h.number n b hb).1
  rw [hhash, (h.number m b' hb').1] at hn
  exact (Option.some.inj hn).symm

theorem At.saveHeads (h : At cfg blocks n c) :
    At cfg blocks n { c with db := c.db.batch (createSaveHeadOps c.state) } :=
  ⟨h.stored.of_records fun r => batch_saveHeadOps c.db c.state r, h.vmHead, h.canonicalHead⟩

theorem isNotFound_blockNotFound (n : ℤ) : (ChainError.blockNotFound n).isNotFound = true := by
  have htail : " not found in DB".toList = ' ' :: "not found in DB".toList := by decide
  have hinfix : "not found in DB".toList <:+:
      ("Block number " ++ toString n ++ " not found in DB").toList := by
    simp only [String.toList_append, htail]
    exact ((List.suffix_cons _ _).trans (List.suffix_append _ _)).isInfix
  exact decide_eq_true hinfix

/-! ## The iterator -/

/-- **The iterator has run block `n` last**, and nothing has failed. -/
structure Between (cfg : Config) (blocks : List Block) (n : ℕ) (it : Iterating) (cb : Callback) :
    Prop where
  here : At cfg blocks n it.chain
  next : it.nextBlockNumber = n + 1
  last : ∀ b, it.lastBlock = some b → blocks[n]? = some b
  head : ∀ b, cb.headBlock = some b → blocks[n]? = some b
  noError : cb.errorBlock = none

variable {it : Iterating} {cb : Callback} {p b : Block}

theorem Between.nextToHand (h : Between cfg blocks n it cb) (hp : blocks[n]? = some p)
    (hb : blocks[n + 1]? = some b) :
    (nextToHand cfg "vm" it).eval it.chain.db = .ok ⟨it, b, n + 1, false⟩ := by
  have hlt := (List.getElem?_eq_some_iff.1 hb).1
  have hread := h.here.stored.block (n + 1) (by omega)
  have hreorg : it.reorg cfg b = false := by
    cases hlast : it.lastBlock with
    | none => simp only [Iterating.reorg, hlast]
    | some last =>
      obtain rfl := Option.some.inj ((h.last last hlast).symm.trans hp)
      simp only [Iterating.reorg, hlast, h.here.stored.linked n last b hp hb, ne_eq,
        not_true_eq_false, decide_false]
  simp only [Blockchain.nextToHand, Blockchain.getBlock, h.next, Await.eval_bind, hread, hb,
    ok_bind, Await.eval_pure, hreorg, Bool.false_eq_true, if_false]

theorem Between.nextToHand_end (h : Between cfg blocks n it cb) (hend : n + 1 = blocks.length) :
    (Blockchain.nextToHand cfg "vm" it).eval it.chain.db =
      .error (.blockNotFound ((n + 1 : ℕ) : ℤ)) := by
  have hread := h.here.stored.block (n + 1) (by omega)
  rw [List.getElem?_eq_none (by omega)] at hread
  simp only [Blockchain.nextToHand, Blockchain.getBlock, h.next, Await.eval_bind, hread, ok_bind,
    Await.eval_throw, error_bind]

/-- The parent the callback finds is the block before, so what it does is as that block and this
one run. -/
theorem Between.onBlock (h : Between cfg blocks n it cb) (hp : blocks[n]? = some p)
    (hb : blocks[n + 1]? = some b) :
    (vm.runBlock p b = .ok () →
      VMExecution.onBlock cfg vm it.chain.db b false cb =
        (.ok (), { cb with headBlock := some b })) ∧
    ∀ message, vm.runBlock p b = .error message →
      VMExecution.onBlock cfg vm it.chain.db b false cb =
        (.error (.thrown (blockExecutionFailed message)),
          ⟨some p, if includes message "Invalid executionWitness=null" then none else some b⟩) := by
  have hparent := h.here.stored.byHash p (List.mem_of_getElem? hp)
  rw [← h.here.stored.linked n p b hp hb] at hparent
  cases hhead : cb.headBlock with
  | none =>
    refine ⟨fun hrun => ?_, fun message hrun => ?_⟩ <;>
      simp only [VMExecution.onBlock, hhead, hparent, hrun, h.noError]
  | some head =>
    obtain rfl := Option.some.inj ((h.head head hhead).symm.trans hp)
    refine ⟨fun hrun => ?_, fun message hrun => ?_⟩ <;>
      simp only [VMExecution.onBlock, hhead, hrun, h.noError]

theorem Between.step (h : Between cfg blocks n it cb) (hrun : Executes vm blocks n) :
    ∃ it' cb', Between cfg blocks (n + 1) it' cb' ∧
      it'.blocksRanCounter = it.blocksRanCounter + 1 ∧
      ∀ rest, iterateVm cfg vm (rest + 1) it cb = iterateVm cfg vm rest it' cb' := by
  obtain ⟨p, b, hp, hb, hok⟩ := hrun
  have hlt := (List.getElem?_eq_some_iff.1 hb).1
  have hread := h.here.stored.block (n + 1) (by omega)
  rw [hb] at hread
  -- the block is still the canonical one at its number
  have hreorged : (reorgWhileOnBlock cfg ⟨it, b, n + 1, false⟩).eval it.chain.db = .ok false := by
    simp only [reorgWhileOnBlock, Await.eval_bind, Await.eval_attempt, hread, ok_bind,
      Await.eval_pure, ne_eq, not_true_eq_false, decide_false]
  have hhead : iteratorHead cfg
      ((⟨it, b, n + 1, false⟩ : Handed).after cfg "vm" it.chain false).chain.state "vm" =
        cfg.hash b.header := by
    simp only [Handed.after, Bool.false_eq_true, if_false, iteratorHead, Function.update_self,
      Option.getD_some]
  refine ⟨(⟨it, b, n + 1, false⟩ : Handed).after cfg "vm" it.chain false,
    { cb with headBlock := some b }, ⟨⟨h.here.stored, ⟨b, hb, hhead⟩, h.here.canonicalHead⟩,
    rfl, fun _ hlast => hb.trans hlast, fun _ hhead => hb.trans hhead, h.noError⟩, rfl,
    fun rest => ?_⟩
  simp only [iterateVm, h.nextToHand hp hb, (h.onBlock hp hb).1 hok, hreorged]

theorem Between.steps (h : Between cfg blocks n it cb) (k : ℕ)
    (hrun : ∀ m, n ≤ m → m < n + k → Executes vm blocks m) :
    ∃ it' cb', Between cfg blocks (n + k) it' cb' ∧
      it'.blocksRanCounter = it.blocksRanCounter + k ∧
      ∀ rest, iterateVm cfg vm (rest + k) it cb = iterateVm cfg vm rest it' cb' := by
  induction k with
  | zero => exact ⟨it, cb, h, rfl, fun _ => rfl⟩
  | succ k ih =>
    obtain ⟨it₁, cb₁, h₁, hcount₁, heq₁⟩ := ih fun m hle hlt => hrun m hle (by omega)
    obtain ⟨it₂, cb₂, h₂, hcount₂, heq₂⟩ := h₁.step (hrun (n + k) (by omega) (by omega))
    refine ⟨it₂, cb₂, h₂, by omega, fun rest => ?_⟩
    rw [← heq₂ rest, ← heq₁ (rest + 1)]
    congr 1
    omega

theorem Between.stop_end (h : Between cfg blocks n it cb) (hend : n + 1 = blocks.length)
    (rest : ℕ) :
    iterateVm cfg vm (rest + 1) it cb = (.ok it.blocksRanCounter, it.chain, cb) := by
  simp only [iterateVm, h.nextToHand_end hend, endOn, isNotFound_blockNotFound, if_true]

theorem Between.stop_fails (h : Between cfg blocks n it cb) {message : String}
    (hp : blocks[n]? = some p) (hb : blocks[n + 1]? = some b)
    (hfails : vm.runBlock p b = .error message) (rest : ℕ) :
    iterateVm cfg vm (rest + 1) it cb =
      (endOn it (.thrown (blockExecutionFailed message)), it.chain,
        ⟨some p, if includes message "Invalid executionWitness=null" then none else some b⟩) := by
  simp only [iterateVm, h.nextToHand hp hb, (h.onBlock hp hb).2 message hfails]

/-! ## A batch -/

theorem At.between (h : At cfg blocks n c) :
    Between cfg blocks n ⟨c, iteratorHead cfg c.state "vm", n, n + 1, 0, none⟩ ⟨none, none⟩ :=
  ⟨h, rfl, fun _ => nofun, fun _ => nofun, rfl⟩

/-- **What `iterator` comes to** is what the loop comes to from there, its heads saved. -/
theorem At.vmIterator_eq (h : At cfg blocks n c) :
    vmIterator cfg vm opts c =
      let (result, chain, cb) := iterateVm cfg vm opts.numBlocksPerIteration
        ⟨c, iteratorHead cfg c.state "vm", n, n + 1, 0, none⟩ ⟨none, none⟩
      (result, { chain with db := chain.db.batch (createSaveHeadOps chain.state) }, cb) := by
  obtain ⟨b, hb, hhead⟩ := h.vmHead
  have hnumber : (headBlockNumber (iteratorHead cfg c.state "vm")).eval c.db = .ok n := by
    rw [hhead]
    simp only [headBlockNumber, Await.eval_bind, eval_hashToNumber, ok_bind,
      (h.stored.number n b hb).1, Await.eval_pure]
  simp only [vmIterator, hnumber]

theorem At.batch_full (h : At cfg blocks n c) (startHeadBlock : Block)
    (hrun : ∀ m, n ≤ m → m < n + opts.numBlocksPerIteration → Executes vm blocks m) :
    ∃ chain, batch cfg vm opts startHeadBlock c =
        (.ok (some (opts.numBlocksPerIteration : ℤ)), chain) ∧
      At cfg blocks (n + opts.numBlocksPerIteration) chain := by
  obtain ⟨it', cb', hbetween, hcount, heq⟩ := h.between.steps opts.numBlocksPerIteration hrun
  have hloop := heq 0
  rw [Nat.zero_add] at hloop hcount
  refine ⟨_, ?_, hbetween.here.saveHeads⟩
  simp only [batch, h.vmIterator_eq, hloop, iterateVm, hcount]

theorem At.batch_end (h : At cfg blocks n c) (startHeadBlock : Block) (hle : n ≤ t)
    (hlt : t < n + opts.numBlocksPerIteration)
    (hrun : ∀ m, n ≤ m → m < t → Executes vm blocks m) (hend : t + 1 = blocks.length) :
    ∃ chain, batch cfg vm opts startHeadBlock c = (.ok (some ((t - n : ℕ) : ℤ)), chain) ∧
      At cfg blocks t chain := by
  obtain ⟨it', cb', hbetween, hcount, heq⟩ :=
    h.between.steps (t - n) fun m hm hm' => hrun m hm (by omega)
  rw [show n + (t - n) = t by omega] at hbetween
  have hloop := heq (opts.numBlocksPerIteration - (t - n) - 1 + 1)
  rw [show opts.numBlocksPerIteration - (t - n) - 1 + 1 + (t - n) = opts.numBlocksPerIteration by
    omega, hbetween.stop_end hend, hcount, Nat.zero_add] at hloop
  refine ⟨_, ?_, hbetween.here.saveHeads⟩
  simp only [batch, h.vmIterator_eq, hloop]

/-- After an error that is no state's, what a batch comes to is the block's place after the head. -/
theorem batch_of_errorBlock {startHeadBlock errorBlock : Block} {text : String} {chain : Chain}
    {headBlock : Option Block}
    (hvm : vmIterator cfg vm opts c = (.error (.thrown text), chain, ⟨headBlock, some errorBlock⟩))
    (hstate : includes text.toLower "does not contain state root" = false) :
    batch cfg vm opts startHeadBlock c = (.ok (some
      ((errorBlock.header.number : ℤ) - startHeadBlock.header.number)), chain) := by
  have hno : ¬ (includes text.toLower "does not contain state root" = true ∧
      errorBlock.header.number > 1) := by
    intro h
    have h₁ := h.1
    rw [hstate] at h₁
    cases h₁
  unfold batch
  rw [hvm]
  exact if_neg hno

/-- **A batch that comes to a block that fails** counts it, if its failure is counted; else what
it comes to is no full batch. -/
theorem At.batch_fails (h : At cfg blocks n c) {startHeadBlock : Block}
    (hstart : blocks[n]? = some startHeadBlock) (hstates : StatesPresent vm) (hle : n ≤ t)
    (hlt : t < n + opts.numBlocksPerIteration)
    (hrun : ∀ m, n ≤ m → m < t → Executes vm blocks m) {message : String}
    (hfails : Fails vm blocks t message) :
    ∃ chain r, batch cfg vm opts startHeadBlock c = (.ok r, chain) ∧ At cfg blocks t chain ∧
      (Counted message → r = some ((t + 1 - n : ℕ) : ℤ)) ∧
      (¬ Counted message → r ≠ some (opts.numBlocksPerIteration : ℤ)) := by
  obtain ⟨it', cb', hbetween, hcount, heq⟩ :=
    h.between.steps (t - n) fun m hm hm' => hrun m hm (by omega)
  rw [show n + (t - n) = t by omega] at hbetween
  obtain ⟨p, b, hp, hb, hmessage⟩ := hfails
  have hloop := heq (opts.numBlocksPerIteration - (t - n) - 1 + 1)
  rw [show opts.numBlocksPerIteration - (t - n) - 1 + 1 + (t - n) = opts.numBlocksPerIteration by
    omega, hbetween.stop_fails hp hb hmessage] at hloop
  have hstate := hstates p b message hmessage
  have hnumber := (h.stored.number n _ hstart).2
  have hnumber' := (h.stored.number (t + 1) b hb).2
  have hnotFound : (ChainError.thrown (blockExecutionFailed message)).isNotFound =
    includes (blockExecutionFailed message) "not found in DB" := rfl
  cases hfound : includes (blockExecutionFailed message) "not found in DB" with
  | true =>
    rw [endOn, hnotFound, hfound, if_pos rfl, hcount, Nat.zero_add] at hloop
    refine ⟨_, some ((t - n : ℕ) : ℤ), ?_, hbetween.here.saveHeads, ?_, ?_⟩
    · simp only [batch, h.vmIterator_eq, hloop]
    · rintro ⟨hcounted, -⟩
      rw [hfound] at hcounted
      cases hcounted
    · intro _ hfull
      have := Option.some.inj hfull
      omega
  | false =>
    rw [endOn, hnotFound, hfound, if_neg (by decide)] at hloop
    cases hwitness : includes message "Invalid executionWitness=null" with
    | true =>
      rw [hwitness, if_pos rfl] at hloop
      refine ⟨_, none, ?_, hbetween.here.saveHeads, ?_, ?_⟩
      · simp only [batch, h.vmIterator_eq, hloop]
      · rintro ⟨-, hcounted⟩
        rw [hwitness] at hcounted
        cases hcounted
      · intro _ hfull
        cases hfull
    | false =>
      rw [hwitness, if_neg (by decide)] at hloop
      refine ⟨_, some ((t + 1 - n : ℕ) : ℤ), ?_, hbetween.here.saveHeads, fun _ => rfl,
        fun hcounted => absurd ⟨hfound, hwitness⟩ hcounted⟩
      have hdiff : (b.header.number : ℤ) - startHeadBlock.header.number =
          ((t + 1 - n : ℕ) : ℤ) := by
        omega
      rw [← hdiff]
      have hvm : vmIterator cfg vm opts c = (.error (.thrown (blockExecutionFailed message)),
          { it'.chain with db := it'.chain.db.batch (createSaveHeadOps it'.chain.state) },
          ⟨some p, some b⟩) := by
        rw [h.vmIterator_eq, hloop]
      exact batch_of_errorBlock hvm hstate

/-! ## The loop -/

/-- The flags and options with which `run` runs. -/
def Options.Ready (opts : Options) : Prop :=
  opts.running = false ∧ opts.started = true ∧ opts.execution = true ∧ opts.shutdown = false

/-- **The loop is at block `n`** and has not been told to stop. -/
structure Ready (cfg : Config) (opts : Options) (blocks : List Block) (n : ℕ) (s : Running) :
    Prop where
  here : At cfg blocks n s.chain
  start : blocks[n]? = some s.startHeadBlock
  canonical : blocks[blocks.length - 1]? = some s.canonicalHead
  full : s.numExecuted = none ∨ s.numExecuted = some (some (opts.numBlocksPerIteration : ℤ))

variable {st : Running}

theorem At.heads (h : At cfg blocks n c) : ∃ vmHead canonicalHead,
    getIteratorHead cfg c = .ok vmHead ∧ getCanonicalHeadBlock cfg c = .ok canonicalHead ∧
      blocks[n]? = some vmHead ∧ blocks[blocks.length - 1]? = some canonicalHead := by
  obtain ⟨b, hb, hhead⟩ := h.vmHead
  obtain ⟨b', hb', hhead'⟩ := h.canonicalHead
  refine ⟨b, b', ?_, ?_, hb, hb'⟩
  · rw [getIteratorHead, hhead]
    exact h.stored.byHash b (List.mem_of_getElem? hb)
  · rw [getCanonicalHeadBlock, hhead']
    exact h.stored.byHash b' (List.mem_of_getElem? hb')

theorem Ready.heads_eq_iff (h : Ready cfg opts blocks n st) :
    cfg.hash st.startHeadBlock.header = cfg.hash st.canonicalHead.header ↔
      n + 1 = blocks.length := by
  have hlt := (List.getElem?_eq_some_iff.1 h.start).1
  constructor
  · intro heq
    have := h.here.stored.index_eq h.start h.canonical heq
    omega
  · rintro heq
    have hn : blocks.length - 1 = n := by omega
    have hlast := h.canonical
    rw [hn, h.start] at hlast
    rw [Option.some.inj hlast]

/-- **The loop ends at the end of the chain**, -/
theorem Ready.turn_end (vm : VM) (h : Ready cfg opts blocks n st) (hend : n + 1 = blocks.length) :
    ∃ k, turn cfg vm opts true false st = .inr (.ok k, st.chain) := by
  have hheads := h.heads_eq_iff.2 hend
  exact ⟨_, by simp only [turn, continues, hheads, ne_eq, not_true_eq_false, decide_false,
    Bool.and_false, Bool.false_eq_true, if_false]; rfl⟩

/-- and after a batch that is not full. -/
theorem turn_short (cfg : Config) (vm : VM) {r : Option ℤ} (hexecuted : st.numExecuted = some r)
    (hshort : r ≠ some (opts.numBlocksPerIteration : ℤ)) :
    ∃ k, turn cfg vm opts true false st = .inr (.ok k, st.chain) := by
  refine ⟨(r.getD 0), ?_⟩
  simp [turn, continues, hexecuted, hshort]

theorem Ready.turn_batch (hopts : opts.Ready) (h : Ready cfg opts blocks n st)
    (hend : n + 1 ≠ blocks.length) {r : Option ℤ} {m : ℕ}
    (hbatch : batch cfg vm opts st.startHeadBlock st.chain = (.ok r, c)) (hm : At cfg blocks m c) :
    ∃ st', turn cfg vm opts true false st = .inl st' ∧ st'.chain = c ∧ st'.numExecuted = some r ∧
      (r = some (opts.numBlocksPerIteration : ℤ) → Ready cfg opts blocks m st') := by
  obtain ⟨-, hstarted, -, hshutdown⟩ := hopts
  have hcontinues : continues cfg opts true false st = true := by
    have hheads := mt h.heads_eq_iff.1 hend
    rcases h.full with hfull | hfull <;>
      simp [continues, hstarted, hshutdown, hfull, hheads]
  cases r with
  | none =>
    exact ⟨{ st with chain := c, numExecuted := some none },
      by simp only [turn, hcontinues, if_true, hbatch], rfl, rfl, nofun⟩
  | some k =>
    obtain ⟨vmHead, canonicalHead, hvm, hcanonical, hb, hb'⟩ := hm.heads
    refine ⟨⟨c, vmHead, canonicalHead, some (some k)⟩,
      by simp only [turn, hcontinues, if_true, hbatch, hvm, hcanonical], rfl, rfl, fun hk => ?_⟩
    exact ⟨hm, hb, hb', .inr (by rw [hk])⟩

theorem Ready.turn_full (hopts : opts.Ready) (ht : LastExecuted vm blocks s t)
    (h : Ready cfg opts blocks n st) (hs : s ≤ n) (hend : n + 1 ≠ blocks.length)
    (hle : n + opts.numBlocksPerIteration ≤ t) :
    ∃ st', turn cfg vm opts true false st = .inl st' ∧
      Ready cfg opts blocks (n + opts.numBlocksPerIteration) st' := by
  have hrun : ∀ m, n ≤ m → m < n + opts.numBlocksPerIteration → Executes vm blocks m :=
    fun m hm hm' => ht.executes m (by omega) (by omega)
  obtain ⟨chain, hbatch, hat⟩ := h.here.batch_full st.startHeadBlock hrun
  obtain ⟨st', hturn, -, -, hready⟩ := h.turn_batch hopts hend hbatch hat
  exact ⟨st', hturn, hready rfl⟩

/-- **The batch with the last block** leaves the head there; it looks full if it counts, with
the block that fails, as many. -/
theorem Ready.turn_last (hopts : opts.Ready) (hstates : StatesPresent vm)
    (ht : LastExecuted vm blocks s t) (h : Ready cfg opts blocks n st) (hs : s ≤ n) (hle : n ≤ t)
    (hend : n + 1 ≠ blocks.length) (hlt : t < n + opts.numBlocksPerIteration) :
    ∃ st' r, turn cfg vm opts true false st = .inl st' ∧ At cfg blocks t st'.chain ∧
      st'.numExecuted = some r ∧
      (r = some (opts.numBlocksPerIteration : ℤ) → Ready cfg opts blocks t st') ∧
      (r = some (opts.numBlocksPerIteration : ℤ) ↔
        t + 1 = n + opts.numBlocksPerIteration ∧
          ∃ message, Fails vm blocks t message ∧ Counted message) := by
  have hrun : ∀ m, n ≤ m → m < t → Executes vm blocks m :=
    fun m hm hm' => ht.executes m (by omega) hm'
  rcases ht.stops with hlast | ⟨message, hfails⟩
  · obtain ⟨chain, hbatch, hat⟩ := h.here.batch_end st.startHeadBlock hle hlt hrun hlast
    obtain ⟨st', hturn, rfl, hexecuted, hready⟩ := h.turn_batch hopts hend hbatch hat
    refine ⟨st', _, hturn, hat, hexecuted, hready, ?_⟩
    constructor
    · intro hfull
      have := Option.some.inj hfull
      omega
    · rintro ⟨-, message, ⟨p, b, -, hb, -⟩, -⟩
      have := (List.getElem?_eq_some_iff.1 hb).1
      omega
  · obtain ⟨chain, r, hbatch, hat, hcounted, hnot⟩ :=
      h.here.batch_fails h.start hstates hle hlt hrun hfails
    obtain ⟨st', hturn, rfl, hexecuted, hready⟩ := h.turn_batch hopts hend hbatch hat
    refine ⟨st', r, hturn, hat, hexecuted, hready, ?_⟩
    constructor
    · intro hfull
      by_cases hmessage : Counted message
      · rw [hcounted hmessage] at hfull
        have := Option.some.inj hfull
        exact ⟨by omega, message, hfails, hmessage⟩
      · exact absurd hfull (hnot hmessage)
    · rintro ⟨hcount, message', hfails', hmessage'⟩
      obtain ⟨p, b, hp, hb, hmessage⟩ := hfails
      obtain ⟨p', b', hp', hb', hsame⟩ := hfails'
      obtain rfl := Option.some.inj (hp.symm.trans hp')
      obtain rfl := Option.some.inj (hb.symm.trans hb')
      obtain rfl := Except.error.inj (hmessage.symm.trans hsame)
      rw [hcounted hmessage']
      congr 2
      omega

/-- **What there is to do**: the blocks up to the last that runs, and the turn that ends it. -/
def toDo (opts : Options) (t : ℕ) (st : Running) : ℕ :=
  if st.numExecuted = none ∨ st.numExecuted = some (some (opts.numBlocksPerIteration : ℤ)) then
    t + 1 - st.startHeadBlock.header.number
  else 0

theorem Ready.toDo_eq (h : Ready cfg opts blocks n st) : toDo opts t st = t + 1 - n := by
  rw [toDo, if_pos h.full, (h.here.stored.number n _ h.start).2]

theorem runs_iff (vm : VM) (hopts : opts.Ready) (h : At cfg blocks n c) :
    ∃ st, Ready cfg opts blocks n st ∧ ∀ result,
      Runs cfg vm opts true false c result ↔ Finishes (turn cfg vm opts true false) st result := by
  obtain ⟨vmHead, canonicalHead, hvm, hcanonical, hb, hb'⟩ := h.heads
  obtain ⟨hrunning, hstarted, hexecution, hshutdown⟩ := hopts
  refine ⟨⟨c, vmHead, canonicalHead, none⟩, ⟨h, hb, hb', .inl rfl⟩, fun result => ?_⟩
  simp [Runs, hrunning, hstarted, hexecution, hshutdown, hvm, hcanonical]

/-- **It is catching up** from block `s` to `t`: at a block between, or at `t` after a batch that
is not full. -/
def CatchingUp (cfg : Config) (opts : Options) (blocks : List Block) (s t : ℕ) (st : Running) :
    Prop :=
  (∃ n, s ≤ n ∧ n ≤ t ∧ Ready cfg opts blocks n st) ∨
    At cfg blocks t st.chain ∧ ∃ r, st.numExecuted = some r ∧
      r ≠ some (opts.numBlocksPerIteration : ℤ)

/-- **Each turn of it ends at `t`, or leaves less to do**, where one block is not counted over and
over. -/
theorem CatchingUp.turn (hopts : opts.Ready) (hbatch : 1 ≤ opts.numBlocksPerIteration)
    (hstates : StatesPresent vm) (ht : LastExecuted vm blocks s t)
    (hcond : opts.numBlocksPerIteration = 1 →
      ∀ message, Fails vm blocks t message → ¬ Counted message)
    (h : CatchingUp cfg opts blocks s t st) :
    (∃ result, VMExecution.turn cfg vm opts true false st = .inr result ∧
        ∃ (k : ℤ) (chain : Chain), result = (.ok k, chain) ∧ At cfg blocks t chain) ∨
      ∃ st', VMExecution.turn cfg vm opts true false st = .inl st' ∧
        CatchingUp cfg opts blocks s t st' ∧ toDo opts t st' < toDo opts t st := by
  have htlt := ht.lt_length
  rcases h with ⟨n, hs, hle, hready'⟩ | ⟨hdone, r, hexecuted, hshort⟩
  · rw [hready'.toDo_eq]
    by_cases hend : n + 1 = blocks.length
    · obtain ⟨k, hturn⟩ := hready'.turn_end vm hend
      obtain rfl : n = t := by omega
      exact .inl ⟨_, hturn, k, _, rfl, hready'.here⟩
    rcases Nat.lt_or_ge t (n + opts.numBlocksPerIteration) with hlt | hge
    · obtain ⟨st'', r, hturn, hdone, hexecuted, hfull, hiff'⟩ :=
        hready'.turn_last hopts hstates ht hs hle hend hlt
      refine .inr ⟨st'', hturn, ?_⟩
      by_cases hr : r = some (opts.numBlocksPerIteration : ℤ)
      · obtain ⟨hcount, message, hfails, hcounted⟩ := hiff'.1 hr
        have hne : opts.numBlocksPerIteration ≠ 1 := fun hone => hcond hone message hfails hcounted
        rw [(hfull hr).toDo_eq]
        exact ⟨.inl ⟨t, ht.le, le_refl t, hfull hr⟩, by omega⟩
      · have hstop : toDo opts t st'' = 0 := by simp [toDo, hexecuted, hr]
        exact ⟨.inr ⟨hdone, r, hexecuted, hr⟩, by omega⟩
    · obtain ⟨st'', hturn, hfull⟩ := hready'.turn_full hopts ht hs hend hge
      refine .inr ⟨st'', hturn, .inl ⟨_, by omega, hge, hfull⟩, ?_⟩
      rw [hfull.toDo_eq]
      omega
  · obtain ⟨k, hturn⟩ := turn_short cfg vm hexecuted hshort
    exact .inl ⟨_, hturn, k, _, rfl, hdone⟩

/-- **With batches of one block, a failure that is counted is tried for ever**: the loop comes to
the block that fails, and stays there. -/
theorem not_runs_of_counted (hopts : opts.Ready) (hone : opts.numBlocksPerIteration = 1)
    (hat : At cfg blocks s c) (hstates : StatesPresent vm) (ht : LastExecuted vm blocks s t)
    {message : String} (hfails : Fails vm blocks t message) (hcounted : Counted message)
    (result : Except ChainError ℤ × Chain) : ¬ Runs cfg vm opts true false c result := by
  intro hruns
  have htlt := ht.lt_length
  obtain ⟨st, hready, hiff⟩ := runs_iff vm hopts hat
  refine not_finishes_of_inv (I := fun st => ∃ n, s ≤ n ∧ n ≤ t ∧ Ready cfg opts blocks n st) ?_
    ⟨s, le_refl s, ht.le, hready⟩ ((hiff _).1 hruns)
  rintro st' ⟨n, hs, hle, hready'⟩
  obtain ⟨p, b, -, hb, -⟩ := id hfails
  have hlt := (List.getElem?_eq_some_iff.1 hb).1
  rcases Nat.eq_or_lt_of_le hle with rfl | hlt'
  · obtain ⟨st'', r, hturn, -, -, hfull, hiff'⟩ := hready'.turn_last hopts hstates ht hs
      (le_refl n) (by omega) (by omega)
    exact ⟨st'', hturn, n, hs, le_refl n, hfull (hiff'.2 ⟨by omega, message, hfails, hcounted⟩)⟩
  · obtain ⟨st'', hturn, hfull⟩ := hready'.turn_full hopts ht hs (by omega) (by omega)
    exact ⟨st'', hturn, _, by omega, by omega, hfull⟩

/-- **Catching up**: on every stored chain, with every block the head is at and every block the
last that runs, and with batches of at least one block, `run` ends with the head at that last
block; exactly when the batches are of more, or no block fails there, or none is counted. -/
theorem run_catchesUp_iff (hopts : opts.Ready) (hbatch : 1 ≤ opts.numBlocksPerIteration)
    (hat : At cfg blocks s c) (hstates : StatesPresent vm) (ht : LastExecuted vm blocks s t) :
    (∃ (k : ℤ) (chain : Chain), Runs cfg vm opts true false c (.ok k, chain) ∧
        At cfg blocks t chain) ↔
      (opts.numBlocksPerIteration = 1 →
        ∀ message, Fails vm blocks t message → ¬ Counted message) := by
  constructor
  · rintro ⟨k, chain, hruns, -⟩ hone message hfails hcounted
    exact not_runs_of_counted hopts hone hat hstates ht hfails hcounted _ hruns
  · intro hcond
    obtain ⟨st, hready, hiff⟩ := runs_iff vm hopts hat
    have hcatching : CatchingUp cfg opts blocks s t st := .inl ⟨s, le_refl s, ht.le, hready⟩
    obtain ⟨result, hfinishes, k, chain, rfl, hdone⟩ := finishes_of_measure (toDo opts t)
      (fun st' hst' => CatchingUp.turn hopts hbatch hstates ht hcond hst') hcatching
    exact ⟨k, chain, (hiff _).2 hfinishes, hdone⟩

/-- The genesis, its child and that one's. -/
def sampleBlocks : List Block :=
  [sampleConfig.genesisBlock, (sampleItem (sampleHeader [1] [0] 1 1)).blockToProcess,
    (sampleItem (sampleHeader [2] [1] 2 1)).blockToProcess]

/-- The second block fails. -/
def failingVM : VM where
  runBlock _ block := if block.header.number = 2 then .error "invalid receiptTrie" else .ok ()
  hasStateRoot _ := true

/-- The options, but for the size of a batch. -/
def sampleOptions (numBlocksPerIteration : ℕ) : Options :=
  ⟨false, true, true, false, numBlocksPerIteration⟩

theorem at_iteratedChain : At sampleConfig sampleBlocks 0 (iteratedChain [0]) where
  stored := {
    block := by decide +kernel
    byHash := by decide +kernel
    number := by
      have hall : ∀ n < 3, ∀ b ∈ sampleBlocks[n]?,
          (iteratedChain [0]).db.hashToNumber (sampleConfig.hash b.header) = some n ∧
            b.header.number = n := by decide +kernel
      exact fun n b hb => hall n (List.getElem?_eq_some_iff.1 hb).1 b hb
    linked := by
      have hall : ∀ n < 3, ∀ p ∈ sampleBlocks[n]?, ∀ b ∈ sampleBlocks[n + 1]?,
          b.header.parentHash = sampleConfig.hash p.header := by decide +kernel
      exact fun n p b hp => hall n (List.getElem?_eq_some_iff.1 hp).1 p hp b }
  vmHead := ⟨_, rfl, by decide +kernel⟩
  canonicalHead := ⟨_, rfl, by decide +kernel⟩

theorem statesPresent_failingVM : StatesPresent failingVM := by
  intro p b message hfails
  simp only [failingVM] at hfails
  split at hfails
  · obtain rfl := Except.error.inj hfails
    decide +kernel
  · cases hfails

theorem fails_failingVM : Fails failingVM sampleBlocks 1 "invalid receiptTrie" :=
  ⟨_, _, rfl, rfl, by decide +kernel⟩

theorem lastExecuted_failingVM : LastExecuted failingVM sampleBlocks 0 1 where
  le := by decide
  executes n _ hn := by
    obtain rfl : n = 0 := by omega
    exact ⟨_, _, rfl, rfl, by decide +kernel⟩
  stops := .inr ⟨_, fails_failingVM⟩

theorem run_catchesUp_iff_failingVM : ∃ (k : ℤ) (chain : Chain),
    Runs sampleConfig failingVM (sampleOptions 2) true false (iteratedChain [0]) (.ok k, chain) ∧
      At sampleConfig sampleBlocks 1 chain :=
  (run_catchesUp_iff ⟨rfl, rfl, rfl, rfl⟩ (by decide) at_iteratedChain statesPresent_failingVM
    lastExecuted_failingVM).2 fun htwo => absurd htwo (by decide)

/-- **With batches of one block it runs for ever**, from the genesis of a stored chain the second
block of which fails. -/
theorem run_stuck :
    (sampleOptions 1).Ready ∧ At sampleConfig sampleBlocks 0 (iteratedChain [0]) ∧
      StatesPresent failingVM ∧ LastExecuted failingVM sampleBlocks 0 1 ∧
      ¬ ∃ result,
        Runs sampleConfig failingVM (sampleOptions 1) true false (iteratedChain [0]) result := by
  refine ⟨⟨rfl, rfl, rfl, rfl⟩, at_iteratedChain, statesPresent_failingVM,
    lastExecuted_failingVM, ?_⟩
  rintro ⟨result, hruns⟩
  have hcounted : Counted "invalid receiptTrie" := by decide +kernel
  exact not_runs_of_counted ⟨rfl, rfl, rfl, rfl⟩ rfl at_iteratedChain statesPresent_failingVM
    lastExecuted_failingVM fails_failingVM hcounted result hruns

end TsEthereum.VMExecution
