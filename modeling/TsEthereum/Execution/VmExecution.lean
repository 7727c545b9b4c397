import TsEthereum.Blockchain.Iterator
import TsEthereum.Common.Loop
import TsEthereum.Common.Text

/-!
# Running the chain through the VM

`VMExecution.run`: the loop that hands batch after batch of the canonical chain to the
iterator named `vm`, whose callback runs the blocks. `runBlock` is a parameter, of a block
and its parent, at whose state root it runs; the blockchain and its iterator are those of
`Blockchain/Iterator.lean` (`iterateVm_eq_iterate`), with no puts while they run.

Left out is what does not bear on the head: receipts, statistics and logs, `chainStatus`
and the state root that `checkAndReset` goes back to, and `Chain.update`.
-/

namespace TsEthereum.VMExecution

open TsEthereum TsEthereum.Blockchain

/-- The message of the error `run` rethrows. -/
def blockExecutionFailed (message : String) : String := "Block execution failed: " ++ message

/-- **The VM**: `runBlock` of a parent and a block, and `hasStateRoot` of a block's state
root. -/
structure VM where
  runBlock : Block → Block → Except String Unit
  hasStateRoot : Block → Bool

/-- The options and flags `run` reads. -/
structure Options where
  running : Bool
  started : Bool
  execution : Bool
  shutdown : Bool
  numBlocksPerIteration : ℕ

/-- The variables of `run` that the callback sets. -/
structure Callback where
  headBlock : Option Block
  errorBlock : Option Block

section

variable (cfg : Config) (vm : VM) (opts : Options)

/-- **The callback**: the parent is fetched at the start and after a reorg, else it is the
last block. A block that fails is remembered, unless what it lacks is a witness. -/
def onBlock (db : Database) (block : Block) (reorg : Bool) (cb : Callback) :
    Except ChainError Unit × Callback :=
  let parent : Except ChainError Block :=
    match cb.headBlock, reorg with
    | some headBlock, false => .ok headBlock
    | _, _ => (getBlockByHash cfg block.header.parentHash).eval db
  match parent with
  | .error e => (.error e, cb)
  | .ok parent =>
    match vm.runBlock parent block with
    | .ok () => (.ok (), { cb with headBlock := some block })
    | .error message =>
      (.error (.thrown (blockExecutionFailed message)),
        { headBlock := some parent
          errorBlock :=
            if includes message "Invalid executionWitness=null" then cb.errorBlock
            else some block })

/-- **The iterator's loop** with this callback, for so many blocks more. -/
def iterateVm : ℕ → Iterating → Callback → Except ChainError ℕ × Chain × Callback
  | 0, it, cb => (.ok it.blocksRanCounter, it.chain, cb)
  | blocks + 1, it, cb =>
    match (nextToHand cfg "vm" it).eval it.chain.db with
    | .error e => (endOn it e, it.chain, cb)
    | .ok h =>
      match onBlock cfg vm it.chain.db h.nextBlock h.reorg cb with
      | (.error e, cb) => (endOn it e, it.chain, cb)
      | (.ok (), cb) =>
        match (reorgWhileOnBlock cfg h).eval it.chain.db with
        | .error e => (endOn it e, it.chain, cb)
        | .ok reorged => iterateVm blocks (h.after cfg "vm" it.chain reorged) cb

/-- **`iterator('vm', …)`**, for so many blocks. -/
def vmIterator (c : Chain) : Except ChainError ℕ × Chain × Callback :=
  let headHash := iteratorHead cfg c.state "vm"
  match (headBlockNumber headHash).eval c.db with
  | .error e => (.error e, c, ⟨none, none⟩)
  | .ok number =>
    let (result, chain, cb) := iterateVm cfg vm opts.numBlocksPerIteration
      ⟨c, headHash, number, number + 1, 0, none⟩ ⟨none, none⟩
    (result, { chain with db := chain.db.batch (createSaveHeadOps chain.state) }, cb)

/-- **What the iterator's promise comes to**, once its error is caught: a number, `null`,
or what the handler throws. The number after an error is that of the blocks from the head
to the one that failed. -/
def batch (startHeadBlock : Block) (c : Chain) : Except ChainError (Option ℤ) × Chain :=
  match vmIterator cfg vm opts c with
  | (.ok n, chain, _) => (.ok (some n), chain)
  | (.error e, chain, cb) =>
    match cb.errorBlock with
    | none => (.ok none, chain)
    | some errorBlock =>
      let actualExecuted := (errorBlock.header.number : ℤ) - startHeadBlock.header.number
      if includes e.message.toLower "does not contain state root" ∧
          errorBlock.header.number > 1 then
        match cb.headBlock with
        | some headBlock =>
          if vm.hasStateRoot headBlock then
            match setIteratorHead (plain fun _ => .ok ()) "vm" headBlock.header.parentHash
              chain with
            | (.ok (), chain) => (.ok (some actualExecuted), chain)
            | (.error e, chain) => (.error e, chain)
          else (.ok (some actualExecuted), chain)
        | none => (.ok (some actualExecuted), chain)
      else (.ok (some actualExecuted), chain)

def getIteratorHead (c : Chain) : Except ChainError Block :=
  (getBlockByHash cfg (iteratorHead cfg c.state "vm")).eval c.db

def getCanonicalHeadBlock (c : Chain) : Except ChainError Block :=
  (getBlockByHash cfg c.state.headBlockHash).eval c.db

/-- The variables of `run`: `numExecuted` is `undefined` at the start, and `null` or a
number then. -/
structure Running where
  chain : Chain
  startHeadBlock : Block
  canonicalHead : Block
  numExecuted : Option (Option ℤ)

/-- **The condition of the `while`.** -/
def continues (loop runOnlyBatched : Bool) (s : Running) : Bool :=
  opts.started && !opts.shutdown &&
    (!runOnlyBatched ||
      decide ((s.canonicalHead.header.number : ℤ) - s.startHeadBlock.header.number ≥
        (opts.numBlocksPerIteration : ℤ))) &&
    (s.numExecuted = none ||
      (loop && s.numExecuted = some (some (opts.numBlocksPerIteration : ℤ)))) &&
    decide (cfg.hash s.startHeadBlock.header ≠ cfg.hash s.canonicalHead.header)

/-- **A turn of it.** -/
def turn (loop runOnlyBatched : Bool) (s : Running) :
    Running ⊕ (Except ChainError ℤ × Chain) :=
  if continues cfg opts loop runOnlyBatched s then
    match batch cfg vm opts s.startHeadBlock s.chain with
    | (.error e, chain) => .inr (.error e, chain)
    | (.ok none, chain) => .inl { s with chain := chain, numExecuted := some none }
    | (.ok (some n), chain) =>
      match getIteratorHead cfg chain, getCanonicalHeadBlock cfg chain with
      | .ok endHeadBlock, .ok canonicalHead =>
        .inl ⟨chain, endHeadBlock, canonicalHead, some (some n)⟩
      | .error e, _ | _, .error e => .inr (.error e, chain)
  else .inr (.ok ((s.numExecuted.getD none).getD 0), s.chain)

/-- **`run`** comes to a result, and leaves a chain. -/
def Runs (loop runOnlyBatched : Bool) (c : Chain) (result : Except ChainError ℤ × Chain) : Prop :=
  if opts.running ∨ ¬ opts.started ∨ ¬ opts.execution ∨ opts.shutdown then result = (.ok 0, c)
  else
    match getIteratorHead cfg c, getCanonicalHeadBlock cfg c with
    | .ok startHeadBlock, .ok canonicalHead =>
      Finishes (turn cfg vm opts loop runOnlyBatched) ⟨c, startHeadBlock, canonicalHead, none⟩ result
    | .error e, _ | _, .error e => result = (.error e, c)

end

variable {cfg : Config} {vm : VM}

/-- **The loop is the iterator's**, with a callback for each block and nothing put in it. -/
theorem iterateVm_eq_iterate (blocks : ℕ) (it : Iterating) (cb : Callback) :
    ∃ rounds : List Round, (∀ round ∈ rounds, round.puts = []) ∧
      (iterate cfg "vm" (some ((it.blocksRanCounter + blocks : ℕ) : ℤ)) rounds it).ended =
        some (iterateVm cfg vm blocks it cb).1 ∧
      (iterate cfg "vm" (some ((it.blocksRanCounter + blocks : ℕ) : ℤ)) rounds it).chain =
        (iterateVm cfg vm blocks it cb).2.1 := by
  induction blocks generalizing it cb with
  | zero =>
    refine ⟨[], nofun, ?_, ?_⟩ <;> simp [iterate, iterateVm]
  | succ blocks ih =>
    have hmore : ¬ some ((it.blocksRanCounter + (blocks + 1) : ℕ) : ℤ) =
        some (it.blocksRanCounter : ℤ) := by
      intro heq
      have := Option.some.inj heq
      omega
    cases hnext : (nextToHand cfg "vm" it).eval it.chain.db with
    | error e =>
      refine ⟨[], nofun, ?_, ?_⟩ <;> simp only [iterate, iterateVm, hmore, if_false, hnext]
    | ok h =>
      cases hblock : onBlock cfg vm it.chain.db h.nextBlock h.reorg cb with
      | mk result cb' =>
        cases result with
        | error e =>
          refine ⟨[⟨[], .error e⟩], by simp, ?_, ?_⟩ <;>
            simp only [iterate, iterateVm, hmore, if_false, hnext, hblock, List.foldl_nil]
        | ok u =>
          cases hreorged : (reorgWhileOnBlock cfg h).eval it.chain.db with
          | error e =>
            refine ⟨[⟨[], .ok ()⟩], by simp, ?_, ?_⟩ <;>
              simp only [iterate, iterateVm, hmore, if_false, hnext, hblock, List.foldl_nil,
                hreorged]
          | ok reorged =>
            obtain ⟨rounds, hputs, hended, hchain⟩ := ih (h.after cfg "vm" it.chain reorged) cb'
            have hcount : (h.after cfg "vm" it.chain reorged).blocksRanCounter + blocks =
                it.blocksRanCounter + (blocks + 1) := by
              have hbefore := (nextToHand_ok hnext).1
              cases reorged <;> simp [Handed.after, hbefore] <;> omega
            rw [hcount] at hended hchain
            refine ⟨⟨[], .ok ()⟩ :: rounds, ?_, ?_, ?_⟩
            · intro round hround
              rcases List.mem_cons.1 hround with rfl | hround
              · rfl
              · exact hputs round hround
            · rw [iterate, if_neg hmore]
              simp only [iterateVm, hnext, hblock, List.foldl_nil, hreorged, hended]
            · rw [iterate, if_neg hmore]
              simp only [iterateVm, hnext, hblock, List.foldl_nil, hreorged, hchain]

end TsEthereum.VMExecution
