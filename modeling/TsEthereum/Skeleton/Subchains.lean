import TsEthereum.Skeleton.Records

/-!
# Heads and subchains

The head comes from the beacon client (`setHead`), the blocks below it backwards from peers
(`putBlocks`). What is contiguous is a subchain; the first is the one the head is on, the
others are what earlier heads left, to be merged when the first comes down to them
(`trySubChainsMerge`). The skeleton is linked when the first comes down to the chain
(`checkLinked`).
-/

namespace TsEthereum.Skeleton

open TsEthereum
open TsEthereum.Blockchain (bigIntToBytes ofBigEndian_bigIntToBytes)

variable {β γ : Type}

def errSyncReorged : SkeletonError := .error "sync reorged"

def errReorgDenied : SkeletonError := .error "non-forced head reorg denied"

def errSyncMerged : SkeletonError := .error "sync merged"

/-- What a read of a property of `undefined` throws. -/
def errUndefined : SkeletonError := .error "Cannot read properties of undefined"

/-- `this.status.progress.subchains = …`. -/
def Status.setSubchains (status : Status) (subchains : List Subchain) : Status :=
  { status with subchains := subchains }

/-- An update of `this.status`. -/
def setStatus (f : Status → Status) : Run β γ Unit := Action.modify fun s => s.setStatus f

/-- `this.status.linked = …`. -/
def setLinked (linked : Bool) : Run β γ Unit := setStatus fun status => { status with linked := linked }

/-- `this.status.canonicalHeadReset = …`. -/
def setCanonicalHeadReset (canonicalHeadReset : Bool) : Run β γ Unit :=
  setStatus fun status => { status with canonicalHeadReset := canonicalHeadReset }

/-- `if (c) { p }`. -/
def runIf (c : Bool) (p : Run β γ Unit) : Run β γ Unit := if c then p else pure ()

/-- An update of subchain 0. -/
def setSubchain0 (f : Subchain → Subchain) : Run β γ Unit :=
  setStatus fun status => status.setSubchains (status.subchains.modifyHead f)

/-- A subchain of one block. -/
def subchainOf (cfg : Config β γ) (block : β) : Subchain :=
  ⟨cfg.number block, cfg.number block, cfg.parentHash block⟩

section

variable (cfg : Config β γ)

/-- **`checkLinked`**: the other subchains are dropped once the first is linked with the chain. -/
def checkLinked : Run β γ Bool := do
  let s ← Action.getState
  match s.status.subchains with
  | [] => pure false
  | ⟨_, tail, next⟩ :: rest =>
    if tail = 0 then pure true
    else if tail ≤ cfg.height s.chain + 1 then
      match cfg.getBlock s.chain (tail - 1) with
      | .error message => Action.throw (.chain message)
      | .ok nextBlock =>
        let linked := decide (next = cfg.hash nextBlock)
        runIf (linked && !rest.isEmpty) do
          setStatus fun status => status.setSubchains (status.subchains.take 1)
          Action.modify writeSyncStatus
        pure linked
    else pure false

/-- `this.status.linked = await this.checkLinked()`. -/
def updateLinked : Run β γ Unit := do
  let linked ← checkLinked cfg
  setLinked linked

/-- The loop of `fastForwardHead`, for so many blocks more. -/
def forwardFrom (s : State β γ) : ℕ → β → ℕ → β
  | 0, headBlock, _ => headBlock
  | blocks + 1, headBlock, newHead =>
    match getBlock cfg s newHead true with
    | none => headBlock
    | some newBlock =>
      if cfg.parentHash newBlock = cfg.hash headBlock then
        forwardFrom s blocks newBlock (newHead + 1)
      else headBlock

/-- **`fastForwardHead`** of subchain 0: to the last block that follows, up to a number. -/
def fastForwardHead (target : ℕ) : Run β γ Unit := do
  let s ← Action.getState
  match s.status.subchains with
  | [] => pure ()
  | lastchain :: _ =>
    match getBlock cfg s lastchain.head true with
    | none => pure ()
    | some headBlock =>
      let headBlock := forwardFrom cfg s (target - lastchain.head) headBlock (lastchain.head + 1)
      setSubchain0 fun lastchain => { lastchain with head := cfg.number headBlock }

/-- The end of `processNewHead`: the parent is looked up, and the head put on it. -/
def extendHead (head : β) (force : Bool) : Run β γ Bool := do
  let s ← Action.getState
  match getBlock cfg s (cfg.number head - 1) false with
  | none => pure true
  | some parent =>
    if cfg.hash parent ≠ cfg.parentHash head then pure true
    else do
      runIf force (setSubchain0 fun lastchain => { lastchain with head := cfg.number head })
      pure false

/-- **`processNewHead`**: whether the head makes for a reorg. -/
def processNewHead (head : β) (force : Bool) : Run β γ Bool := do
  let number := cfg.number head
  if number = 0 then
    if cfg.hash cfg.genesis ≠ cfg.hash head then
      Action.throw (.error ("Invalid genesis setHead announcement number=" ++ toString number ++
        " hash=" ++ short (cfg.hash head) ++ " genesisHash=" ++ short (cfg.hash cfg.genesis)))
    else do
      setLinked true
      setCanonicalHeadReset false
      pure false
  else do
    let s ← Action.getState
    match s.status.subchains with
    | [] => Action.throw (.error "No subchain to processNewHead")
    | lastchain :: _ =>
      if lastchain.tail > number then do
        runIf force (setSubchain0 fun _ => subchainOf cfg head)
        pure true
      else if lastchain.head ≥ number then
        match getBlock cfg s number false with
        | some mayBeDupBlock => pure (decide (cfg.hash mayBeDupBlock ≠ cfg.hash head))
        | none => pure true
      else if lastchain.head + 1 < number then
        if force then do
          fastForwardHead cfg (number - 1)
          let s ← Action.getState
          match s.status.subchains with
          | [] => pure true
          | lastchain :: _ =>
            if lastchain.head + 1 < number then pure true else extendHead cfg head force
        else pure true
      else extendHead cfg head force

/-- Subchain 0 is cut off above the chain, before another is put on top of it. -/
def truncateSubchain0 : Run β γ Unit := do
  let s ← Action.getState
  match s.status.subchains with
  | [] => pure ()
  | subchain :: rest =>
    if s.status.linked && !s.status.canonicalHeadReset &&
        decide (cfg.height s.chain ≥ subchain.tail) then
      let truncateTailToNumber := cfg.height s.chain + 1
      let truncateTailTo :=
        if truncateTailToNumber ≤ subchain.head then getBlock cfg s truncateTailToNumber true
        else none
      match truncateTailTo with
      | some block =>
        setSubchain0 fun subchain =>
          { subchain with tail := cfg.number block, next := cfg.parentHash block }
      | none => setStatus fun status => status.setSubchains rest

/-- **A new subchain** is put on top. -/
def overlaySubchain (head : β) (subchain0Head : ℕ) : Run β γ Unit := do
  truncateSubchain0 cfg
  setStatus fun status =>
    let subchains := if subchain0Head = 0 then [] else status.subchains
    { status.setSubchains (subchainOf cfg head :: subchains) with
      canonicalHeadReset := decide (cfg.number head > 0) }

/-- **The head of subchain 0 is moved**, and it is cut off above the chain. -/
def moveHead (head : β) : Run β γ Unit := do
  setSubchain0 fun subchain => { subchain with head := cfg.number head }
  let s ← Action.getState
  match s.status.subchains with
  | [] => pure ()
  | subchain :: _ =>
    if s.status.linked && !s.status.canonicalHeadReset &&
        decide (cfg.height s.chain ≥ subchain.tail) then
      let truncateTailToNumber := cfg.height s.chain + 1
      let truncateTailTo :=
        if truncateTailToNumber < cfg.number head then getBlock cfg s truncateTailToNumber true
        else none
      match truncateTailTo with
      | none => do
        setSubchain0 fun subchain =>
          { subchain with tail := cfg.number head, next := cfg.parentHash head }
        setCanonicalHeadReset true
      | some block =>
        setSubchain0 fun subchain =>
          { subchain with tail := cfg.number block, next := cfg.parentHash block }

/-- Whether the head is put on subchain 0: its parent is a block of the skeleton, not below the
tail. -/
def parentInSubchain (head : β) (s : State β γ) : Bool :=
  match s.status.subchains.head?, getBlock cfg s (cfg.number head - 1) true with
  | some subchain, some parent =>
    decide (cfg.hash parent = cfg.parentHash head) && decide (cfg.number parent ≥ subchain.tail)
  | _, _ => false

/-- **What a forced reorg does.** -/
def reorgTo (head : β) (subchain0Head : ℕ) : Run β γ Unit := do
  let s ← Action.getState
  if parentInSubchain cfg head s then moveHead cfg head
  else overlaySubchain cfg head subchain0Head
  Action.modify fun s =>
    if s.status.canonicalHeadReset || !s.status.linked then { s with fillStatus := none } else s

/-! ## Merging -/

/-- What the merging of subchains comes to. -/
structure Merging where
  subchain0 : Subchain
  others : List Subchain
  merged : Bool
  edited : Bool

/-- **The loop of `trySubChainsMerge`**, over the subchains after the first. -/
def mergeSubchains (s : State β γ) (subchain0 : Subchain) (merged edited : Bool) :
    List Subchain → Merging
  | [] => ⟨subchain0, [], merged, edited⟩
  | subchain1 :: rest =>
    if subchain1.head ≥ subchain0.tail then
      if subchain1.tail ≥ subchain0.tail then
        -- fully overwritten
        mergeSubchains s subchain0 merged true rest
      else
        let trimmed := { subchain1 with head := subchain0.tail - 1 }
        match getBlock cfg s trimmed.head true, getBlock cfg s trimmed.tail true with
        | some subChain1Head, some subChain1Tail =>
          if cfg.parentHash subChain1Tail ≠ trimmed.next then ⟨subchain0, [], merged, true⟩
          else if cfg.hash subChain1Head = subchain0.next then
            if subchain1.head - subchain1.tail > cfg.skeletonSubchainMergeMinimum then
              mergeSubchains s { subchain0 with tail := subchain1.tail, next := subchain1.next }
                true true rest
            else mergeSubchains s subchain0 merged true rest
          else ⟨subchain0, trimmed :: rest, merged, true⟩
        | _, _ => ⟨subchain0, [], merged, true⟩
    else ⟨subchain0, subchain1 :: rest, merged, edited⟩

/-- **`trySubChainsMerge`**. -/
def trySubChainsMerge : Run β γ Bool := do
  let s ← Action.getState
  match s.status.subchains with
  | [] => pure false
  | subchain0 :: rest =>
    let merging := mergeSubchains cfg s subchain0 false false rest
    setStatus fun status => status.setSubchains (merging.subchain0 :: merging.others)
    runIf merging.edited (Action.modify writeSyncStatus)
    pure merging.merged

/-! ## The calls -/

/-- **The subchains are set up**, with the head of the chain, if there are none: the head of
subchain 0. -/
def initSubchains : Run β γ ℕ := do
  let s ← Action.getState
  match s.status.subchains with
  | lastchain :: _ => pure lastchain.head
  | [] => do
    let next := ((cfg.latest s.chain).map cfg.parentHash).getD zeroBlockHash
    setStatus fun status =>
      { status.setSubchains [⟨cfg.height s.chain, cfg.height s.chain, next⟩] with
        linked := true, canonicalHeadReset := false }
    pure (cfg.height s.chain)

/-- What `setHead` does once it knows whether there is a reorg. -/
def takeHead (head : β) (force init : Bool) (subchain0Head : ℕ) (reorg : Bool) : Run β γ Unit := do
  runIf (force && reorg) (reorgTo cfg head subchain0Head)
  Action.modify (putBlock cfg head (!force && decide (cfg.number head ≤ subchain0Head)))
  runIf init do
    let _ ← trySubChainsMerge cfg
  runIf ((force && reorg) || init) (updateLinked cfg)
  runIf (force || init) (Action.modify writeSyncStatus)

/-- **`setHead`**. The fill that it starts with `init` is a call of its own. -/
def setHead (head : β) (force init reorgThrow : Bool) : Run β γ Bool := do
  let s ← Action.getState
  if !s.started then Action.throw (.error "skeleton setHead called before being opened")
  else do
    let subchain0Head ← initSubchains cfg
    let reorg ← processNewHead cfg head force
    takeHead cfg head force init subchain0Head reorg
    if reorg && reorgThrow then Action.throw (if force then errSyncReorged else errReorgDenied)
    else pure reorg

/-- **`initSync`**. -/
def initSync (head : β) (reorgThrow : Bool) : Run β γ Bool := setHead cfg head true true reorgThrow

/-- What `putBlocks` does once it has extended subchain 0, or not: it merges, and looks
whether it is linked. -/
def mergeAndLink (tailUpdated : Bool) : Run β γ Bool := do
  let merged ← trySubChainsMerge cfg
  if tailUpdated || merged then do
    setCanonicalHeadReset true
    Action.modify fun s => { s with fillStatus := none }
    let s ← Action.getState
    match s.status.subchains with
    | [] => Action.throw errUndefined
    | subchain0 :: _ =>
      runIf (decide (subchain0.tail ≤ cfg.height s.chain + 1)) (updateLinked cfg)
      pure merged
  else pure merged

/-- **The loop of `putBlocks`**: whether it merged. -/
def putEach (tailUpdated : Bool) : List β → Run β γ Bool
  | [] => pure false
  | block :: blocks => do
    let s ← Action.getState
    match s.status.subchains with
    | [] => Action.throw errUndefined
    | subchain0 :: _ =>
      let number := cfg.number block
      if number ≥ subchain0.tail then putEach tailUpdated blocks
      else if number = 0 then
        if cfg.hash cfg.genesis ≠ cfg.hash block then
          Action.throw (.error ("Skeleton pubBlocks with invalid genesis block number=" ++
            toString number ++ " hash=" ++ short (cfg.hash block) ++ " genesisHash=" ++
            short (cfg.hash cfg.genesis)))
        else putEach tailUpdated blocks
      else if subchain0.next = cfg.hash block then do
        Action.modify (putBlock cfg block false)
        setSubchain0 fun subchain0 =>
          { subchain0 with tail := number, next := cfg.parentHash block }
        let merged ← mergeAndLink cfg true
        let s ← Action.getState
        if merged || s.status.linked then pure merged else putEach true blocks
      else Action.throw (.error "Blocks don't extend canonical subchain")

/-- **`putBlocks`**: the number of blocks, unless it merged. The fill it starts is a call of
its own. -/
def putBlocks (blocks : List β) : Run β γ ℕ := do
  let s ← Action.getState
  if s.status.subchains.isEmpty then Action.throw (.error "Skeleton no subchain set for sync")
  else if s.status.linked then Action.throw (.error "Chain already linked")
  else do
    let merged ← putEach cfg false blocks
    Action.modify writeSyncStatus
    if merged then Action.throw errSyncMerged else pure blocks.length

/-! ## Going back -/

/-- The loop of `backStep`, for so many turns: the first block that is found at a distance, or
the number past the head. -/
def stepBack (s : State β γ) (head : ℕ) : ℕ → ℕ → ℕ × Option β
  | 0, newTail => (newTail, getBlock cfg s newTail true)
  | turns + 1, newTail =>
    let newTail := newTail + cfg.skeletonFillCanonicalBackStep
    let tailBlock := getBlock cfg s newTail true
    if tailBlock.isNone && decide (newTail ≤ head) then stepBack s head turns newTail
    else (newTail, tailBlock)

/-- The block that `backStep` goes to, and the number it is looked for at: of the head, if the
loop went past that. -/
def backStepTarget (s : State β γ) (head tail fromBlock : ℕ) : ℕ × Option β :=
  let stepped := stepBack cfg s head (head + 1) (max tail fromBlock)
  if stepped.1 > head then (head, getBlock cfg s head true) else stepped

/-- The `try` of `backStep`. -/
def stepSubchain0Back (fromBlock : ℕ) : Run β γ (Option ℕ) := do
  if cfg.skeletonFillCanonicalBackStep = 0 then pure none
  else do
    let s ← Action.getState
    match s.status.subchains with
    | [] => Action.throw errUndefined
    | ⟨head, tail, _⟩ :: _ =>
      match backStepTarget cfg s head tail fromBlock with
      | (newTail + 1, some tailBlock) => do
        setSubchain0 fun subchain0 =>
          { subchain0 with tail := cfg.number tailBlock, next := cfg.parentHash tailBlock }
        Action.modify writeSyncStatus
        pure (some (newTail + 1))
      | _ => do
        setStatus fun status => status.setSubchains []
        Action.modify writeSyncStatus
        pure none

/-- The `finally` of `backStep`. -/
def markReset : Run β γ Unit := do
  setCanonicalHeadReset true
  updateLinked cfg

/-- **`backStep`**: the tail of subchain 0 is moved up to a block that is there. What the
`finally` throws is thrown, else what the `try` did. -/
def backStep (fromBlock : ℕ) : Run β γ (Option ℕ) := fun s =>
  match stepSubchain0Back cfg fromBlock s with
  | (result, s) =>
    match markReset cfg s with
    | (.error e, s) => (.error e, s)
    | (.ok (), s) => (result, s)

end

/-! ## A small chain -/

/-- A block of a branch: branch 0 starts at the genesis, and each other one on it below the number
it is called by. -/
structure SampleBlock where
  number : UInt8
  branch : UInt8
  deriving DecidableEq

/-- The hash says which block it is, and so does the RLP; the chain is a list of blocks. -/
def sampleConfig : Config SampleBlock (List SampleBlock) where
  hash block := [block.number, block.branch]
  number block := block.number.toNat
  parentHash block :=
    [block.number - 1, if block.number = block.branch then 0 else block.branch]
  hardfork _ := "cancun"
  serialize block := [block.number, block.branch]
  createBlockFromRLP
    | [number, branch] => some ⟨number, branch⟩
    | _ => none
  genesis := ⟨0, 0⟩
  height chain := chain.length - 1
  latest chain := chain.getLast?
  getBlock chain number := chain[number]?.elim (.error "Block not found in DB") .ok
  getBlockByHash chain hash :=
    (chain.find? fun block => [block.number, block.branch] = hash).elim
      (.error "Block not found in DB") .ok
  putBlocks chain block :=
    if block.number.toNat = chain.length then (.ok 1, chain ++ [block])
    else (.error "Error: invalid number", chain)
  resetCanonicalHead chain number := (.ok (), chain.take (number + 1))
  skeletonFillCanonicalBackStep := 100
  skeletonSubchainMergeMinimum := 1000
  engineParentLookupMaxDepth := 128

/-- An opened skeleton with nothing in it, over the genesis. -/
def sampleState : State SampleBlock (List SampleBlock) :=
  { State.create (fun _ => none) [⟨0, 0⟩] with started := true }

end TsEthereum.Skeleton
