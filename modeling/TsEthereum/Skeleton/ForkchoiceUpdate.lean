import TsEthereum.Skeleton.Fill

/-!
# Fork choice updates

`forkchoiceUpdate` sets the head, looks up the safe and the finalized block and puts them
below the tail if they fit there, checks their numbers and, where the skeleton comes down to
them, that they are the blocks it has at these numbers; only then it keeps them.
-/

namespace TsEthereum.Skeleton

open TsEthereum

variable {β γ : Type}

def INVALID_PARAMS : ℤ := -32602

def INVALID_FORKCHOICE_STATE : ℤ := -38002

/-- `p.catch(() => {})`. -/
def ignoreErrors (p : Run β γ Unit) : Run β γ Unit := fun s => (.ok (), (p s).2)

/-- What `forkchoiceUpdate` returns. -/
structure Forkchoice (β : Type) where
  reorged : Bool
  safeBlock : Option β
  finalizedBlock : Option β

variable (cfg : Config β γ)

/-- The loop of `getUnfinalizedParentsForBackfill`. -/
def unfinalizedParents (s : State β γ) : ℕ → Bytes → List β
  | 0, _ => []
  | items + 1, next =>
    match getBlockByHash cfg s next with
    | none => []
    | some tailBlock => tailBlock :: unfinalizedParents s items (cfg.parentHash tailBlock)

def getUnfinalizedParentsForBackfill (maxItems : ℕ) (s : State β γ) : List β :=
  match s.status.subchains with
  | [] => []
  | subchain0 :: _ =>
    if s.status.linked then [] else unfinalizedParents cfg s maxItems subchain0.next

def blockingTailBackfillWithCutoff (maxItems : ℕ) : Run β γ Unit := do
  let s ← Action.getState
  let blocks := getUnfinalizedParentsForBackfill cfg maxItems s
  if blocks.isEmpty then pure ()
  else
    let _ ← putBlocks cfg blocks

/-- **`blockingFillWithCutoff`**: a fill that is not near enough is a call of its own. -/
def blockingFillWithCutoff (cutoffLen : ℕ) : Run β γ Unit := fun s =>
  match s.status.subchains with
  | [] => (.ok (), s)
  | subchain0 :: _ =>
    let filledFrom := if s.status.canonicalHeadReset then subchain0.tail else cfg.height s.chain
    if s.status.linked && decide ((subchain0.head : ℤ) - cutoffLen < filledFrom) then
      (.ok (), ((fillCanonicalChain cfg s).map Prod.snd).getD s)
    else (.ok (), s)

/-- **The block a hash names**: of the zero hash the genesis, else the one that is known, the
head or one that is looked up; without a hash the one that is known. -/
def forkchoiceBlock (hash : Option Bytes) (known : Option β) (headBlock : β) (s : State β γ) :
    Option β :=
  match hash with
  | none => some (known.getD cfg.genesis)
  | some hash =>
    if hash = zeroBlockHash then some cfg.genesis
    else if hash = (known.map cfg.hash).getD zeroBlockHash then known
    else if hash = cfg.hash headBlock then some headBlock
    else getBlockByHash cfg s hash

/-- It is put below the tail if it fits there. -/
def putBelowTail (block : β) (subchain0 : Subchain) : Run β γ Unit := do
  let s ← Action.getState
  runIf (!s.status.linked &&
      decide (cfg.number block + 1 = (s.status.subchains.headD subchain0).tail)) do
    let _ ← putBlocks cfg [block]

/-- **The safe block** that is asked for. -/
def readSafeBlock (headBlock : β) (safeBlockHash : Option Bytes) (subchain0 : Subchain) :
    Run β γ (Option β) := do
  let s ← Action.getState
  let safeBlock := forkchoiceBlock cfg safeBlockHash s.safeBlock headBlock s
  match safeBlockHash, safeBlock with
  | some _, some block =>
    if cfg.number block > cfg.number headBlock then
      Action.throw (.coded INVALID_PARAMS ("Invalid safe block=" ++ toString (cfg.number block) ++
        " > headBlock=" ++ toString (cfg.number headBlock)))
    else do
      putBelowTail cfg block subchain0
      pure (some block)
  | _, safeBlock => pure safeBlock

/-- **The finalized block** that is asked for. -/
def readFinalizedBlock (headBlock : β) (finalizedBlockHash : Option Bytes) (safeBlock : Option β)
    (subchain0 : Subchain) : Run β γ (Option β) := do
  let s ← Action.getState
  let finalizedBlock := forkchoiceBlock cfg finalizedBlockHash s.finalizedBlock headBlock s
  match finalizedBlockHash, finalizedBlock with
  | some _, some block =>
    if cfg.number block > cfg.number headBlock ∨
        ∃ safe ∈ safeBlock, cfg.number block > cfg.number safe then
      Action.throw (.coded INVALID_PARAMS ("Invalid finalized block=" ++
        toString (cfg.number block) ++ " > headBlock=" ++ toString (cfg.number headBlock) ++
        " or safeBlock=" ++ (safeBlock.map fun safe => toString (cfg.number safe)).getD "undefined"))
    else do
      putBelowTail cfg block subchain0
      pure (some block)
  | _, finalizedBlock => pure finalizedBlock

/-- **A block is canonical and available**, where the skeleton is linked or comes down to the
number it should be at. -/
def checkCanonical (name : String) (block : Option β) (shouldBeNumber : ℕ) (subchain0 : Subchain) :
    Run β γ Unit := do
  let s ← Action.getState
  if s.status.linked || decide (shouldBeNumber ≥ (s.status.subchains.headD subchain0).tail) then
    match block with
    | none =>
      Action.throw (.coded INVALID_FORKCHOICE_STATE (name ++ " block not available in canonical chain"))
    | some block =>
      match getBlock cfg s (cfg.number block) true with
      | none => Action.throw (.coded INVALID_FORKCHOICE_STATE (name ++ " block not canonical in chain"))
      | some canonicalBlock =>
        if cfg.hash block ≠ cfg.hash canonicalBlock then
          Action.throw (.coded INVALID_FORKCHOICE_STATE (name ++ " block not canonical in chain"))
        else pure ()

/-- `shouldBeFinalizedNumber`: the higher of the known and the new. -/
def shouldBeFinalizedNumber (known finalizedBlock : Option β) : ℕ :=
  max ((known.map cfg.number).getD 0) ((finalizedBlock.map cfg.number).getD 0)

def shouldBeSafeNumber (finalizedNumber : ℕ) (known safeBlock : Option β) : ℕ :=
  max (max finalizedNumber ((known.map cfg.number).getD 0)) ((safeBlock.map cfg.number).getD 0)

/-- **The safe and the finalized block are kept**, once they are checked. -/
def keepForkchoice (safeBlock finalizedBlock : Option β) (subchain0 : Subchain) : Run β γ Unit := do
  let s ← Action.getState
  let finalizedNumber := shouldBeFinalizedNumber cfg s.finalizedBlock finalizedBlock
  let safeNumber := shouldBeSafeNumber cfg finalizedNumber s.safeBlock safeBlock
  checkCanonical cfg "safe" safeBlock safeNumber subchain0
  checkCanonical cfg "finalized" finalizedBlock finalizedNumber subchain0
  Action.modify fun s =>
    { s with
      safeBlock := safeBlock <|> s.safeBlock
      finalizedBlock := finalizedBlock <|> s.finalizedBlock }

/-- **The head is set**, and the tail filled in with blocks that are known if it is no longer
linked. -/
def setForkchoiceHead (headBlock : β) : Run β γ Bool := do
  let s ← Action.getState
  let reorged ← setHead cfg headBlock true false false
  let s' ← Action.getState
  runIf (reorged && s.status.linked && !s'.status.linked)
    (ignoreErrors (blockingTailBackfillWithCutoff cfg cfg.engineParentLookupMaxDepth))
  pure reorged

/-- What is looked up before it is checked. -/
structure Lookup (β : Type) where
  reorged : Bool
  subchain0 : Subchain
  safeBlock : Option β
  finalizedBlock : Option β

/-- **The head is set and the blocks looked up**: `forkchoiceUpdate` up to its checks. -/
def lookupForkchoice (headBlock : β) (safeBlockHash finalizedBlockHash : Option Bytes) :
    Run β γ (Lookup β) := do
  let reorged ← setForkchoiceHead cfg headBlock
  let s ← Action.getState
  match s.status.subchains with
  | [] =>
    Action.throw (.error "subchain0 should have been set as a result of skeleton setHead")
  | subchain0 :: _ => do
    let safeBlock ← readSafeBlock cfg headBlock safeBlockHash subchain0
    let finalizedBlock ← readFinalizedBlock cfg headBlock finalizedBlockHash safeBlock subchain0
    pure ⟨reorged, subchain0, safeBlock, finalizedBlock⟩

/-- **`forkchoiceUpdate`**. -/
def forkchoiceUpdate (headBlock : β) (safeBlockHash finalizedBlockHash : Option Bytes) :
    Run β γ (Forkchoice β) := do
  let found ← lookupForkchoice cfg headBlock safeBlockHash finalizedBlockHash
  keepForkchoice cfg found.safeBlock found.finalizedBlock found.subchain0
  blockingFillWithCutoff cfg cfg.engineParentLookupMaxDepth
  let s ← Action.getState
  pure ⟨found.reorged, s.safeBlock, s.finalizedBlock⟩

end TsEthereum.Skeleton
