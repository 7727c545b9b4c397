import TsEthereum.Common.Loop
import TsEthereum.Common.Text
import TsEthereum.Skeleton.Subchains

/-!
# Filling the canonical chain

`fillCanonicalChain` puts the blocks of subchain 0 into the chain, one by one from the
chain's head, and deletes those that are in it from the skeleton. What `putBlocks` and
`resetCanonicalHead` of the chain throw comes as the text that the source makes of it.
What is fetched of the chain for the log only, after a failure, is left out, and so is
`skipUpdateEmit`.
-/

namespace TsEthereum.Skeleton

open TsEthereum

variable {β γ : Type} (cfg : Config β γ)

/-- The error that is taken for a block that is not there. -/
def isBlockNotFound (validationError : String) : Bool :=
  includes validationError.toLower "block" && includes validationError.toLower "not found"

/-- **A block is inserted**: the number of blocks that are. -/
def insertBlock (number : ℕ) (block : β) : Run β γ ℕ := fun s =>
  match cfg.putBlocks s.chain block with
  | (.ok numBlocksInserted, chain) =>
    (.ok numBlocksInserted,
      { s with
        chain := chain
        fillStatus :=
          if numBlocksInserted > 0 then some ⟨.valid, cfg.number block, cfg.hash block, none⟩
          else s.fillStatus })
  | (.error validationError, chain) =>
    let s := { s with chain := chain }
    if isBlockNotFound validationError then
      if s.status.canonicalHeadReset then (.ok 0, s)
      else
        match backStep cfg number s with
        | (.ok _, s) => (.ok 0, s)
        | (.error e, s) => (.error e, s)
    else
      (.ok 0, { s with
        fillStatus := some ⟨.invalid, cfg.number block, cfg.hash block, some validationError⟩ })

/-- A block that is in the chain is deleted from the skeleton. -/
def cleanUp (block : β) (s : State β γ) : State β γ :=
  if s.status.linked && !s.status.canonicalHeadReset &&
      decide (cfg.height s.chain ≥ cfg.number block) then deleteBlock cfg block s
  else s

/-- **A turn of the loop**, up to a head. -/
def fillTurn (subchainHead : ℕ) :
    State β γ × ℕ → (State β γ × ℕ) ⊕ (Except SkeletonError Unit × State β γ)
  | (s, canonicalHead) =>
    if !s.status.canonicalHeadReset && decide (canonicalHead < subchainHead) then
      let number := canonicalHead + 1
      match getBlock cfg s number false with
      | none =>
        match backStep cfg number s with
        | (.ok _, s) => .inr (.ok (), s)
        | (.error e, s) => .inr (.error e, s)
      | some block =>
        if cfg.height s.chain ≤ cfg.number block then
          match insertBlock cfg number block s with
          | (.ok numBlocksInserted, s) =>
            if numBlocksInserted ≠ 1 then .inr (.ok (), s)
            else .inl (cleanUp cfg block s, canonicalHead + numBlocksInserted)
          | (.error e, s) => .inr (.error e, s)
        else .inl (cleanUp cfg block s, canonicalHead + 1)
    else .inr (.ok (), s)

/-- **The chain is reset** to below the tail, if that is asked for: the head to fill from. -/
def resetToTail (subchain : Subchain) : Run β γ ℕ := do
  let s ← Action.getState
  let canonicalHead := cfg.height s.chain
  if s.status.canonicalHeadReset then
    if subchain.tail > canonicalHead + 1 then
      Action.throw (.error
        ("Canonical head should already be on or ahead subchain tail canonicalHead=" ++
          toString canonicalHead ++ " tail=" ++ toString subchain.tail))
    else if canonicalHead > 0 then
      match cfg.resetCanonicalHead s.chain (subchain.tail - 1) with
      | (.error message, chain) => do
        Action.modify fun s => { s with chain := chain }
        Action.throw (.chain message)
      | (.ok (), chain) => do
        Action.modify fun s => { s with chain := chain }
        setCanonicalHeadReset false
        pure (subchain.tail - 1)
    else do
      setCanonicalHeadReset false
      pure canonicalHead
  else pure canonicalHead

/-- **`fillCanonicalChain`**: how it ends and what it leaves; none if it is still running. -/
def fillCanonicalChain (s : State β γ) : Option (Except SkeletonError Unit × State β γ) :=
  if s.filling then some (.ok (), s)
  else
    let s := { s with filling := true }
    match s.status.subchains with
    | [] => some (.error errUndefined, s)
    | subchain :: _ =>
      match resetToTail cfg subchain s with
      | (.error e, s) => some (.error e, s)
      | (.ok canonicalHead, s) =>
        (loop (fillTurn cfg subchain.head) (subchain.head + 1) (s, canonicalHead)).map fun
          | (.ok (), s) => (.ok (), { s with filling := false })
          | (.error e, s) => (.error e, s)

end TsEthereum.Skeleton
