import TsEthereum.Skeleton.Subchains

/-!
# What the calls leave alone

Setting heads and putting blocks writes to the status and to the database, and resets what is
filled; stepping back does not do that either. What is apart from these they leave alone.
-/

namespace TsEthereum.Skeleton

open TsEthereum

variable {β γ ρ : Type} {cfg : Config β γ} {f : State β γ → ρ}

/-- **It is no part of the status and of the database.** -/
structure Apart (f : State β γ → ρ) : Prop where
  status : ∀ s g, f (State.setStatus s g) = f s
  put : ∀ s key value, f (State.put s key value) = f s

/-- **Nor is it what is filled.** -/
structure Away (f : State β γ → ρ) : Prop extends Apart f where
  fillStatus : ∀ s fillStatus, f { s with fillStatus := fillStatus } = f s

theorem Apart.setStatus (hf : Apart f) (g : Status → Status) :
    (Skeleton.setStatus g : Run β γ Unit).Spares f :=
  .modify fun s => hf.status s g

theorem Apart.writeSyncStatus (hf : Apart f) :
    (Action.modify Skeleton.writeSyncStatus : Run β γ Unit).Spares f :=
  .modify fun s => hf.put s _ _

theorem Apart.putBlock (hf : Apart f) (block : β) (onlyUnfinalized : Bool) (s : State β γ) :
    f (Skeleton.putBlock cfg block onlyUnfinalized s) = f s := by
  unfold Skeleton.putBlock
  dsimp only
  split
  · exact hf.put _ _ _
  · rw [hf.put, hf.put, hf.put]

theorem runIf_spares {c : Bool} {p : Run β γ Unit} (h : p.Spares f) : (runIf c p).Spares f := by
  unfold runIf
  split
  · exact h
  · exact .pure _

theorem Apart.checkLinked (hf : Apart f) : (Skeleton.checkLinked cfg).Spares f := by
  refine Action.Spares.bind .getState fun s => ?_
  split
  · exact .pure _
  · split
    · exact .pure _
    · split
      · split
        · exact .throw _
        · exact .bind (runIf_spares (.bind (hf.setStatus _) fun _ => hf.writeSyncStatus))
            fun _ => .pure _
      · exact .pure _

theorem Apart.updateLinked (hf : Apart f) : (Skeleton.updateLinked cfg).Spares f :=
  .bind hf.checkLinked fun _ => hf.setStatus _

theorem Apart.fastForwardHead (hf : Apart f) (target : ℕ) :
    (Skeleton.fastForwardHead cfg target).Spares f := by
  refine Action.Spares.bind .getState fun s => ?_
  split
  · exact .pure _
  · split
    · exact .pure _
    · exact hf.setStatus _

theorem Apart.extendHead (hf : Apart f) (head : β) (force : Bool) :
    (Skeleton.extendHead cfg head force).Spares f := by
  refine Action.Spares.bind .getState fun s => ?_
  split
  · exact .pure _
  · split
    · exact .pure _
    · exact .bind (runIf_spares (hf.setStatus _)) fun _ => .pure _

theorem Apart.processNewHead (hf : Apart f) (head : β) (force : Bool) :
    (Skeleton.processNewHead cfg head force).Spares f := by
  unfold Skeleton.processNewHead
  dsimp only
  split
  · split
    · exact .throw _
    · exact .bind (hf.setStatus _) fun _ => .bind (hf.setStatus _) fun _ => .pure _
  · refine Action.Spares.bind .getState fun s => ?_
    split
    · exact .throw _
    · split
      · exact .bind (runIf_spares (hf.setStatus _)) fun _ => .pure _
      · split
        · split <;> exact .pure _
        · split
          · split
            · refine .bind (hf.fastForwardHead _) fun _ => .bind .getState fun s => ?_
              split
              · exact .pure _
              · split
                · exact .pure _
                · exact hf.extendHead _ _
            · exact .pure _
          · exact hf.extendHead _ _

theorem Apart.moveHead (hf : Apart f) (head : β) : (Skeleton.moveHead cfg head).Spares f := by
  refine .bind (hf.setStatus _) fun _ => .bind .getState fun s => ?_
  split
  · exact .pure _
  · split
    · dsimp only
      split
      · exact .bind (hf.setStatus _) fun _ => hf.setStatus _
      · exact hf.setStatus _
    · exact .pure _

theorem Apart.overlaySubchain (hf : Apart f) (head : β) (subchain0Head : ℕ) :
    (Skeleton.overlaySubchain cfg head subchain0Head).Spares f := by
  refine .bind ?_ fun _ => hf.setStatus _
  refine Action.Spares.bind .getState fun s => ?_
  split
  · exact .pure _
  · split
    · dsimp only
      split <;> exact hf.setStatus _
    · exact .pure _

theorem Away.reorgTo (hf : Away f) (head : β) (subchain0Head : ℕ) :
    (Skeleton.reorgTo cfg head subchain0Head).Spares f := by
  refine Action.Spares.bind .getState fun s => ?_
  have hend : (Action.modify fun s : State β γ =>
      if s.status.canonicalHeadReset || !s.status.linked then { s with fillStatus := none }
      else s : Run β γ Unit).Spares f := by
    refine .modify fun s => ?_
    split
    · exact hf.fillStatus s none
    · rfl
  dsimp only
  split
  · exact .bind (hf.moveHead head) fun _ => hend
  · exact .bind (hf.overlaySubchain head subchain0Head) fun _ => hend

theorem Apart.trySubChainsMerge (hf : Apart f) : (Skeleton.trySubChainsMerge cfg).Spares f := by
  refine Action.Spares.bind .getState fun s => ?_
  split
  · exact .pure _
  · exact .bind (hf.setStatus _) fun _ => .bind (runIf_spares hf.writeSyncStatus) fun _ =>
      .pure _

theorem Apart.initSubchains (hf : Apart f) : (Skeleton.initSubchains cfg).Spares f := by
  refine Action.Spares.bind .getState fun s => ?_
  split
  · exact .pure _
  · exact .bind (hf.setStatus _) fun _ => .pure _

theorem Away.takeHead (hf : Away f) (head : β) (force init : Bool) (subchain0Head : ℕ)
    (reorg : Bool) :
    (Skeleton.takeHead cfg head force init subchain0Head reorg).Spares f :=
  .bind (runIf_spares (hf.reorgTo head subchain0Head)) fun _ =>
    .bind (.modify fun s => hf.toApart.putBlock head _ s) fun _ =>
    .bind (runIf_spares (.bind hf.trySubChainsMerge fun _ => .pure _)) fun _ =>
    .bind (runIf_spares hf.updateLinked) fun _ => runIf_spares hf.writeSyncStatus

theorem Away.setHead (hf : Away f) (head : β) (force init reorgThrow : Bool) :
    (Skeleton.setHead cfg head force init reorgThrow).Spares f := by
  refine Action.Spares.bind .getState fun s => ?_
  split
  · exact .throw _
  · refine .bind hf.initSubchains fun _ => .bind (hf.processNewHead _ _) fun _ =>
      .bind (hf.takeHead _ _ _ _ _) fun _ => ?_
    split
    · exact .throw _
    · exact .pure _

theorem Away.mergeAndLink (hf : Away f) (tailUpdated : Bool) :
    (Skeleton.mergeAndLink cfg tailUpdated).Spares f := by
  refine Action.Spares.bind hf.trySubChainsMerge fun merged => ?_
  split
  · refine .bind (hf.setStatus _) fun _ => .bind (.modify fun s => hf.fillStatus s none) fun _ =>
      .bind .getState fun s => ?_
    split
    · exact .throw _
    · exact .bind (runIf_spares hf.updateLinked) fun _ => .pure _
  · exact .pure _

theorem Away.putEach (hf : Away f) (tailUpdated : Bool) (blocks : List β) :
    (Skeleton.putEach cfg tailUpdated blocks).Spares f := by
  induction blocks generalizing tailUpdated with
  | nil => exact .pure _
  | cons block blocks ih =>
    refine Action.Spares.bind .getState fun s => ?_
    split
    · exact .throw _
    · dsimp only
      split
      · exact ih _
      · split
        · split
          · exact .throw _
          · exact ih _
        · split
          · refine .bind (.modify fun s => hf.toApart.putBlock block _ s) fun _ =>
              .bind (hf.setStatus _) fun _ => .bind (hf.mergeAndLink _) fun _ =>
              .bind .getState fun s => ?_
            split
            · exact .pure _
            · exact ih _
          · exact .throw _

theorem Away.putBlocks (hf : Away f) (blocks : List β) :
    (Skeleton.putBlocks cfg blocks).Spares f := by
  refine Action.Spares.bind .getState fun s => ?_
  split
  · exact .throw _
  · split
    · exact .throw _
    · refine .bind (hf.putEach _ _) fun _ => .bind hf.writeSyncStatus fun _ => ?_
      split
      · exact .throw _
      · exact .pure _

theorem Apart.stepSubchain0Back (hf : Apart f) (fromBlock : ℕ) :
    (Skeleton.stepSubchain0Back cfg fromBlock).Spares f := by
  unfold Skeleton.stepSubchain0Back
  split
  · exact .pure _
  · refine Action.Spares.bind .getState fun s => ?_
    split
    · exact .throw _
    · split
      · exact .bind (hf.setStatus _) fun _ => .bind hf.writeSyncStatus fun _ => .pure _
      · exact .bind (hf.setStatus _) fun _ => .bind hf.writeSyncStatus fun _ => .pure _

theorem Apart.backStep (hf : Apart f) (fromBlock : ℕ) :
    (Skeleton.backStep cfg fromBlock).Spares f := by
  intro s
  have hfinally : (Skeleton.markReset cfg).Spares f :=
    .bind (hf.setStatus _) fun _ => hf.updateLinked
  rcases htry : Skeleton.stepSubchain0Back cfg fromBlock s with ⟨result, s₁⟩
  rcases hmark : Skeleton.markReset cfg s₁ with ⟨_ | _, s₂⟩ <;>
    simp only [Skeleton.backStep, htry, hmark, hfinally.of_eq hmark,
      (hf.stepSubchain0Back fromBlock).of_eq htry]

end TsEthereum.Skeleton
