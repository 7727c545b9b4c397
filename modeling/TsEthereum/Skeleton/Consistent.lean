import TsEthereum.Skeleton.ForkchoiceUpdate
import TsEthereum.Skeleton.Frames
import Mathlib.Logic.Relation

/-!
# What a fork choice update leaves

Nothing but the end of `forkchoiceUpdate` sets the safe and the finalized block, so where it
throws they are those before (`lookupForkchoice_spares`).
-/

namespace TsEthereum.Skeleton

open TsEthereum

variable {β γ : Type} {cfg : Config β γ}

/-- The safe and the finalized block. -/
def kept (s : State β γ) : Option β × Option β := (s.safeBlock, s.finalizedBlock)

/-! ## Who sets them -/

theorem kept_away : Away (kept : State β γ → Option β × Option β) where
  status _ _ := rfl
  put _ _ _ := rfl
  fillStatus _ _ := rfl

theorem insertBlock_spares (number : ℕ) (block : β) : (insertBlock cfg number block).Spares kept := by
  intro s
  unfold insertBlock
  rcases cfg.putBlocks s.chain block with ⟨e | n, chain⟩
  · dsimp only
    split
    · split
      · rfl
      · have hback : kept (backStep cfg number { s with chain := chain }).2 = kept s :=
          kept_away.toApart.backStep number { s with chain := chain }
        rcases hstep : backStep cfg number { s with chain := chain } with ⟨_ | _, s'⟩ <;>
          exact (congrArg (fun x => kept x.2) hstep).symm.trans hback
    · rfl
  · rfl

theorem kept_cleanUp (block : β) (s : State β γ) : kept (cleanUp cfg block s) = kept s := by
  unfold cleanUp
  split <;> rfl

theorem fillTurn_spares (subchainHead : ℕ) (s : State β γ) (canonicalHead : ℕ) :
    (∀ t, fillTurn cfg subchainHead (s, canonicalHead) = .inl t → kept t.1 = kept s) ∧
      ∀ r, fillTurn cfg subchainHead (s, canonicalHead) = .inr r → kept r.2 = kept s := by
  have hright {r' : Except SkeletonError Unit × State β γ} (hr' : kept r'.2 = kept s) :
      (∀ t, (.inr r' : (State β γ × ℕ) ⊕ _) = .inl t → kept t.1 = kept s) ∧
        ∀ r, (.inr r' : (State β γ × ℕ) ⊕ _) = .inr r → kept r.2 = kept s := by
    refine ⟨fun t => nofun, fun r hr => ?_⟩
    rw [← Sum.inr.inj hr, hr']
  have hleft {t' : State β γ × ℕ} (ht' : kept t'.1 = kept s) :
      (∀ t, (.inl t' : _ ⊕ (Except SkeletonError Unit × State β γ)) = .inl t → kept t.1 = kept s) ∧
        ∀ r, (.inl t' : _ ⊕ (Except SkeletonError Unit × State β γ)) = .inr r →
          kept r.2 = kept s := by
    refine ⟨fun t ht => ?_, fun r => nofun⟩
    rw [← Sum.inl.inj ht, ht']
  unfold fillTurn
  dsimp only
  split
  · split
    · rcases hback : backStep cfg (canonicalHead + 1) s with ⟨_ | _, s'⟩ <;>
        exact hright ((kept_away.toApart.backStep _).of_eq hback)
    · next block hblock =>
      split
      · rcases hinsert : insertBlock cfg (canonicalHead + 1) block s with ⟨e | n, s'⟩
        · exact hright ((insertBlock_spares _ _).of_eq hinsert)
        · dsimp only
          split
          · exact hright ((insertBlock_spares _ _).of_eq hinsert)
          · exact hleft ((kept_cleanUp block s').trans ((insertBlock_spares _ _).of_eq hinsert))
      · exact hleft (kept_cleanUp block s)
  · exact hright rfl

theorem resetToTail_spares (subchain : Subchain) : (resetToTail cfg subchain).Spares kept := by
  refine Action.Spares.bind .getState fun s => ?_
  dsimp only
  split
  · split
    · exact .throw _
    · split
      · split
        · exact .bind (.modify fun _ => rfl) fun _ => .throw _
        · exact .bind (.modify fun _ => rfl) fun _ => .bind (kept_away.toApart.setStatus _) fun _ => .pure _
      · exact .bind (kept_away.toApart.setStatus _) fun _ => .pure _
  · exact .pure _

theorem kept_fillCanonicalChain {s : State β γ} {r : Except SkeletonError Unit × State β γ}
    (h : fillCanonicalChain cfg s = some r) : kept r.2 = kept s := by
  unfold fillCanonicalChain at h
  split at h
  · obtain rfl := Option.some.inj h
    rfl
  · dsimp only at h
    split at h
    · obtain rfl := Option.some.inj h
      rfl
    · next subchain rest hsubchains =>
      rcases hstart : resetToTail cfg subchain { s with filling := true } with ⟨e | canonicalHead, s₁⟩
      all_goals
        have hreset : kept s₁ = kept { s with filling := true } :=
          (resetToTail_spares subchain).of_eq hstart
        rw [hstart] at h
      · obtain rfl := Option.some.inj h
        exact hreset
      · obtain ⟨r', hloop, rfl⟩ := Option.map_eq_some_iff.1 h
        have hr' : kept r'.2 = kept s := by
          refine loop_of_inv (I := fun t => kept t.1 = kept s) (Q := fun r => kept r.2 = kept s)
            ?_ ?_ hreset hloop
          · exact fun t t' ht hturn => ((fillTurn_spares _ t.1 t.2).1 t' hturn).trans ht
          · exact fun t r ht hturn => ((fillTurn_spares _ t.1 t.2).2 r hturn).trans ht
        rcases r' with ⟨_ | _, s₂⟩ <;> exact hr'

theorem blockingFillWithCutoff_spares (cutoffLen : ℕ) :
    (blockingFillWithCutoff cfg cutoffLen).Spares kept := by
  intro s
  unfold blockingFillWithCutoff
  split
  · rfl
  · dsimp only
    generalize (if s.status.canonicalHeadReset then _ else _ : ℕ) = filledFrom
    split
    · cases hfill : fillCanonicalChain cfg s with
      | none => rfl
      | some r =>
        have hkept := kept_fillCanonicalChain hfill
        exact hkept
    · rfl

theorem putBelowTail_spares (block : β) (subchain0 : Subchain) :
    (putBelowTail cfg block subchain0).Spares kept :=
  .bind .getState fun _ => runIf_spares (.bind (kept_away.putBlocks _) fun _ => .pure _)

theorem readSafeBlock_spares (headBlock : β) (safeBlockHash : Option Bytes) (subchain0 : Subchain) :
    (readSafeBlock cfg headBlock safeBlockHash subchain0).Spares kept := by
  refine Action.Spares.bind .getState fun s => ?_
  dsimp only
  split
  · split
    · exact .throw _
    · exact .bind (putBelowTail_spares _ _) fun _ => .pure _
  · exact .pure _

theorem readFinalizedBlock_spares (headBlock : β) (finalizedBlockHash : Option Bytes)
    (safeBlock : Option β) (subchain0 : Subchain) :
    (readFinalizedBlock cfg headBlock finalizedBlockHash safeBlock subchain0).Spares kept := by
  refine Action.Spares.bind .getState fun s => ?_
  dsimp only
  split
  · split
    · exact .throw _
    · exact .bind (putBelowTail_spares _ _) fun _ => .pure _
  · exact .pure _

theorem setForkchoiceHead_spares (headBlock : β) : (setForkchoiceHead cfg headBlock).Spares kept := by
  refine .bind .getState fun s => .bind (kept_away.setHead _ _ _ _) fun _ => .bind .getState fun s' =>
    .bind (runIf_spares fun u => ?_) fun _ => .pure _
  have hback : (blockingTailBackfillWithCutoff cfg cfg.engineParentLookupMaxDepth).Spares kept := by
    refine Action.Spares.bind .getState fun s => ?_
    dsimp only
    split
    · exact .pure _
    · exact .bind (kept_away.putBlocks _) fun _ => .pure _
  exact hback u

theorem lookupForkchoice_spares (headBlock : β) (safeBlockHash finalizedBlockHash : Option Bytes) :
    (lookupForkchoice cfg headBlock safeBlockHash finalizedBlockHash).Spares kept := by
  refine .bind (setForkchoiceHead_spares _) fun _ => .bind .getState fun s => ?_
  split
  · exact .throw _
  · exact .bind (readSafeBlock_spares _ _ _) fun _ =>
      .bind (readFinalizedBlock_spares _ _ _ _) fun _ => .pure _

theorem checkCanonical_spares (name : String) (block : Option β) (number : ℕ)
    (subchain0 : Subchain) : (checkCanonical cfg name block number subchain0).Spares kept := by
  refine Action.Spares.bind .getState fun s => ?_
  split
  · split
    · exact .throw _
    · split
      · exact .throw _
      · split
        · exact .throw _
        · exact .pure _
  · exact .pure _

theorem keepForkchoice_sparesOnError (safeBlock finalizedBlock : Option β) (subchain0 : Subchain) :
    (keepForkchoice cfg safeBlock finalizedBlock subchain0).SparesOnError kept :=
  .bind .getState fun _ => .bind (checkCanonical_spares _ _ _ _) fun _ =>
    .bind (checkCanonical_spares _ _ _ _) fun _ => fun _ _ _ h => by cases h

theorem blockingFillWithCutoff_returns (cutoffLen : ℕ) (s : State β γ) {e : SkeletonError}
    {s' : State β γ} : blockingFillWithCutoff cfg cutoffLen s ≠ (.error e, s') := by
  unfold blockingFillWithCutoff
  split
  · exact fun h => by cases h
  · dsimp only
    generalize (if s.status.canonicalHeadReset then _ else _ : ℕ) = filledFrom
    split
    · exact fun h => by cases h
    · exact fun h => by cases h

/-! ## What is checked -/

/-- **A block is an ancestor of another**, or it itself. -/
def AncestorOrSelf (cfg : Config β γ) : β → β → Prop :=
  Relation.ReflTransGen fun parent block => cfg.hash parent = cfg.parentHash block

/-- **The canonical blocks are linked**, from a number up to a head. -/
structure LinkedTo (cfg : Config β γ) (s : State β γ) (number : ℕ) (head : β) : Prop where
  last : getBlock cfg s (cfg.number head) true = some head
  linked : ∀ n, number ≤ n → n < cfg.number head → ∃ parent block,
    getBlock cfg s n true = some parent ∧ getBlock cfg s (n + 1) true = some block ∧
      cfg.hash parent = cfg.parentHash block

/-- **A block is the canonical one** at its number. -/
def Canonical (cfg : Config β γ) (s : State β γ) (block : β) : Prop :=
  ∃ canonicalBlock, getBlock cfg s (cfg.number block) true = some canonicalBlock ∧
    cfg.hash block = cfg.hash canonicalBlock

variable {s s' u : State β γ} {headBlock safe finalized : β}

theorem LinkedTo.ancestorOrSelf {number m k : ℕ} {a b : β} (h : LinkedTo cfg s number headBlock)
    (hm : number ≤ m) (hmk : m ≤ k) (hk : k ≤ cfg.number headBlock)
    (ha : getBlock cfg s m true = some a) (hb : getBlock cfg s k true = some b) :
    AncestorOrSelf cfg a b := by
  induction k, hmk using Nat.le_induction generalizing b with
  | base =>
    obtain rfl := Option.some.inj (ha.symm.trans hb)
    exact .refl
  | succ k hmk ih =>
    obtain ⟨parent, block, hparent, hblock, hlinked⟩ := h.linked k (by omega) (by omega)
    obtain rfl := Option.some.inj (hb.symm.trans hblock)
    exact (ih (by omega) hparent).tail hlinked

theorem Canonical.getBlock_eq (hhash : Function.Injective cfg.hash) (h : Canonical cfg s safe) :
    getBlock cfg s (cfg.number safe) true = some safe := by
  obtain ⟨canonicalBlock, hread, hsame⟩ := h
  rwa [← hhash hsame] at hread

theorem checkCanonical_ok {name : String} {block : Option β} {number : ℕ} {subchain0 : Subchain}
    (h : checkCanonical cfg name block number subchain0 s = (.ok (), s')) :
    s' = s ∧ (s.status.linked = true ∨ (s.status.subchains.headD subchain0).tail ≤ number →
      ∃ b ∈ block, Canonical cfg s b) := by
  unfold checkCanonical at h
  rw [Action.bind_of_ok (Action.getState_apply s)] at h
  split at h
  · cases block with
    | none => cases h
    | some b =>
      cases hread : getBlock cfg s (cfg.number b) true with
      | none =>
        simp only [hread] at h
        cases h
      | some canonicalBlock =>
        simp only [hread] at h
        split at h
        · cases h
        · next hsame =>
          cases h
          exact ⟨rfl, fun _ => ⟨b, rfl, canonicalBlock, hread, not_not.1 hsame⟩⟩
  · next hno =>
    cases h
    refine ⟨rfl, fun hcheck => absurd ?_ hno⟩
    rw [Bool.or_eq_true, decide_eq_true_eq]
    exact hcheck

/-- **What holds of the blocks that are looked up** when they are kept: their numbers are in
order, and those that are checked are there and canonical. -/
structure Consistent (cfg : Config β γ) (u : State β γ) (headBlock : β) (found : Lookup β) : Prop where
  safe_le : ∀ safe ∈ found.safeBlock, cfg.number safe ≤ cfg.number headBlock
  finalized_le : ∀ finalized ∈ found.finalizedBlock,
    cfg.number finalized ≤ cfg.number headBlock ∧
      ∀ safe ∈ found.safeBlock, cfg.number finalized ≤ cfg.number safe
  safe_canonical : u.status.linked = true ∨
      (u.status.subchains.headD found.subchain0).tail ≤
        shouldBeSafeNumber cfg (shouldBeFinalizedNumber cfg u.finalizedBlock found.finalizedBlock)
          u.safeBlock found.safeBlock →
    ∃ safe ∈ found.safeBlock, Canonical cfg u safe
  finalized_canonical : u.status.linked = true ∨
      (u.status.subchains.headD found.subchain0).tail ≤
        shouldBeFinalizedNumber cfg u.finalizedBlock found.finalizedBlock →
    ∃ finalized ∈ found.finalizedBlock, Canonical cfg u finalized

theorem readSafeBlock_ok {safeBlockHash : Bytes} {subchain0 : Subchain} {safeBlock : Option β}
    (h : readSafeBlock cfg headBlock (some safeBlockHash) subchain0 s = (.ok safeBlock, s')) :
    ∀ safe ∈ safeBlock, cfg.number safe ≤ cfg.number headBlock := by
  unfold readSafeBlock at h
  rw [Action.bind_of_ok (Action.getState_apply s)] at h
  intro safe hsafe
  obtain rfl : safeBlock = some safe := hsafe
  cases hblock : forkchoiceBlock cfg (some safeBlockHash) s.safeBlock headBlock s with
  | none =>
    simp only [hblock] at h
    cases h
  | some block =>
    simp only [hblock] at h
    split at h
    · cases h
    · next hle =>
      obtain ⟨-, u, -, hpure⟩ := Action.bind_eq_ok_iff.1 h
      cases hpure
      omega

/-- The finalized block that is read is above neither the head nor the safe block. -/
theorem readFinalizedBlock_ok {finalizedBlockHash : Bytes} {subchain0 : Subchain}
    {safeBlock finalizedBlock : Option β}
    (h : readFinalizedBlock cfg headBlock (some finalizedBlockHash) safeBlock subchain0 s =
      (.ok finalizedBlock, s')) :
    ∀ finalized ∈ finalizedBlock, cfg.number finalized ≤ cfg.number headBlock ∧
      ∀ safe ∈ safeBlock, cfg.number finalized ≤ cfg.number safe := by
  unfold readFinalizedBlock at h
  rw [Action.bind_of_ok (Action.getState_apply s)] at h
  intro finalized hfinalized
  obtain rfl : finalizedBlock = some finalized := hfinalized
  cases hblock : forkchoiceBlock cfg (some finalizedBlockHash) s.finalizedBlock headBlock s with
  | none =>
    simp only [hblock] at h
    cases h
  | some block =>
    simp only [hblock] at h
    split at h
    · cases h
    · next hle =>
      obtain ⟨-, u, -, hpure⟩ := Action.bind_eq_ok_iff.1 h
      cases hpure
      push Not at hle
      exact hle

theorem consistent_of_ok {safeBlockHash finalizedBlockHash : Bytes} {found : Lookup β} {u' : State β γ}
    (hlookup : lookupForkchoice cfg headBlock (some safeBlockHash) (some finalizedBlockHash) s =
      (.ok found, u))
    (hkeep : keepForkchoice cfg found.safeBlock found.finalizedBlock found.subchain0 u =
      (.ok (), u')) :
    Consistent cfg u headBlock found ∧
      kept u' = (found.safeBlock <|> u.safeBlock, found.finalizedBlock <|> u.finalizedBlock) := by
  unfold lookupForkchoice at hlookup
  obtain ⟨reorged, s₁, -, hlookup⟩ := Action.bind_eq_ok_iff.1 hlookup
  rw [Action.bind_of_ok (Action.getState_apply s₁)] at hlookup
  cases hsubchains : s₁.status.subchains with
  | nil =>
    simp only [hsubchains] at hlookup
    cases hlookup
  | cons subchain0 rest =>
    simp only [hsubchains] at hlookup
    obtain ⟨safeBlock, s₂, hsafe, hlookup⟩ := Action.bind_eq_ok_iff.1 hlookup
    obtain ⟨finalizedBlock, s₃, hfinalized, hlookup⟩ := Action.bind_eq_ok_iff.1 hlookup
    cases hlookup
    unfold keepForkchoice at hkeep
    rw [Action.bind_of_ok (Action.getState_apply u)] at hkeep
    obtain ⟨u₁, s₄, hcheck, hkeep₁⟩ := Action.bind_eq_ok_iff.1 hkeep
    obtain ⟨u₂, s₅, hcheck', hkeep₂⟩ := Action.bind_eq_ok_iff.1 hkeep₁
    obtain ⟨rfl, hsafeCanonical⟩ := checkCanonical_ok hcheck
    obtain ⟨rfl, hfinalizedCanonical⟩ := checkCanonical_ok hcheck'
    cases hkeep₂
    exact ⟨⟨readSafeBlock_ok hsafe, readFinalizedBlock_ok hfinalized, hsafeCanonical,
      hfinalizedCanonical⟩, rfl⟩

/-- **Where both are checked and the canonical blocks are linked, they are ancestors.** -/
theorem Consistent.ancestors (hhash : Function.Injective cfg.hash) {found : Lookup β}
    (h : Consistent cfg u headBlock found) (hsafe : safe ∈ found.safeBlock)
    (hfinalized : finalized ∈ found.finalizedBlock)
    (hchecked : u.status.linked = true ∨
      (u.status.subchains.headD found.subchain0).tail ≤ cfg.number finalized)
    (hlinked : LinkedTo cfg u (cfg.number finalized) headBlock) :
    AncestorOrSelf cfg finalized safe ∧ AncestorOrSelf cfg safe headBlock := by
  have hfinalizedNumber : cfg.number finalized ≤
      shouldBeFinalizedNumber cfg u.finalizedBlock found.finalizedBlock := by
    rw [shouldBeFinalizedNumber, Option.mem_def.1 hfinalized]
    exact le_max_right _ _
  have hsafeNumber : shouldBeFinalizedNumber cfg u.finalizedBlock found.finalizedBlock ≤
      shouldBeSafeNumber cfg (shouldBeFinalizedNumber cfg u.finalizedBlock found.finalizedBlock)
        u.safeBlock found.safeBlock :=
    le_max_of_le_left (le_max_left _ _)
  obtain ⟨safe', hsafe', hcanonical⟩ :=
    h.safe_canonical (hchecked.imp id fun hle => (hle.trans hfinalizedNumber).trans hsafeNumber)
  obtain ⟨finalized', hfinalized', hcanonical'⟩ :=
    h.finalized_canonical (hchecked.imp id fun hle => hle.trans hfinalizedNumber)
  obtain rfl := Option.mem_unique hsafe hsafe'
  obtain rfl := Option.mem_unique hfinalized hfinalized'
  have hle := (h.finalized_le _ hfinalized).2 _ hsafe
  have hle' := h.safe_le _ hsafe
  exact ⟨hlinked.ancestorOrSelf (le_refl _) hle hle' (hcanonical'.getBlock_eq hhash)
      (hcanonical.getBlock_eq hhash),
    hlinked.ancestorOrSelf hle hle' (le_refl _) (hcanonical.getBlock_eq hhash) hlinked.last⟩

theorem sampleConfig_hash_injective : Function.Injective sampleConfig.hash := by
  rintro ⟨number, branch⟩ ⟨number', branch'⟩ h
  simpa [sampleConfig] using h

/-- A block of branch 7 is announced, far above the chain. -/
def announced : State SampleBlock (List SampleBlock) :=
  (setHead sampleConfig ⟨50, 7⟩ false false false sampleState).2

end TsEthereum.Skeleton
