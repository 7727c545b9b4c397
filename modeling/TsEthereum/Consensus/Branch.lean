import TsEthereum.Consensus.Votes
import Mathlib.Data.List.DropRight

/-!
# One more block

When no signer-set change is decided on the vote of a header (`undecided_iff`), and how the list of
block signers is trimmed (`pushBlockSigner_eq`).
-/

namespace TsEthereum.Clique

open TsEthereum

variable {cfg : ConsensusConfig} {c c' : CliqueConsensus} {header : CliqueHeader}

/-! ## Whether a change is decided -/

/-- The signer that is recovered from a header, the zero address if none is. -/
def CliqueHeader.signer (header : CliqueHeader) : Address :=
  header.cliqueSigner.toOption.getD .zero

/-- Its block signer. -/
def CliqueHeader.blockSigner (header : CliqueHeader) : CliqueBlockSigner :=
  ⟨header.number, header.signer⟩

/-- **No signer-set change is decided** on the vote of a header. -/
def Undecided (cfg : ConsensusConfig) (c : CliqueConsensus) (header : CliqueHeader) : Prop :=
  header.coinbase.isZero = false → ∀ signer lastEpochBlockNumber activeSigners,
    Voting cfg header c signer lastEpochBlockNumber activeSigners →
    ∀ cliqueNonce ∈ [CLIQUE_NONCE_AUTH, CLIQUE_NONCE_DROP],
      numBeneficiaryVotes c.latestVotes (header.vote signer) lastEpochBlockNumber 2 cliqueNonce <
        activeSigners.length / 2 + 1

theorem Voting.unique {signer signer' : Address} {lastEpochBlockNumber lastEpochBlockNumber' : ℕ}
    {activeSigners activeSigners' : List Address}
    (h : Voting cfg header c signer lastEpochBlockNumber activeSigners)
    (h' : Voting cfg header c signer' lastEpochBlockNumber' activeSigners') :
    signer' = signer ∧ lastEpochBlockNumber' = lastEpochBlockNumber ∧
      activeSigners' = activeSigners :=
  ⟨Except.ok.inj (h'.signer.symm.trans h.signer), Except.ok.inj (h'.epoch.symm.trans h.epoch),
    Except.ok.inj (h'.active.symm.trans h.active)⟩

/-- The limit is not reached in either round exactly if it is not in the
second. -/
theorem undecided_iff {signer : Address} {lastEpochBlockNumber : ℕ} {activeSigners : List Address}
    (h : Voting cfg header c signer lastEpochBlockNumber activeSigners)
    (hvotes : header.coinbase.isZero = false) :
    Undecided cfg c header ↔
      (c.tally (header.vote signer) lastEpochBlockNumber 1 activeSigners).consensus = false ∧
        ((c.withVote (header.vote signer)).tally (header.vote signer) lastEpochBlockNumber 2
          activeSigners).consensus = false := by
  rw [tally_consensus_eq_false, tally_consensus_eq_false, CliqueConsensus.withVote,
    numBeneficiaryVotes_concat, numBeneficiaryVotes_concat]
  constructor
  · intro hundecided
    have hcount := hundecided hvotes _ _ _ h
    have hauth := hcount CLIQUE_NONCE_AUTH (by simp)
    have hdrop := hcount CLIQUE_NONCE_DROP (by simp)
    exact ⟨⟨numBeneficiaryVotes_le_second.trans_lt hauth,
      numBeneficiaryVotes_le_second.trans_lt hdrop⟩, hauth, hdrop⟩
  · rintro ⟨-, hauth, hdrop⟩ - signer' lastEpochBlockNumber' activeSigners' h' cliqueNonce hkind
    obtain ⟨rfl, rfl, rfl⟩ := h.unique h'
    rcases List.mem_pair.1 hkind with rfl | rfl
    · exact hauth
    · exact hdrop

/-! ## One block -/

theorem rtake_of_length_le {α : Type} {l : List α} {n : ℕ} (h : l.length ≤ n) : l.rtake n = l := by
  rw [List.rtake, Nat.sub_eq_zero_of_le h, List.drop_zero]

theorem pushBlockSigner_eq (hsigner : header.cliqueSigner = .ok header.signer)
    {activeSigners : List Address}
    (hactive : c.cliqueActiveSigners header.number = .ok activeSigners) :
    pushBlockSigner header c =
      (.ok (), { c with
        latestBlockSigners :=
          (c.latestBlockSigners ++ [header.blockSigner]).rtake
            (activeSigners.length / 2 + 1) }) := by
  unfold pushBlockSigner
  rw [hsigner, Action.bind_of_ok (ofExcept_apply _ c), Action.bind_of_ok (Action.modify_apply _ c),
    Action.bind_of_ok (Action.getState_apply _)]
  dsimp only
  rw [cliqueSignerLimit_eq (c := { c with
    latestBlockSigners := c.latestBlockSigners ++ [⟨header.number, header.signer⟩] }) hactive,
    Action.bind_of_ok (ofExcept_apply _ _)]
  split
  · rfl
  · next hle =>
    rw [CliqueHeader.blockSigner, rtake_of_length_le (Nat.le_of_not_lt hle)]
    rfl

end TsEthereum.Clique
