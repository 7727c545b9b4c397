import TsEthereum.Consensus.Clique

/-!
# What a vote does

`cliqueUpdateVotes` taken apart: what a round of the tally leaves
(`voteRound_false`, `mem_states_voteRound`), and where a new signer state
comes from (`mem_states_cliqueUpdateVotes`): one of the two rounds reached the
limit, on the votes there were and the new one.
-/

namespace TsEthereum.Clique

open TsEthereum

variable {cfg : ConsensusConfig} {c c' : CliqueConsensus} {latestVote : CliqueVote}
variable {header : CliqueHeader} {s : CliqueSignerState}

@[simp] theorem ofExcept_apply {α : Type} (x : Except CliqueError α) (c : CliqueConsensus) :
    ofExcept x c = (x, c) := rfl

/-! ## The signer states -/

theorem mem_of_mem_historic {α : Type} {number : α → ℕ} {n : ℕ} {l : List α} {a : α}
    (h : a ∈ historic number n l) : a ∈ l := List.mem_of_mem_filter h

/-- **The states after trimming**: the rest of them, or the last. -/
def trimmedStates (lastBlockNumber : Option ℕ) (states : List CliqueSignerState) :
    List CliqueSignerState :=
  match lastBlockNumber with
  | none => states
  | some lastBlockNumber =>
    if (historic CliqueSignerState.blockNumber lastBlockNumber states).isEmpty then
      states.getLast?.toList
    else historic CliqueSignerState.blockNumber lastBlockNumber states

theorem mem_of_mem_trimmedStates {lastBlockNumber : Option ℕ} {states : List CliqueSignerState}
    (h : s ∈ trimmedStates lastBlockNumber states) : s ∈ states := by
  unfold trimmedStates at h
  split at h
  · exact h
  · split at h
    · exact List.mem_of_getLast? (Option.mem_toList.1 h)
    · exact mem_of_mem_historic h

/-- **Trimming changes the states only**, also where it throws: there were none
to trim. -/
theorem trimSignerStates_snd (c : CliqueConsensus) : (trimSignerStates c).2 =
    { c with latestSignerStates := trimmedStates c.lastBlockNumber c.latestSignerStates } := by
  unfold trimSignerStates trimmedStates
  rw [Action.bind_of_ok (Action.getState_apply c)]
  cases c.lastBlockNumber with
  | none => rfl
  | some n =>
    dsimp only
    split
    · cases hlast : c.latestSignerStates.getLast? with
      | some lastItem => rfl
      | none =>
        rw [Option.toList_none, ← List.getLast?_eq_none_iff.1 hlast]
        rfl
    · rfl

theorem trimSignerStates_fst (h : c.latestSignerStates ≠ []) : (trimSignerStates c).1 = .ok () := by
  unfold trimSignerStates
  rw [Action.bind_of_ok (Action.getState_apply c)]
  cases c.lastBlockNumber with
  | none => rfl
  | some n =>
    dsimp only
    split
    · rw [List.getLast?_eq_getLast_of_ne_nil h]
      rfl
    · rfl

/-- The states once one is added, if there is none of its number. -/
def CliqueConsensus.updatedStates (c : CliqueConsensus) (o : Option CliqueSignerState) :
    List CliqueSignerState :=
  if o.any c.known then c.latestSignerStates
  else trimmedStates c.lastBlockNumber (o.elim c c.withSignerState).latestSignerStates

theorem cliqueUpdateSignerStates_snd (o : Option CliqueSignerState) (c : CliqueConsensus) :
    ∃ db, (cliqueUpdateSignerStates o c).2 =
      { c with latestSignerStates := c.updatedStates o, db := db } := by
  unfold cliqueUpdateSignerStates CliqueConsensus.updatedStates
  rw [Action.bind_of_ok (Action.getState_apply c)]
  split
  · exact ⟨c.db, rfl⟩
  · rw [Action.bind_of_ok (Action.modify_apply _ c)]
    have hsnd := trimSignerStates_snd (o.elim c c.withSignerState)
    have hsame : (o.elim c c.withSignerState).lastBlockNumber = c.lastBlockNumber := by
      cases o <;> rfl
    cases htrim : trimSignerStates (o.elim c c.withSignerState) with
    | mk r c₁ =>
      rw [htrim, hsame] at hsnd
      obtain rfl : c₁ = _ := hsnd
      cases r with
      | error e =>
        rw [Action.bind_of_error htrim]
        cases o with
        | none => exact ⟨_, rfl⟩
        | some signerState => exact ⟨_, rfl⟩
      | ok u =>
        rw [Action.bind_of_ok htrim]
        cases o with
        | none => exact ⟨_, rfl⟩
        | some signerState => exact ⟨_, rfl⟩

theorem cliqueUpdateSignerStates_fst {o : Option CliqueSignerState}
    (h : o = none → c.latestSignerStates ≠ []) : (cliqueUpdateSignerStates o c).1 = .ok () := by
  unfold cliqueUpdateSignerStates
  rw [Action.bind_of_ok (Action.getState_apply c)]
  split
  · rfl
  · rw [Action.bind_of_ok (Action.modify_apply _ c)]
    have htrim : (trimSignerStates (o.elim c c.withSignerState)).1 = .ok () := by
      refine trimSignerStates_fst ?_
      cases o with
      | none => exact h rfl
      | some signerState =>
        refine List.ne_nil_of_mem (a := signerState) ?_
        exact (List.mem_insertionSort _).2 (List.mem_append_right _ (List.mem_singleton_self _))
    rw [Action.bind_of_ok (Prod.ext htrim rfl)]
    rfl

/-- **Where a state comes from after an update**: it was there, or is the one
that is added, there being none of its number. -/
theorem mem_updatedStates {o : Option CliqueSignerState} (h : s ∈ c.updatedStates o) :
    s ∈ c.latestSignerStates ∨ o = some s ∧ c.known s = false := by
  unfold CliqueConsensus.updatedStates at h
  split at h
  · exact .inl h
  · next hknown =>
    have hmem := mem_of_mem_trimmedStates h
    cases o with
    | none => exact .inl hmem
    | some signerState =>
      rcases List.mem_append.1 ((List.mem_insertionSort _).1 hmem) with hmem | hmem
      · exact .inl hmem
      · rw [List.mem_singleton.1 hmem]
        exact .inr ⟨rfl, by simpa using hknown⟩

/-! ## A round of the tally -/

/-- The tally of a round, on the active signers. -/
def CliqueConsensus.tally (c : CliqueConsensus) (latestVote : CliqueVote)
    (lastEpochBlockNumber round : ℕ) (activeSigners : List Address) : Tally :=
  (Tally.mk false activeSigners c.latestVotes).auth latestVote lastEpochBlockNumber
    (activeSigners.length / 2 + 1) round |>.drop latestVote lastEpochBlockNumber
    (activeSigners.length / 2 + 1) round

theorem cliqueSignerLimit_eq {blockNum : ℕ} {signers : List Address}
    (h : c.cliqueActiveSigners blockNum = .ok signers) :
    c.cliqueSignerLimit blockNum = .ok (signers.length / 2 + 1) := by
  rw [CliqueConsensus.cliqueSignerLimit, h]
  rfl

theorem voteRound_of_ok (latestVote : CliqueVote) (round : ℕ) {lastEpochBlockNumber : ℕ}
    {activeSigners : List Address}
    (hepoch : cfg.lastEpochBlockNumber latestVote.blockNumber = .ok lastEpochBlockNumber)
    (hactive : c.cliqueActiveSigners latestVote.blockNumber = .ok activeSigners) :
    voteRound cfg latestVote round c =
      let t := c.tally latestVote lastEpochBlockNumber round activeSigners
      let c₁ := { c with latestVotes := if round = 1 then t.votes ++ [latestVote] else t.votes }
      if t.consensus then
        (.ok true,
          (cliqueUpdateSignerStates (some ⟨latestVote.blockNumber, t.activeSigners⟩) c₁).2)
      else (.ok false, c₁) := by
  unfold voteRound
  rw [hepoch, Action.bind_of_ok (ofExcept_apply _ c), Action.bind_of_ok (Action.getState_apply c),
    cliqueSignerLimit_eq hactive, Action.bind_of_ok (ofExcept_apply _ c), hactive,
    Action.bind_of_ok (ofExcept_apply _ c)]
  dsimp only
  rw [Action.bind_of_ok (Action.modify_apply _ c)]
  change (if (c.tally latestVote lastEpochBlockNumber round activeSigners).consensus = true then
    _ else _ : Method Bool) _ = _
  split
  · rw [Action.bind_of_ok (Prod.ext (cliqueUpdateSignerStates_fst fun h => by cases h) rfl)]
    rfl
  · rfl

theorem voteRound_of_error {round : ℕ} {e : CliqueError}
    (h : cfg.lastEpochBlockNumber latestVote.blockNumber = .error e ∨
      ∃ lastEpochBlockNumber,
        cfg.lastEpochBlockNumber latestVote.blockNumber = .ok lastEpochBlockNumber ∧
          c.cliqueActiveSigners latestVote.blockNumber = .error e) :
    voteRound cfg latestVote round c = (.error e, c) := by
  unfold voteRound
  rcases h with hepoch | ⟨lastEpochBlockNumber, hepoch, hactive⟩
  · rw [hepoch]
    rfl
  · rw [hepoch, Action.bind_of_ok (ofExcept_apply _ c), Action.bind_of_ok (Action.getState_apply c),
      CliqueConsensus.cliqueSignerLimit, hactive]
    rfl

/-! ## Who is counted -/

theorem votesOfOthers_concat (votes : List CliqueVote) (latestVote : CliqueVote)
    (lastEpochBlockNumber : ℕ) (cliqueNonce : Bytes) :
    votesOfOthers (votes ++ [latestVote]) latestVote lastEpochBlockNumber cliqueNonce =
      votesOfOthers votes latestVote lastEpochBlockNumber cliqueNonce := by
  simp [votesOfOthers]

theorem numBeneficiaryVotes_le_second {votes : List CliqueVote} {latestVote : CliqueVote}
    {lastEpochBlockNumber round : ℕ} {cliqueNonce : Bytes} :
    numBeneficiaryVotes votes latestVote lastEpochBlockNumber round cliqueNonce ≤
      numBeneficiaryVotes votes latestVote lastEpochBlockNumber 2 cliqueNonce := by
  unfold numBeneficiaryVotes
  by_cases hnonce : latestVote.cliqueNonce = cliqueNonce
  · rw [if_pos (⟨rfl, hnonce⟩ : (2 = 2) ∧ latestVote.cliqueNonce = cliqueNonce)]
    split <;> omega
  · rw [if_neg fun h => hnonce h.2]
    omega

theorem numBeneficiaryVotes_concat {votes : List CliqueVote} {latestVote : CliqueVote}
    {lastEpochBlockNumber round : ℕ} {cliqueNonce : Bytes} :
    numBeneficiaryVotes (votes ++ [latestVote]) latestVote lastEpochBlockNumber round cliqueNonce =
      numBeneficiaryVotes votes latestVote lastEpochBlockNumber round cliqueNonce := by
  rw [numBeneficiaryVotes, votesOfOthers_concat, numBeneficiaryVotes]

/-- **`a` has a standing vote** of a kind on the beneficiary, since the epoch
block. -/
def Standing (votes : List CliqueVote) (beneficiary : Address) (lastEpochBlockNumber : ℕ)
    (cliqueNonce : Bytes) (a : Address) : Prop :=
  ∃ vote ∈ votes, vote.signer = a ∧ vote.beneficiary = beneficiary ∧
    vote.cliqueNonce = cliqueNonce ∧ lastEpochBlockNumber ≤ vote.blockNumber

instance (votes : List CliqueVote) (beneficiary : Address) (lastEpochBlockNumber : ℕ)
    (cliqueNonce : Bytes) :
    DecidablePred (Standing votes beneficiary lastEpochBlockNumber cliqueNonce) :=
  fun a => inferInstanceAs (Decidable (∃ vote ∈ votes, vote.signer = a ∧
    vote.beneficiary = beneficiary ∧ vote.cliqueNonce = cliqueNonce ∧
      lastEpochBlockNumber ≤ vote.blockNumber))

theorem numBeneficiaryVotes_le {votes standing : List CliqueVote} {lastEpochBlockNumber : ℕ}
    {round : ℕ} {cliqueNonce : Bytes} {signers : Finset Address}
    (hvotes : ∀ vote ∈ votes, vote ∈ standing) (hlatest : latestVote ∈ standing)
    (hepoch : lastEpochBlockNumber ≤ latestVote.blockNumber)
    (hsigners : ∀ a, Standing standing latestVote.beneficiary lastEpochBlockNumber cliqueNonce a →
      a ∈ signers) :
    numBeneficiaryVotes votes latestVote lastEpochBlockNumber round cliqueNonce ≤
      (signers.filter
        (Standing standing latestVote.beneficiary lastEpochBlockNumber cliqueNonce)).card := by
  set target := signers.filter
    (Standing standing latestVote.beneficiary lastEpochBlockNumber cliqueNonce)
  have hmem {a : Address}
      (ha : Standing standing latestVote.beneficiary lastEpochBlockNumber cliqueNonce a) :
      a ∈ target := Finset.mem_filter.2 ⟨hsigners a ha, ha⟩
  have hothers : ∀ a ∈ (votesOfOthers votes latestVote lastEpochBlockNumber cliqueNonce).map
      CliqueVote.signer, a ∈ target ∧ a ≠ latestVote.signer := by
    intro a ha
    obtain ⟨vote, hvote, rfl⟩ := List.mem_map.1 ha
    obtain ⟨hvote, hcounts⟩ := List.mem_filter.1 hvote
    obtain ⟨hsince, hother, hbeneficiary, hnonce⟩ := of_decide_eq_true hcounts
    exact ⟨hmem ⟨vote, hvotes vote hvote, rfl, hbeneficiary, hnonce, hsince⟩, hother⟩
  unfold numBeneficiaryVotes
  split
  · next hnew =>
    -- the new vote counts for its signer, who is none of the others
    have hself : latestVote.signer ∈ target := hmem ⟨latestVote, hlatest, rfl, rfl, hnew.2, hepoch⟩
    have := length_distinct_le_card (s := target.erase latestVote.signer) fun a ha =>
      Finset.mem_erase.2 ⟨(hothers a ha).2, (hothers a ha).1⟩
    rw [Finset.card_erase_of_mem hself] at this
    have := Finset.card_pos.2 ⟨_, hself⟩
    omega
  · exact length_distinct_le_card fun a ha => (hothers a ha).1

namespace Tally

variable {lastEpochBlockNumber limit round : ℕ} {t : Tally} {a : Address}

theorem mem_of_mem_auth {vote : CliqueVote}
    (h : vote ∈ (t.auth latestVote lastEpochBlockNumber limit round).votes) : vote ∈ t.votes := by
  unfold auth at h
  split at h
  · exact List.mem_of_mem_filter h
  · exact h

/-- **The beneficiary is added if the `AUTH` votes reach the limit**, and no
one else. -/
theorem mem_auth : a ∈ (t.auth latestVote lastEpochBlockNumber limit round).activeSigners ↔
    a ∈ t.activeSigners ∨ limit ≤ numBeneficiaryVotes t.votes latestVote lastEpochBlockNumber
      round CLIQUE_NONCE_AUTH ∧ a = latestVote.beneficiary := by
  unfold auth
  split
  · next h => simp [h]
  · next h => simp [h]

theorem mem_drop : a ∈ (t.drop latestVote lastEpochBlockNumber limit round).activeSigners ↔
    a ∈ t.activeSigners ∧ ¬ (limit ≤ numBeneficiaryVotes t.votes latestVote lastEpochBlockNumber
      round CLIQUE_NONCE_DROP ∧ a = latestVote.beneficiary) := by
  unfold drop
  split
  · next h => simp [h]
  · next h => simp [h]

theorem sorted_auth (hsorted : t.activeSigners.Pairwise (· < ·))
    (hnew : limit ≤ numBeneficiaryVotes t.votes latestVote lastEpochBlockNumber round
      CLIQUE_NONCE_AUTH → latestVote.beneficiary ∉ t.activeSigners) :
    (t.auth latestVote lastEpochBlockNumber limit round).activeSigners.Pairwise (· < ·) := by
  unfold auth
  split
  · next h =>
    have hnodup : (t.activeSigners ++ [latestVote.beneficiary]).Nodup :=
      List.nodup_append.2 ⟨hsorted.imp ne_of_lt, List.nodup_singleton _, by
        intro a ha b hb
        rw [List.mem_singleton.1 hb]
        rintro rfl
        exact hnew h ha⟩
    have hperm := List.perm_insertionSort (· ≤ ·) (t.activeSigners ++ [latestVote.beneficiary])
    exact ((List.pairwise_insertionSort (· ≤ ·) _).and (hperm.nodup_iff.2 hnodup)).imp
      fun hle => lt_of_le_of_ne hle.1 hle.2
  · exact hsorted

theorem sorted_drop (hsorted : t.activeSigners.Pairwise (· < ·)) :
    (t.drop latestVote lastEpochBlockNumber limit round).activeSigners.Pairwise (· < ·) := by
  unfold drop
  split
  · exact hsorted.filter _
  · exact hsorted

end Tally

/-! ## Both rounds -/

theorem tally_consensus_eq_false {lastEpochBlockNumber round : ℕ} {activeSigners : List Address} :
    (c.tally latestVote lastEpochBlockNumber round activeSigners).consensus = false ↔
      numBeneficiaryVotes c.latestVotes latestVote lastEpochBlockNumber round CLIQUE_NONCE_AUTH <
          activeSigners.length / 2 + 1 ∧
        numBeneficiaryVotes c.latestVotes latestVote lastEpochBlockNumber round CLIQUE_NONCE_DROP <
          activeSigners.length / 2 + 1 := by
  unfold CliqueConsensus.tally Tally.auth Tally.drop
  dsimp only
  split
  · next hauth =>
    split
    · simp [Nat.not_lt.2 hauth]
    · simp [Nat.not_lt.2 hauth]
  · next hauth =>
    split
    · next hdrop => simp [Nat.not_lt.2 hdrop]
    · next hdrop => simp [Nat.not_le.1 hauth, Nat.not_le.1 hdrop]

theorem tally_votes_of_not_consensus {lastEpochBlockNumber round : ℕ}
    {activeSigners : List Address}
    (h : (c.tally latestVote lastEpochBlockNumber round activeSigners).consensus = false) :
    (c.tally latestVote lastEpochBlockNumber round activeSigners).votes = c.latestVotes := by
  obtain ⟨hauth, hdrop⟩ := tally_consensus_eq_false.1 h
  unfold CliqueConsensus.tally Tally.auth Tally.drop
  dsimp only
  rw [if_neg (Nat.not_le.2 hauth), if_neg (Nat.not_le.2 hdrop)]

/-- The vote of a header. -/
def CliqueHeader.vote (header : CliqueHeader) (signer : Address) : CliqueVote :=
  ⟨header.number, signer, header.coinbase, header.nonce⟩

/-- The state once a vote is added. -/
def CliqueConsensus.withVote (c : CliqueConsensus) (latestVote : CliqueVote) : CliqueConsensus :=
  { c with latestVotes := c.latestVotes ++ [latestVote] }

/-- **What the tallies of a vote read.** -/
structure Voting (cfg : ConsensusConfig) (header : CliqueHeader) (c : CliqueConsensus)
    (signer : Address) (lastEpochBlockNumber : ℕ) (activeSigners : List Address) : Prop where
  signer : header.cliqueSigner = .ok signer
  epoch : cfg.lastEpochBlockNumber header.number = .ok lastEpochBlockNumber
  active : c.cliqueActiveSigners header.number = .ok activeSigners

/-- **How the vote of a header came out**: it threw as something could not be
read, there was consensus in the first round or in the second, or in none. -/
inductive VoteOutcome (cfg : ConsensusConfig) (header : CliqueHeader) (c : CliqueConsensus) :
    Except CliqueError Bool → CliqueConsensus → Prop where
  | threw (e : CliqueError)
      (h : ∀ signer lastEpochBlockNumber activeSigners,
        ¬ Voting cfg header c signer lastEpochBlockNumber activeSigners) :
      VoteOutcome cfg header c (.error e) c
  | first {signer : Address} {lastEpochBlockNumber : ℕ} {activeSigners : List Address}
      (h : Voting cfg header c signer lastEpochBlockNumber activeSigners)
      (hconsensus : (c.tally (header.vote signer) lastEpochBlockNumber 1 activeSigners).consensus)
      {c' : CliqueConsensus}
      (hc' : c' = (cliqueUpdateSignerStates (some ⟨header.number,
          (c.tally (header.vote signer) lastEpochBlockNumber 1 activeSigners).activeSigners⟩)
        { c with
          latestVotes :=
            (c.tally (header.vote signer) lastEpochBlockNumber 1 activeSigners).votes ++
              [header.vote signer] }).2) :
      VoteOutcome cfg header c (.ok true) c'
  | second {signer : Address} {lastEpochBlockNumber : ℕ} {activeSigners : List Address}
      (h : Voting cfg header c signer lastEpochBlockNumber activeSigners)
      (hfirst :
        (c.tally (header.vote signer) lastEpochBlockNumber 1 activeSigners).consensus = false)
      (hconsensus : ((c.withVote (header.vote signer)).tally (header.vote signer)
        lastEpochBlockNumber 2 activeSigners).consensus)
      {c' : CliqueConsensus}
      (hc' : c' = (cliqueUpdateSignerStates (some ⟨header.number,
          ((c.withVote (header.vote signer)).tally (header.vote signer) lastEpochBlockNumber 2
            activeSigners).activeSigners⟩)
        { c with
          latestVotes :=
            ((c.withVote (header.vote signer)).tally (header.vote signer) lastEpochBlockNumber 2
              activeSigners).votes }).2) :
      VoteOutcome cfg header c (.ok true) c'
  | none {signer : Address} {lastEpochBlockNumber : ℕ} {activeSigners : List Address}
      (h : Voting cfg header c signer lastEpochBlockNumber activeSigners)
      (hfirst :
        (c.tally (header.vote signer) lastEpochBlockNumber 1 activeSigners).consensus = false)
      (hsecond : ((c.withVote (header.vote signer)).tally (header.vote signer)
        lastEpochBlockNumber 2 activeSigners).consensus = false) :
      VoteOutcome cfg header c (.ok false) (c.withVote (header.vote signer))

theorem voteRounds_outcome (cfg : ConsensusConfig) (header : CliqueHeader) (c : CliqueConsensus) :
    VoteOutcome cfg header c (voteRounds cfg header c).1 (voteRounds cfg header c).2 := by
  unfold voteRounds
  cases hsigner : header.cliqueSigner with
  | error e => exact .threw e fun signer _ _ h => by cases hsigner.symm.trans h.signer
  | ok signer =>
    rw [Action.bind_of_ok (ofExcept_apply _ c)]
    change VoteOutcome cfg header c
      ((voteRound cfg (header.vote signer) 1 >>= fun consensus =>
        if consensus then pure true else voteRound cfg (header.vote signer) 2) c).1
      ((voteRound cfg (header.vote signer) 1 >>= fun consensus =>
        if consensus then pure true else voteRound cfg (header.vote signer) 2) c).2
    cases hepoch : cfg.lastEpochBlockNumber header.number with
    | error e =>
      rw [Action.bind_of_error (voteRound_of_error (.inl hepoch))]
      exact .threw e fun _ _ _ h => by cases hepoch.symm.trans h.epoch
    | ok lastEpochBlockNumber =>
      cases hactive : c.cliqueActiveSigners header.number with
      | error e =>
        rw [Action.bind_of_error (voteRound_of_error (.inr ⟨_, hepoch, hactive⟩))]
        exact .threw e fun _ _ _ h => by cases hactive.symm.trans h.active
      | ok activeSigners =>
        have hvoting : Voting cfg header c signer lastEpochBlockNumber activeSigners :=
          ⟨hsigner, hepoch, hactive⟩
        have hround := voteRound_of_ok (header.vote signer) 1 hepoch hactive
        dsimp only at hround
        split at hround
        · next hconsensus =>
          rw [Action.bind_of_ok hround]
          exact .first hvoting hconsensus rfl
        · next hconsensus =>
          have hfirst := Bool.eq_false_iff.2 hconsensus
          rw [if_pos rfl, tally_votes_of_not_consensus hfirst] at hround
          rw [Action.bind_of_ok hround]
          -- the second round reads what the first did
          change VoteOutcome cfg header c
            (voteRound cfg (header.vote signer) 2 (c.withVote (header.vote signer))).1
            (voteRound cfg (header.vote signer) 2 (c.withVote (header.vote signer))).2
          rw [voteRound_of_ok (c := c.withVote (header.vote signer)) (header.vote signer) 2 hepoch hactive]
          dsimp only
          split
          · next hconsensus' => exact .second hvoting hfirst hconsensus' rfl
          · next hconsensus' =>
            have hsecond := Bool.eq_false_iff.2 hconsensus'
            rw [if_neg (by decide), tally_votes_of_not_consensus hsecond]
            exact .none hvoting hfirst hsecond

/-! ## Trimming the votes -/

/-- The votes after trimming. -/
def trimmedVotes (cfg : ConsensusConfig) (lastBlockNumber : Option ℕ) (votes : List CliqueVote) :
    List CliqueVote :=
  match lastBlockNumber.map cfg.lastEpochBlockNumber with
  | some (.ok lastEpochBlockNumber) => historic CliqueVote.blockNumber lastEpochBlockNumber votes
  | _ => votes

theorem trimVotes_snd (cfg : ConsensusConfig) (c : CliqueConsensus) : (trimVotes cfg c).2 =
    { c with latestVotes := trimmedVotes cfg c.lastBlockNumber c.latestVotes } := by
  unfold trimVotes trimmedVotes
  rw [Action.bind_of_ok (Action.getState_apply c)]
  cases c.lastBlockNumber with
  | none => rfl
  | some n =>
    dsimp only [Option.map_some]
    cases hepoch : cfg.lastEpochBlockNumber n with
    | error e => rfl
    | ok lastEpochBlockNumber => rfl

/-- What is done with the votes where there was no consensus. -/
def settleVotes (cfg : ConsensusConfig) : Method Unit := do
  trimVotes cfg
  saveVotes

theorem settleVotes_snd (cfg : ConsensusConfig) (c : CliqueConsensus) :
    ∃ db, (settleVotes cfg c).2 =
      { c with
        latestVotes := trimmedVotes cfg c.lastBlockNumber c.latestVotes, db := db } := by
  unfold settleVotes
  have hsnd := trimVotes_snd cfg c
  cases htrim : trimVotes cfg c with
  | mk r c₁ =>
    rw [htrim] at hsnd
    obtain rfl : c₁ = _ := hsnd
    cases r with
    | error e =>
      rw [Action.bind_of_error htrim]
      exact ⟨c.db, rfl⟩
    | ok u =>
      rw [Action.bind_of_ok htrim]
      exact ⟨_, rfl⟩

/-- **`cliqueUpdateVotes` of a header that votes**: the rounds, and the votes
are settled if there was no consensus. -/
theorem cliqueUpdateVotes_some (cfg : ConsensusConfig) (hvotes : header.coinbase.isZero = false) :
    cliqueUpdateVotes cfg (some header) =
      voteRounds cfg header >>= fun consensus => if consensus then pure () else settleVotes cfg := by
  unfold cliqueUpdateVotes
  rw [Option.filter_some, hvotes]
  rfl

theorem cliqueUpdateVotes_none (cfg : ConsensusConfig) {o : Option CliqueHeader}
    (hvotes : ∀ header ∈ o, header.coinbase.isZero = true) :
    cliqueUpdateVotes cfg o = settleVotes cfg := by
  unfold cliqueUpdateVotes
  cases o with
  | none => rfl
  | some header =>
    rw [Option.filter_some, hvotes header rfl]
    rfl

/-- **Where a state comes from after a vote**: it was there, or a tally reached
the limit, on the votes there were and maybe the new one. -/
theorem mem_states_cliqueUpdateVotes
    (hs : s ∈ (cliqueUpdateVotes cfg (some header) c).2.latestSignerStates) :
    s ∈ c.latestSignerStates ∨ header.coinbase.isZero = false ∧ c.known s = false ∧
      ∃ signer lastEpochBlockNumber activeSigners c₁ round,
        Voting cfg header c signer lastEpochBlockNumber activeSigners ∧
        (c₁ = c ∨ c₁ = c.withVote (header.vote signer)) ∧
        s = ⟨header.number, (c₁.tally (header.vote signer) lastEpochBlockNumber round
          activeSigners).activeSigners⟩ := by
  cases hvotes : header.coinbase.isZero with
  | true =>
    rw [cliqueUpdateVotes_none cfg fun h hh => by rw [← Option.some.inj hh, hvotes]] at hs
    obtain ⟨db, hsnd⟩ := settleVotes_snd cfg c
    rw [hsnd] at hs
    exact .inl hs
  | false =>
    rw [cliqueUpdateVotes_some cfg hvotes] at hs
    have houtcome := voteRounds_outcome cfg header c
    cases hrounds : voteRounds cfg header c with
    | mk r c' =>
      rw [hrounds] at houtcome
      dsimp only at houtcome
      cases houtcome with
      | threw e _ =>
        rw [Action.bind_of_error hrounds] at hs
        exact .inl hs
      | none h hfirst hsecond =>
        rw [Action.bind_of_ok hrounds] at hs
        obtain ⟨db, hsnd⟩ := settleVotes_snd cfg (c.withVote (header.vote _))
        change s ∈ (settleVotes cfg _).2.latestSignerStates at hs
        rw [hsnd] at hs
        exact .inl hs
      | first h hconsensus hc' =>
        rw [Action.bind_of_ok hrounds] at hs
        obtain ⟨db, hsnd⟩ := cliqueUpdateSignerStates_snd _ _
        rw [hc'] at hs
        change s ∈ (cliqueUpdateSignerStates _ _).2.latestSignerStates at hs
        rw [hsnd] at hs
        rcases mem_updatedStates hs with hold | ⟨hnew, hknown⟩
        · exact .inl hold
        · exact .inr ⟨rfl, hknown, _, _, _, c, 1, h, .inl rfl, (Option.some.inj hnew).symm⟩
      | second h hfirst hconsensus hc' =>
        rw [Action.bind_of_ok hrounds] at hs
        obtain ⟨db, hsnd⟩ := cliqueUpdateSignerStates_snd _ _
        rw [hc'] at hs
        change s ∈ (cliqueUpdateSignerStates _ _).2.latestSignerStates at hs
        rw [hsnd] at hs
        rcases mem_updatedStates hs with hold | ⟨hnew, hknown⟩
        · exact .inl hold
        · exact .inr ⟨rfl, hknown, _, _, _, _, 2, h, .inr rfl, (Option.some.inj hnew).symm⟩

end TsEthereum.Clique
