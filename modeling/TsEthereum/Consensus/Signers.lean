import TsEthereum.Consensus.Votes
import TsEthereum.Common.Runs

/-!
# The signer lists

A tally adds the coinbase to the signers or drops it, and counts votes by
address. That the lists stay sorted and free of duplicates, and change by a
majority of the signers only, is then up to the votes: who is counted has to
be a signer, and the `AUTH` votes must not reach the limit for one that is
(`signers_sound_of_run`). The code checks neither (`signer_authorized_twice`).
-/

namespace TsEthereum.Clique

open TsEthereum

variable {cfg : ConsensusConfig} {c : CliqueConsensus} {header : CliqueHeader}
variable {s : CliqueSignerState}

/-- **A call that changes the lists.** -/
inductive Op where
  | updateVotes (header : CliqueHeader)
  | updateLatestBlockSigners (header : CliqueHeader)
  | deleteSnapshots (blockNumber : ℕ)

/-- The method that is called. -/
def Op.method (cfg : ConsensusConfig) : Op → Method Unit
  | updateVotes header => cliqueUpdateVotes cfg (some header)
  | updateLatestBlockSigners header => cliqueUpdateLatestBlockSigners (some header)
  | deleteSnapshots blockNumber => cliqueDeleteSnapshots cfg blockNumber

/-- What a call leaves, however it ends. -/
def CliqueConsensus.after (cfg : ConsensusConfig) (c : CliqueConsensus) (op : Op) :
    CliqueConsensus := (op.method cfg c).2

/-- The consensus once the genesis signers are saved. -/
def started (cfg : ConsensusConfig) (signers : List Address) : CliqueConsensus :=
  (cliqueSaveGenesisSigners cfg signers .empty).2

/-- **Every signer list is sorted by address and free of duplicates.** -/
def SignersSorted (c : CliqueConsensus) : Prop :=
  ∀ s ∈ c.latestSignerStates, s.signers.Pairwise (· < ·)

/-- **A majority of the signers has a standing vote** of a kind on the
beneficiary of the new vote, that included. -/
def Majority (votes : List CliqueVote) (latestVote : CliqueVote) (lastEpochBlockNumber : ℕ)
    (activeSigners : List Address) (cliqueNonce : Bytes) : Prop :=
  activeSigners.length / 2 + 1 ≤ (activeSigners.toFinset.filter
    (Standing (votes ++ [latestVote]) latestVote.beneficiary lastEpochBlockNumber
      cliqueNonce)).card

/-- **What a new state changes of the active signers is voted for**: it adds
the coinbase, with a majority to authorize it, or drops it, with one to drop
it. -/
def Justified (cfg : ConsensusConfig) (c : CliqueConsensus) (header : CliqueHeader)
    (s : CliqueSignerState) : Prop :=
  ∃ signer lastEpochBlockNumber activeSigners,
    Voting cfg header c signer lastEpochBlockNumber activeSigners ∧
    (∀ a ∈ s.signers, a ∉ activeSigners → a = header.coinbase ∧ Majority c.latestVotes
      (header.vote signer) lastEpochBlockNumber activeSigners CLIQUE_NONCE_AUTH) ∧
    ∀ a ∈ activeSigners, a ∉ s.signers → a = header.coinbase ∧ Majority c.latestVotes
      (header.vote signer) lastEpochBlockNumber activeSigners CLIQUE_NONCE_DROP

/-- Every state that a call adds is. -/
def Op.JustifiesStates (cfg : ConsensusConfig) (c : CliqueConsensus) (op : Op) : Prop :=
  ∀ s ∈ (c.after cfg op).latestSignerStates, s ∉ c.latestSignerStates →
    ∃ header, op = .updateVotes header ∧ Justified cfg c header s

/-- **What a vote has to find**, where there is no state of its number: whoever
has a standing vote on the coinbase is an active signer, and if the `AUTH`
votes reach the limit, the coinbase is none. -/
def VoteSound (cfg : ConsensusConfig) (c : CliqueConsensus) (header : CliqueHeader) : Prop :=
  header.coinbase.isZero = false →
    (∀ s ∈ c.latestSignerStates, s.blockNumber ≠ header.number) →
    ∀ signer lastEpochBlockNumber activeSigners,
      Voting cfg header c signer lastEpochBlockNumber activeSigners →
      (∀ cliqueNonce ∈ [CLIQUE_NONCE_AUTH, CLIQUE_NONCE_DROP], ∀ a,
        Standing (c.latestVotes ++ [header.vote signer]) header.coinbase lastEpochBlockNumber
          cliqueNonce a → a ∈ activeSigners) ∧
      (activeSigners.length / 2 + 1 ≤ numBeneficiaryVotes c.latestVotes (header.vote signer)
        lastEpochBlockNumber 2 CLIQUE_NONCE_AUTH → header.coinbase ∉ activeSigners)

/-- What a call has to find. -/
def Op.Sound (cfg : ConsensusConfig) (c : CliqueConsensus) : Op → Prop
  | updateVotes header => VoteSound cfg c header
  | _ => True

/-! ## One call -/

theorem cliqueActiveSigners_cases {blockNum : ℕ} {signers : List Address}
    (h : c.cliqueActiveSigners blockNum = .ok signers) :
    signers = [] ∨ ∃ s ∈ c.latestSignerStates, s.signers = signers := by
  unfold CliqueConsensus.cliqueActiveSigners at h
  split at h
  · exact .inl (Except.ok.inj h).symm
  · split at h
    · next s hfind =>
      exact .inr ⟨s, List.mem_reverse.1 (List.mem_of_find?_eq_some hfind), Except.ok.inj h⟩
    · cases h

theorem SignersSorted.active (h : SignersSorted c) {blockNum : ℕ} {signers : List Address}
    (hactive : c.cliqueActiveSigners blockNum = .ok signers) : signers.Pairwise (· < ·) := by
  rcases cliqueActiveSigners_cases hactive with rfl | ⟨s, hs, rfl⟩
  · exact List.Pairwise.nil
  · exact h s hs

theorem lastEpochBlockNumber_le {blockNumber lastEpochBlockNumber : ℕ}
    (h : cfg.lastEpochBlockNumber blockNumber = .ok lastEpochBlockNumber) :
    lastEpochBlockNumber ≤ blockNumber := by
  unfold ConsensusConfig.lastEpochBlockNumber at h
  split at h
  · cases h
  · cases h
  · rw [← Except.ok.inj h]
    exact Nat.sub_le _ _

/-- **A vote that is sound keeps the lists sorted**, and what it changes is
voted for. -/
theorem VoteSound.step (h : SignersSorted c) (hsound : VoteSound cfg c header)
    (hs : s ∈ (cliqueUpdateVotes cfg (some header) c).2.latestSignerStates)
    (hnew : s ∉ c.latestSignerStates) :
    s.signers.Pairwise (· < ·) ∧ Justified cfg c header s := by
  rcases mem_states_cliqueUpdateVotes hs with hold | ⟨hvotes, hknown, signer, lastEpochBlockNumber,
    activeSigners, c₁, round, hvoting, hc₁, rfl⟩
  · exact absurd hold hnew
  have hfree : ∀ s' ∈ c.latestSignerStates, s'.blockNumber ≠ header.number := by
    simpa [CliqueConsensus.known] using hknown
  obtain ⟨hstanding, hauth⟩ := hsound hvotes hfree _ _ _ hvoting
  have hvote : ∀ vote ∈ c₁.latestVotes, vote ∈ c.latestVotes ++ [header.vote signer] := by
    rcases hc₁ with rfl | rfl
    · exact fun vote hvote => List.mem_append_left _ hvote
    · exact fun vote hvote => hvote
  have hsecond : numBeneficiaryVotes c₁.latestVotes (header.vote signer) lastEpochBlockNumber round
      CLIQUE_NONCE_AUTH ≤ numBeneficiaryVotes c.latestVotes (header.vote signer)
        lastEpochBlockNumber 2 CLIQUE_NONCE_AUTH := by
    rcases hc₁ with rfl | rfl
    · exact numBeneficiaryVotes_le_second
    · rw [CliqueConsensus.withVote, numBeneficiaryVotes_concat]
      exact numBeneficiaryVotes_le_second
  -- who is counted is a signer, and has a standing vote
  have hmajority {votes : List CliqueVote} (hsub : ∀ vote ∈ votes, vote ∈ c₁.latestVotes)
      {cliqueNonce : Bytes} (hkind : cliqueNonce ∈ [CLIQUE_NONCE_AUTH, CLIQUE_NONCE_DROP])
      (hlimit : activeSigners.length / 2 + 1 ≤ numBeneficiaryVotes votes (header.vote signer)
        lastEpochBlockNumber round cliqueNonce) :
      Majority c.latestVotes (header.vote signer) lastEpochBlockNumber activeSigners cliqueNonce :=
    hlimit.trans (numBeneficiaryVotes_le (fun vote hmem => hvote vote (hsub vote hmem))
      (List.mem_append_right _ (List.mem_singleton_self _)) (lastEpochBlockNumber_le hvoting.epoch)
      fun a ha => List.mem_toFinset.2 (hstanding cliqueNonce hkind a ha))
  refine ⟨Tally.sorted_drop (Tally.sorted_auth (h.active hvoting.active) fun hlimit =>
    hauth (hlimit.trans hsecond)), signer, lastEpochBlockNumber, activeSigners, hvoting, ?_, ?_⟩
  · intro a ha hnot
    rcases Tally.mem_auth.1 (Tally.mem_drop.1 ha).1 with hold | ⟨hlimit, rfl⟩
    · exact absurd hold hnot
    · exact ⟨rfl, hmajority (fun vote hmem => hmem) (by simp) hlimit⟩
  · intro a ha hnot
    rw [CliqueConsensus.tally, Tally.mem_drop, not_and_not_right] at hnot
    obtain ⟨hlimit, rfl⟩ := hnot (Tally.mem_auth.2 (.inl ha))
    exact ⟨rfl, hmajority (fun vote hmem => Tally.mem_of_mem_auth hmem) (by simp) hlimit⟩

/-- **A method that adds no state**, however it ends. -/
def StatesWithin {α : Type} (p : Method α) : Prop :=
  ∀ c, ∀ s ∈ (p c).2.latestSignerStates, s ∈ c.latestSignerStates

theorem StatesWithin.bind {α β : Type} {p : Method α} {f : α → Method β} (hp : StatesWithin p)
    (hf : ∀ a, StatesWithin (f a)) : StatesWithin (p >>= f) := by
  intro c s hs
  cases hpc : p c with
  | mk r c' =>
    have hwithin := hp c s
    rw [hpc] at hwithin
    cases r with
    | error e =>
      rw [Action.bind_of_error hpc] at hs
      exact hwithin hs
    | ok a =>
      rw [Action.bind_of_ok hpc] at hs
      exact hwithin (hf a c' s hs)

theorem StatesWithin.modify {f : CliqueConsensus → CliqueConsensus}
    (h : ∀ c, ∀ s ∈ (f c).latestSignerStates, s ∈ c.latestSignerStates) :
    StatesWithin (Action.modify f) := h

theorem StatesWithin.ofExcept {α : Type} (x : Except CliqueError α) :
    StatesWithin (ofExcept x) := fun _ _ hs => hs

theorem StatesWithin.pure {α : Type} (a : α) : StatesWithin (pure a) := fun _ _ hs => hs

theorem statesWithin_cliqueUpdateLatestBlockSigners (o : Option CliqueHeader) :
    StatesWithin (cliqueUpdateLatestBlockSigners o) := by
  cases o with
  | none => exact .modify fun _ _ hs => hs
  | some header =>
    unfold cliqueUpdateLatestBlockSigners
    dsimp only
    split
    · exact .pure ()
    · refine .bind ?_ fun _ => .modify fun _ _ hs => hs
      refine .bind (.ofExcept _) fun signer => .bind (.modify fun _ _ hs => hs) fun _ => ?_
      refine .bind (fun _ _ hs => hs) fun c => .bind (.ofExcept _) fun limit => ?_
      split
      · exact .modify fun _ _ hs => hs
      · exact .pure ()

theorem statesWithin_cliqueDeleteSnapshots (cfg : ConsensusConfig) (blockNumber : ℕ) :
    StatesWithin (cliqueDeleteSnapshots cfg blockNumber) := by
  refine .bind (.modify fun _ _ hs => List.mem_of_mem_filter hs) fun _ => ?_
  refine .bind (fun c s hs => ?_) fun _ => .bind (.modify fun _ _ hs => hs) fun _ => ?_
  · obtain ⟨db, hsnd⟩ := cliqueUpdateSignerStates_snd none c
    rw [hsnd] at hs
    rcases mem_updatedStates (c := c) (o := none) hs with hold | ⟨hnone, -⟩
    · exact hold
    · cases hnone
  · refine .bind (fun c s hs => ?_) fun _ => .bind (.modify fun _ _ hs => hs) fun _ =>
      statesWithin_cliqueUpdateLatestBlockSigners none
    obtain ⟨db, hsnd⟩ := settleVotes_snd cfg c
    rw [cliqueUpdateVotes_none cfg (fun header h => by cases h), hsnd] at hs
    exact hs

theorem Op.Sound.step (h : SignersSorted c) {op : Op} (hsound : op.Sound cfg c) :
    SignersSorted (c.after cfg op) ∧ op.JustifiesStates cfg c := by
  cases op with
  | updateVotes header =>
    refine ⟨fun s hs => ?_, fun s hs hnew => ⟨header, rfl, (VoteSound.step h hsound hs hnew).2⟩⟩
    by_cases hold : s ∈ c.latestSignerStates
    · exact h s hold
    · exact (VoteSound.step h hsound hs hold).1
  | updateLatestBlockSigners header =>
    have hwithin := statesWithin_cliqueUpdateLatestBlockSigners (some header) c
    exact ⟨fun s hs => h s (hwithin s hs), fun s hs hnew => absurd (hwithin s hs) hnew⟩
  | deleteSnapshots blockNumber =>
    have hwithin := statesWithin_cliqueDeleteSnapshots cfg blockNumber c
    exact ⟨fun s hs => h s (hwithin s hs), fun s hs hnew => absurd (hwithin s hs) hnew⟩

/-! ## Every run -/

theorem SignersSorted.started {signers : List Address} (h : signers.Pairwise (· < ·)) :
    SignersSorted (started cfg signers) := by
  intro s hs
  rw [List.mem_singleton.1 (show s ∈ [(⟨0, signers⟩ : CliqueSignerState)] from hs)]
  exact h

/-- **The signer lists**: in every run of calls that are sound, from a sorted
list of genesis signers without duplicates, every signer list is sorted and
without duplicates, and who is added or dropped has the votes of a majority
of the signers for it. -/
theorem signers_sound_of_run (cfg : ConsensusConfig) (genesisSigners : List Address)
    (ops : List Op) (hgenesis : genesisSigners.Pairwise (· < ·))
    (hsound : ∀ pre op, pre ++ [op] <+: ops →
      op.Sound cfg (pre.foldl (CliqueConsensus.after cfg) (started cfg genesisSigners))) :
    ∀ pre, pre <+: ops →
      SignersSorted (pre.foldl (CliqueConsensus.after cfg) (started cfg genesisSigners)) ∧
      ∀ op, pre ++ [op] <+: ops → op.JustifiesStates cfg
        (pre.foldl (CliqueConsensus.after cfg) (started cfg genesisSigners)) := by
  intro pre hpre
  have hsorted :
      SignersSorted (pre.foldl (CliqueConsensus.after cfg) (started cfg genesisSigners)) := by
    induction pre using List.reverseRecOn with
    | nil => exact .started hgenesis
    | append_singleton pre op ih =>
      rw [List.foldl_append, List.foldl_cons, List.foldl_nil]
      exact (Op.Sound.step (ih ((List.prefix_append pre [op]).trans hpre))
        (hsound pre op hpre)).1
  exact ⟨hsorted, fun op hop => (Op.Sound.step hsorted (hsound pre op hop)).2⟩

/-! ## Runs on three signers -/

/-- An address of a number below 256. -/
def addressOf (n : ℕ) : Address := ⟨List.replicate 19 0 ++ [UInt8.ofNat n], rfl⟩

/-- A header that a signer seals, with a vote. -/
def sealed (number signer coinbase : ℕ) (nonce : Bytes) : CliqueHeader :=
  ⟨number, addressOf coinbase, nonce, .ok (addressOf signer)⟩

/-- The epoch length is where both packages look for it. -/
def sampleConfig : ConsensusConfig := ⟨some 30000, some 30000⟩

/-- Two signers vote to authorize a third. -/
def authorizes : List Op :=
  [.updateVotes (sealed 1 1 3 CLIQUE_NONCE_AUTH), .updateVotes (sealed 2 2 3 CLIQUE_NONCE_AUTH)]

/-- The chain they are of, after some calls. -/
def afterCalls (genesisSigners : List ℕ) (ops : List Op) : CliqueConsensus :=
  ops.foldl (CliqueConsensus.after sampleConfig)
    (started sampleConfig (genesisSigners.map addressOf))

/-- Where all votes are by active signers a vote is sound, unless it authorizes
one of them. -/
theorem voteSound_of_votes (signer : Address) (activeSigners : List Address)
    {lastEpochBlockNumber : ℕ}
    (h : Voting cfg header c signer lastEpochBlockNumber activeSigners)
    (hvotes : ∀ vote ∈ c.latestVotes ++ [header.vote signer], vote.signer ∈ activeSigners)
    (hauth : activeSigners.length / 2 + 1 ≤ numBeneficiaryVotes c.latestVotes (header.vote signer)
      lastEpochBlockNumber 2 CLIQUE_NONCE_AUTH → header.coinbase ∉ activeSigners) :
    VoteSound cfg c header := by
  intro _ _ signer' lastEpochBlockNumber' activeSigners' h'
  obtain rfl : signer = signer' := Except.ok.inj (h.signer.symm.trans h'.signer)
  obtain rfl : lastEpochBlockNumber = lastEpochBlockNumber' :=
    Except.ok.inj (h.epoch.symm.trans h'.epoch)
  obtain rfl : activeSigners = activeSigners' := Except.ok.inj (h.active.symm.trans h'.active)
  refine ⟨fun cliqueNonce _ a ha => ?_, hauth⟩
  obtain ⟨vote, hvote, rfl, -⟩ := ha
  exact hvotes vote hvote

theorem signers_sound_of_run_authorizes :
    SignersSorted (afterCalls [1, 2] authorizes) ∧
      Op.JustifiesStates sampleConfig
        (afterCalls [1, 2] [.updateVotes (sealed 1 1 3 CLIQUE_NONCE_AUTH)])
        (.updateVotes (sealed 2 2 3 CLIQUE_NONCE_AUTH)) := by
  have hrun := signers_sound_of_run sampleConfig [addressOf 1, addressOf 2] authorizes
    (by decide +kernel) ?_
  · exact ⟨(hrun authorizes (List.prefix_refl _)).1,
      (hrun [.updateVotes (sealed 1 1 3 CLIQUE_NONCE_AUTH)] ⟨_, rfl⟩).2 _ (List.prefix_refl _)⟩
  · intro pre op hfirst
    rcases concat_prefix_cons.1 hfirst with ⟨rfl, rfl⟩ | ⟨pre', rfl, hsecond⟩
    · exact voteSound_of_votes (addressOf 1) [addressOf 1, addressOf 2]
        ⟨rfl, rfl, by decide +kernel⟩ (by decide +kernel) (by decide +kernel)
    · rcases concat_prefix_cons.1 hsecond with ⟨rfl, rfl⟩ | ⟨pre'', rfl, hthird⟩
      · exact voteSound_of_votes (addressOf 2) [addressOf 1, addressOf 2]
          ⟨rfl, rfl, by decide +kernel⟩ (by decide +kernel) (by decide +kernel)
      · simp at hthird

/-- **A signer that authorizes itself is in the list twice.** -/
theorem signer_authorized_twice :
    ¬ SignersSorted (afterCalls [1] [.updateVotes (sealed 1 1 1 CLIQUE_NONCE_AUTH)]) := by
  unfold SignersSorted
  decide +kernel

end TsEthereum.Clique
