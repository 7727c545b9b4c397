import TsEthereum.Consensus.Branch
import TsEthereum.Consensus.Signers
import TsEthereum.Rlp.RoundTrip

/-!
# Restarting

`setup` reads the three lists back from the database. Each is saved by the
method that changes it, but the votes are not where a change is decided
(`cliqueUpdateVotes` returns before), and the block signers are not where
their limit cannot be read. So long as no call ends there, a fresh
`CliqueConsensus` is the one that kept running (`restarts_of_run`).
-/

namespace TsEthereum.Clique

open TsEthereum

variable {cfg : ConsensusConfig} {c c' : CliqueConsensus} {header : CliqueHeader}

/-! ## Reading back -/

/-- What the database has never held. -/
def unreadable {α : Type} : Except CliqueError α := .error (.thrown "not as it was saved")

def bytesToBigInt : NestedUint8Array → Except CliqueError ℕ
  | .bytes b => .ok (ofBigEndian b)
  | .list _ => unreadable

/-- `new Address(bytes)`. -/
def newAddress : NestedUint8Array → Except CliqueError Address
  | .bytes b => if h : b.length = 20 then .ok ⟨b, h⟩ else .error (.thrown "Invalid address length")
  | .list _ => unreadable

/-- The decoded list, empty if there is none. -/
def savedItems : Option Bytes → Except CliqueError (List NestedUint8Array)
  | none => .ok []
  | some saved =>
    match Rlp.decode saved false with
    | .ok (.data (.list items)) => .ok items
    | .error e => .error (.thrown e.message)
    | _ => unreadable

def readSignerState : NestedUint8Array → Except CliqueError CliqueSignerState
  | .list [number, .list signers] => do
    pure ⟨← bytesToBigInt number, ← signers.mapM newAddress⟩
  | _ => unreadable

def readVote : NestedUint8Array → Except CliqueError CliqueVote
  | .list [number, .list [signer, beneficiary, .bytes nonce]] => do
    pure ⟨← bytesToBigInt number, ← newAddress signer, ← newAddress beneficiary, nonce⟩
  | _ => unreadable

def readBlockSigner : NestedUint8Array → Except CliqueError CliqueBlockSigner
  | .list [number, signer] => do
    pure ⟨← bytesToBigInt number, ← newAddress signer⟩
  | _ => unreadable

def getCliqueLatestSignerStates (db : CliqueDB) : Except CliqueError (List CliqueSignerState) := do
  (← savedItems db.cliqueSigners).mapM readSignerState

def getCliqueLatestVotes (db : CliqueDB) : Except CliqueError (List CliqueVote) := do
  (← savedItems db.cliqueVotes).mapM readVote

def getCliqueLatestBlockSigners (db : CliqueDB) : Except CliqueError (List CliqueBlockSigner) := do
  (← savedItems db.cliqueBlockSignersSnapshot).mapM readBlockSigner

/-- **`setup`** of a fresh `CliqueConsensus`. -/
def setup (db : CliqueDB) : Except CliqueError CliqueConsensus := do
  let states ← getCliqueLatestSignerStates db
  let votes ← getCliqueLatestVotes db
  let blockSigners ← getCliqueLatestBlockSigners db
  pure ⟨states.insertionSort fun a b => a.blockNumber ≤ b.blockNumber, votes, blockSigners, db⟩

/-! ## What is saved -/

/-- The states as they are saved. -/
def savedStates (states : List CliqueSignerState) : NestedUint8Array :=
  .list (states.map fun s => entry s.blockNumber (.list (s.signers.map fun a => .bytes a.bytes)))

/-- The votes. -/
def savedVotes (votes : List CliqueVote) : NestedUint8Array :=
  .list (votes.map fun v => entry v.blockNumber (.list [.bytes v.signer.bytes,
    .bytes v.beneficiary.bytes, .bytes v.cliqueNonce]))

/-- The block signers. -/
def savedBlockSigners (signers : List CliqueBlockSigner) : NestedUint8Array :=
  .list (signers.map fun b => entry b.blockNumber (.bytes b.signer.bytes))

theorem bytesToBigInt_number (n : ℕ) :
    bytesToBigInt (.bytes (if n = 0 then [0] else bigEndian n)) = .ok n := by
  rw [bytesToBigInt]
  split
  · next h =>
    rw [h]
    rfl
  · rw [ofBigEndian_bigEndian]

theorem newAddress_bytes (a : Address) : newAddress (.bytes a.bytes) = .ok a :=
  dif_pos a.length_eq

theorem mapM_map {α β : Type} {read : β → Except CliqueError α} {write : α → β}
    (h : ∀ a, read (write a) = .ok a) (l : List α) : (l.map write).mapM read = .ok l := by
  induction l with
  | nil => rfl
  | cons a l ih =>
    rw [List.map_cons, List.mapM_cons, h, ok_bind, ih]
    rfl

theorem readSignerState_entry (s : CliqueSignerState) :
    readSignerState (entry s.blockNumber (.list (s.signers.map fun a => .bytes a.bytes))) =
      .ok s := by
  rw [entry, readSignerState, bytesToBigInt_number, ok_bind, mapM_map newAddress_bytes]
  rfl

theorem readVote_entry (v : CliqueVote) :
    readVote (entry v.blockNumber (.list [.bytes v.signer.bytes, .bytes v.beneficiary.bytes,
      .bytes v.cliqueNonce])) = .ok v := by
  rw [entry, readVote, bytesToBigInt_number, newAddress_bytes, newAddress_bytes]
  rfl

theorem readBlockSigner_entry (b : CliqueBlockSigner) :
    readBlockSigner (entry b.blockNumber (.bytes b.signer.bytes)) = .ok b := by
  rw [entry, readBlockSigner, bytesToBigInt_number, newAddress_bytes]
  rfl

theorem savedItems_encode {items : List NestedUint8Array}
    (hfits : (Rlp.encode (.list items)).length < arrayBound) :
    savedItems (some (Rlp.encode (.list items))) = .ok items := by
  rw [savedItems, Rlp.decode_encode (hfits.trans (by decide))]

/-- **What the database has is what is in memory**, but the votes. Where there
is no epoch length there are none. -/
structure Stored (cfg : ConsensusConfig) (c : CliqueConsensus) : Prop where
  states : c.db.cliqueSigners = some (Rlp.encode (savedStates c.latestSignerStates))
  sorted : c.latestSignerStates.Pairwise fun a b => a.blockNumber < b.blockNumber
  signers : c.db.cliqueBlockSignersSnapshot =
      some (Rlp.encode (savedBlockSigners c.latestBlockSigners)) ∨
    c.db.cliqueBlockSignersSnapshot = none ∧ c.latestBlockSigners = []
  votes : ∀ n e, cfg.lastEpochBlockNumber n = .error e → c.latestVotes = []

/-- **So are the votes.** -/
def VotesStored (c : CliqueConsensus) : Prop :=
  c.db.cliqueVotes = some (Rlp.encode (savedVotes c.latestVotes))

/-- What is saved fits an array each. -/
structure Fits (c : CliqueConsensus) : Prop where
  states : (Rlp.encode (savedStates c.latestSignerStates)).length < arrayBound
  votes : (Rlp.encode (savedVotes c.latestVotes)).length < arrayBound
  signers : (Rlp.encode (savedBlockSigners c.latestBlockSigners)).length < arrayBound

/-- **A fresh `CliqueConsensus` that is set up is the one that kept running.** -/
def Restarts (c : CliqueConsensus) : Prop := Fits c → setup c.db = .ok c

theorem Stored.restarts (h : Stored cfg c) (hvotes : VotesStored c) : Restarts c := by
  intro hfits
  have hstates : getCliqueLatestSignerStates c.db = .ok c.latestSignerStates := by
    rw [getCliqueLatestSignerStates, h.states, savedStates, savedItems_encode hfits.states, ok_bind,
      mapM_map readSignerState_entry]
  have hread : getCliqueLatestVotes c.db = .ok c.latestVotes := by
    rw [getCliqueLatestVotes, show c.db.cliqueVotes = _ from hvotes, savedVotes,
      savedItems_encode hfits.votes, ok_bind, mapM_map readVote_entry]
  have hsigners : getCliqueLatestBlockSigners c.db = .ok c.latestBlockSigners := by
    rw [getCliqueLatestBlockSigners]
    rcases h.signers with hsome | ⟨hnone, hnil⟩
    · rw [hsome, savedBlockSigners, savedItems_encode hfits.signers, ok_bind,
        mapM_map readBlockSigner_entry]
    · rw [hnone, hnil]
      rfl
  have hsorted : c.latestSignerStates.insertionSort (fun a b => a.blockNumber ≤ b.blockNumber) =
      c.latestSignerStates :=
    List.Pairwise.insertionSort_eq (h.sorted.imp fun hlt => Nat.le_of_lt hlt)
  rw [setup, hstates, ok_bind, hread, ok_bind, hsigners, ok_bind, hsorted]
  rfl

/-! ## What the methods save -/

theorem cliqueUpdateSignerStates_eq (o : Option CliqueSignerState)
    (h : o = none → c.lastBlockNumber = none ∨ c.latestSignerStates ≠ []) :
    cliqueUpdateSignerStates o c = (.ok (),
      if o.any c.known then c
      else { c with
        latestSignerStates := c.updatedStates o
        db := { c.db with
          cliqueSigners := some (Rlp.encode (savedStates (c.updatedStates o))) } }) := by
  unfold cliqueUpdateSignerStates CliqueConsensus.updatedStates
  rw [Action.bind_of_ok (Action.getState_apply c)]
  split
  · rfl
  · rw [Action.bind_of_ok (Action.modify_apply _ c)]
    have hsame : (o.elim c c.withSignerState).lastBlockNumber = c.lastBlockNumber := by
      rcases o with _ | signerState
      · rfl
      · rfl
    have htrim : (trimSignerStates (o.elim c c.withSignerState)).1 = .ok () := by
      rcases o with _ | signerState
      · rcases h rfl with hnone | hne
        · unfold trimSignerStates
          rw [Action.bind_of_ok (Action.getState_apply _), Option.elim_none, hnone]
          rfl
        · exact trimSignerStates_fst hne
      · refine trimSignerStates_fst (List.ne_nil_of_mem (a := signerState) ?_)
        exact (List.mem_insertionSort _).2 (List.mem_append_right _ (List.mem_singleton_self _))
    rw [Action.bind_of_ok (Prod.ext htrim (trimSignerStates_snd _)), hsame]
    rcases o with _ | signerState
    · rfl
    · rfl

/-- **The votes are saved** as they are settled, or nothing is changed where
the epoch block is not known. -/
theorem settleVotes_cases (cfg : ConsensusConfig) (c : CliqueConsensus) :
    (∃ n e, cfg.lastEpochBlockNumber n = .error e ∧ settleVotes cfg c = (.error e, c)) ∨
      settleVotes cfg c = (.ok (), { c with
        latestVotes := trimmedVotes cfg c.lastBlockNumber c.latestVotes
        db := { c.db with
          cliqueVotes := some (Rlp.encode
            (savedVotes (trimmedVotes cfg c.lastBlockNumber c.latestVotes))) } }) := by
  unfold settleVotes trimVotes trimmedVotes
  rcases hlast : c.lastBlockNumber with _ | n
  · right
    rw [Action.bind_apply, Action.bind_of_ok (Action.getState_apply c), hlast]
    rfl
  · rcases hepoch : cfg.lastEpochBlockNumber n with e | lastEpochBlockNumber
    · left
      refine ⟨n, e, hepoch, ?_⟩
      rw [Action.bind_apply, Action.bind_of_ok (Action.getState_apply c), hlast]
      dsimp only
      rw [hepoch]
      rfl
    · right
      rw [Action.bind_apply, Action.bind_of_ok (Action.getState_apply c), hlast]
      dsimp only
      rw [hepoch, Option.map_some, hepoch]
      rfl

theorem lastEpochBlockNumber_ok {n lastEpochBlockNumber : ℕ}
    (h : cfg.lastEpochBlockNumber n = .ok lastEpochBlockNumber) (m : ℕ) (e : CliqueError) :
    cfg.lastEpochBlockNumber m ≠ .error e := by
  unfold ConsensusConfig.lastEpochBlockNumber at h ⊢
  rcases hcfg : cfg.epoch with _ | _ | epoch
  · rw [hcfg] at h
    cases h
  · rw [hcfg] at h
    cases h
  · rintro ⟨⟩

theorem trimmedStates_sublist (lastBlockNumber : Option ℕ) (states : List CliqueSignerState) :
    (trimmedStates lastBlockNumber states).Sublist states := by
  unfold trimmedStates
  split
  · exact List.Sublist.refl _
  · split
    · rcases List.eq_nil_or_concat states with rfl | ⟨states, last, rfl⟩
      · exact List.Sublist.refl _
      · rw [List.concat_eq_append, List.getLast?_concat, Option.toList_some]
        exact List.sublist_append_right _ _
    · exact List.filter_sublist

theorem sorted_updatedStates
    (h : c.latestSignerStates.Pairwise fun a b => a.blockNumber < b.blockNumber)
    (o : Option CliqueSignerState) :
    (c.updatedStates o).Pairwise fun a b => a.blockNumber < b.blockNumber := by
  unfold CliqueConsensus.updatedStates
  split
  · exact h
  · next hknown =>
    refine List.Pairwise.sublist (trimmedStates_sublist _ _) ?_
    rcases o with _ | new
    · exact h
    · have hfree : ∀ s ∈ c.latestSignerStates, s.blockNumber ≠ new.blockNumber := by
        simpa [CliqueConsensus.known] using hknown
      have hnodup : ((c.latestSignerStates ++ [new]).map CliqueSignerState.blockNumber).Nodup := by
        rw [List.map_append, List.map_singleton]
        refine List.nodup_append.2 ⟨(List.pairwise_map.2 (h.imp ne_of_lt)), List.nodup_singleton _, ?_⟩
        intro n hn m hm
        obtain ⟨s, hs, rfl⟩ := List.mem_map.1 hn
        rw [List.mem_singleton.1 hm]
        exact hfree s hs
      have hperm := List.perm_insertionSort
        (fun a b : CliqueSignerState => a.blockNumber ≤ b.blockNumber) (c.latestSignerStates ++ [new])
      have hdistinct := List.pairwise_map.1 ((hperm.map CliqueSignerState.blockNumber).nodup_iff.2 hnodup)
      exact ((List.pairwise_insertionSort
        (fun a b : CliqueSignerState => a.blockNumber ≤ b.blockNumber) _).and hdistinct).imp
          fun hboth => lt_of_le_of_ne hboth.1 hboth.2

theorem Stored.withVotes (h : Stored cfg c) {n lastEpochBlockNumber : ℕ}
    (hepoch : cfg.lastEpochBlockNumber n = .ok lastEpochBlockNumber) (votes : List CliqueVote) :
    Stored cfg { c with latestVotes := votes } :=
  ⟨h.states, h.sorted, h.signers, fun m e hm => absurd hm (lastEpochBlockNumber_ok hepoch m e)⟩

/-- What is stored stays so where the states are updated. -/
theorem Stored.updateSignerStates (h : Stored cfg c) (signerState : CliqueSignerState) :
    Stored cfg (cliqueUpdateSignerStates (some signerState) c).2 := by
  rw [cliqueUpdateSignerStates_eq _ fun hnone => by cases hnone]
  dsimp only
  split
  · exact h
  · exact ⟨rfl, sorted_updatedStates h.sorted _, h.signers, h.votes⟩

/-- And where the votes are settled; they are stored then, too, unless nothing
is changed. -/
theorem Stored.settle (h : Stored cfg c) : Stored cfg (settleVotes cfg c).2 ∧
    (VotesStored (settleVotes cfg c).2 ∨ (settleVotes cfg c).1 ≠ .ok () ∧
      (settleVotes cfg c).2 = c) := by
  rcases settleVotes_cases cfg c with ⟨n, e, -, heq⟩ | heq
  · rw [heq]
    exact ⟨h, .inr ⟨by rintro ⟨⟩, rfl⟩⟩
  · rw [heq]
    refine ⟨⟨h.states, h.sorted, h.signers, fun n e hepoch => ?_⟩, .inl rfl⟩
    dsimp only
    rw [h.votes n e hepoch]
    unfold trimmedVotes
    split
    · rfl
    · rfl

/-- **Counting a vote keeps what is stored**; the votes are stored then, unless
a change was decided or nothing is changed. -/
theorem Stored.updateVotes (h : Stored cfg c) (header : CliqueHeader) :
    Stored cfg (cliqueUpdateVotes cfg (some header) c).2 ∧
      (Undecided cfg c header → VotesStored (cliqueUpdateVotes cfg (some header) c).2 ∨
        (cliqueUpdateVotes cfg (some header) c).1 ≠ .ok () ∧
          (cliqueUpdateVotes cfg (some header) c).2 = c) ∧
      ((cliqueUpdateVotes cfg (some header) c).1 ≠ .ok () →
        (cliqueUpdateVotes cfg (some header) c).2 = c) := by
  rcases hvotes : header.coinbase.isZero with _ | _
  · rw [cliqueUpdateVotes_some cfg hvotes]
    have houtcome := voteRounds_outcome cfg header c
    rcases hrounds : voteRounds cfg header c with ⟨r, c₁⟩
    rw [hrounds] at houtcome
    dsimp only at houtcome
    cases houtcome with
    | threw e _ =>
      rw [Action.bind_of_error hrounds]
      exact ⟨h, fun _ => .inr ⟨by rintro ⟨⟩, rfl⟩, fun _ => rfl⟩
    | first hvoting hconsensus hc' =>
      have hstored : Stored cfg c₁ := by
        rw [hc']
        exact (h.withVotes hvoting.epoch _).updateSignerStates _
      rw [Action.bind_of_ok hrounds]
      refine ⟨hstored, fun hundecided => ?_, fun hfailed => absurd rfl hfailed⟩
      rw [((undecided_iff hvoting hvotes).1 hundecided).1] at hconsensus
      cases hconsensus
    | second hvoting hfirst hconsensus hc' =>
      have hstored : Stored cfg c₁ := by
        rw [hc']
        exact (h.withVotes hvoting.epoch _).updateSignerStates _
      rw [Action.bind_of_ok hrounds]
      refine ⟨hstored, fun hundecided => ?_, fun hfailed => absurd rfl hfailed⟩
      rw [((undecided_iff hvoting hvotes).1 hundecided).2] at hconsensus
      cases hconsensus
    | none hvoting hfirst hsecond =>
      rw [Action.bind_of_ok hrounds]
      rcases settleVotes_cases cfg (c.withVote (header.vote _)) with ⟨n, e, hepoch, -⟩ | heq
      · exact absurd hepoch (lastEpochBlockNumber_ok hvoting.epoch n e)
      · change Stored cfg (settleVotes cfg _).2 ∧ (_ → VotesStored (settleVotes cfg _).2 ∨ _) ∧
          ((settleVotes cfg _).1 ≠ _ → _)
        rw [heq]
        exact ⟨⟨h.states, h.sorted, h.signers,
          fun n e hepoch => absurd hepoch (lastEpochBlockNumber_ok hvoting.epoch n e)⟩,
          fun _ => .inl rfl, fun hfailed => absurd rfl hfailed⟩
  · rw [cliqueUpdateVotes_none cfg fun h' hh => by rw [← Option.some.inj hh, hvotes]]
    obtain ⟨hstored, hsettled⟩ := h.settle
    refine ⟨hstored, fun _ => hsettled, fun hfailed => ?_⟩
    rcases settleVotes_cases cfg c with ⟨n, e, -, heq⟩ | heq
    · rw [heq]
    · rw [heq] at hfailed
      exact absurd rfl hfailed

/-- **The block signers are saved** as one is pushed, if the limit can be
read. -/
theorem Stored.push (h : Stored cfg c) (header : CliqueHeader)
    (hloads : header.number ≠ 0 → ∀ signer, header.cliqueSigner = .ok signer →
      ∃ signers, c.cliqueActiveSigners header.number = .ok signers) :
    Stored cfg (cliqueUpdateLatestBlockSigners (some header) c).2 ∧
      (VotesStored c → VotesStored (cliqueUpdateLatestBlockSigners (some header) c).2) := by
  unfold cliqueUpdateLatestBlockSigners
  dsimp only
  split
  · exact ⟨h, id⟩
  · next hn =>
    rcases hsigner : header.cliqueSigner with e | signer
    · have hpush : pushBlockSigner header c = (.error e, c) := by
        unfold pushBlockSigner
        rw [hsigner]
        rfl
      rw [Action.bind_of_error hpush]
      exact ⟨h, id⟩
    · obtain ⟨signers, hactive⟩ := hloads hn signer hsigner
      rw [Action.bind_of_ok (pushBlockSigner_eq (by rw [CliqueHeader.signer, hsigner]; rfl) hactive)]
      exact ⟨⟨h.states, h.sorted, .inl rfl, h.votes⟩, id⟩

/-- All three lists are stored. -/
structure AllStored (cfg : ConsensusConfig) (c : CliqueConsensus) : Prop extends Stored cfg c where
  votesStored : VotesStored c

theorem AllStored.deleteStates (h : AllStored cfg c) {n : ℕ}
    (hleft : c.lastBlockNumber = none ∨ ∃ s ∈ c.latestSignerStates, s.blockNumber ≤ n) :
    AllStored cfg (cliqueUpdateSignerStates none { c with
      latestSignerStates := c.latestSignerStates.filter fun s => s.blockNumber ≤ n }).2 := by
  have hne : c.lastBlockNumber = none ∨
      c.latestSignerStates.filter (fun s => s.blockNumber ≤ n) ≠ [] := by
    refine hleft.imp id fun hs => ?_
    obtain ⟨s, hmem, hle⟩ := hs
    exact List.ne_nil_of_mem (List.mem_filter.2 ⟨hmem, decide_eq_true hle⟩)
  rw [cliqueUpdateSignerStates_eq none fun _ => hne]
  exact ⟨⟨rfl, sorted_updatedStates (h.sorted.filter _) none, h.signers, h.votes⟩, h.votesStored⟩

theorem AllStored.deleteVotes (h : AllStored cfg c) (n : ℕ) :
    AllStored cfg (settleVotes cfg { c with
      latestVotes := c.latestVotes.filter fun v => v.blockNumber ≤ n }).2 := by
  rcases settleVotes_cases cfg { c with
    latestVotes := c.latestVotes.filter fun v => v.blockNumber ≤ n } with ⟨m, e, hepoch, heq⟩ | heq
  · -- where the epoch block is not known there was none
    have hnone := h.votes m e hepoch
    rw [heq]
    have hsame : { c with latestVotes := c.latestVotes.filter fun v => v.blockNumber ≤ n } = c := by
      rw [hnone, List.filter_nil, ← hnone]
    rw [hsame]
    exact h
  · have hstored := (show Stored cfg { c with
        latestVotes := c.latestVotes.filter fun v => v.blockNumber ≤ n } from
      ⟨h.states, h.sorted, h.signers, fun m e hepoch => by
        dsimp only
        rw [h.votes m e hepoch, List.filter_nil]⟩).settle.1
    refine ⟨hstored, ?_⟩
    rw [heq]
    rfl

theorem AllStored.delete (h : AllStored cfg c) {n : ℕ}
    (hleft : c.lastBlockNumber = none ∨ ∃ s ∈ c.latestSignerStates, s.blockNumber ≤ n) :
    AllStored cfg (cliqueDeleteSnapshots cfg n c).2 := by
  refine Action.Triple.snd (.bind (.modify (Q := fun _ c₁ => c₁ = { c with
    latestSignerStates := c.latestSignerStates.filter fun s => s.blockNumber ≤ n }) rfl) ?_)
  rintro _ _ rfl
  refine .bind (.of_snd (h.deleteStates hleft)) fun _ c₂ h₂ => ?_
  refine .bind (.modify (Q := fun _ c₃ => c₃ = { c₂ with
    latestVotes := c₂.latestVotes.filter fun v => v.blockNumber ≤ n }) rfl) ?_
  rintro _ _ rfl
  rw [cliqueUpdateVotes_none cfg fun header hh => by cases hh]
  refine .bind (.of_snd (h₂.deleteVotes n)) fun _ c₄ h₄ => ?_
  refine .bind (.modify (Q := fun _ c₅ => c₅ = { c₄ with
    latestBlockSigners := c₄.latestBlockSigners.filter fun b => b.blockNumber ≤ n }) rfl) ?_
  rintro _ _ rfl
  exact .modify ⟨⟨h₄.states, h₄.sorted, .inl rfl, h₄.votes⟩, h₄.votesStored⟩

/-! ## What a call has to find -/

/-- The vote of a header is counted, unless that is an epoch block. -/
def countVote (cfg : ConsensusConfig) (header : CliqueHeader) : Method Unit := do
  if ← ofExcept (cliqueIsEpochTransition cfg header) then pure ()
  else cliqueUpdateVotes cfg (some header)

theorem cliqueBuildSnapshots_eq (cfg : ConsensusConfig) (header : CliqueHeader)
    (c : CliqueConsensus) : cliqueBuildSnapshots cfg header c =
      (countVote cfg header >>= fun _ => cliqueUpdateLatestBlockSigners (some header)) c := by
  unfold cliqueBuildSnapshots countVote
  rcases cliqueIsEpochTransition cfg header with e | _ | _
  · rfl
  · rfl
  · rfl

/-- A block that is built votes without a change being decided, or one after it
does. -/
def SavesLater (cfg : ConsensusConfig)
    (getCanonicalHeader : ℕ → Except CliqueError CliqueHeader) : List ℕ → CliqueConsensus → Prop
  | [], _ => False
  | number :: numbers, c => ∃ header c', getCanonicalHeader number = .ok header ∧
      cliqueBuildSnapshots cfg header c = (.ok (), c') ∧
        (cliqueIsEpochTransition cfg header = .ok false ∧ Undecided cfg c header ∨
          SavesLater cfg getCanonicalHeader numbers c')

/-- **What the loop has to find** at each block: the signers at its number can
be read once its vote is counted, and it decides no change, unless a later
block of the loop saves the votes. -/
def LoopSaves (cfg : ConsensusConfig)
    (getCanonicalHeader : ℕ → Except CliqueError CliqueHeader) : List ℕ → CliqueConsensus → Prop
  | [], _ => True
  | number :: numbers, c => ∀ header, getCanonicalHeader number = .ok header →
      (∀ c₁, countVote cfg header c = (.ok (), c₁) → header.number ≠ 0 →
        ∀ signer, header.cliqueSigner = .ok signer →
          ∃ signers, c₁.cliqueActiveSigners header.number = .ok signers) ∧
      (cliqueIsEpochTransition cfg header = .ok false → Undecided cfg c header ∨
        ∃ c', cliqueBuildSnapshots cfg header c = (.ok (), c') ∧
          SavesLater cfg getCanonicalHeader numbers c') ∧
      ∀ c', cliqueBuildSnapshots cfg header c = (.ok (), c') →
        LoopSaves cfg getCanonicalHeader numbers c'

/-- **A call of `newBlock`.** -/
structure NewBlock where
  getCanonicalHeader : ℕ → Except CliqueError CliqueHeader
  header : CliqueHeader
  commonAncestor : Option CliqueHeader

/-- What it leaves, however it ends. -/
def CliqueConsensus.afterNewBlock (cfg : ConsensusConfig) (c : CliqueConsensus) (call : NewBlock) :
    CliqueConsensus :=
  (newBlock cfg call.getCanonicalHeader call.header call.commonAncestor c).2

/-- **What a call has to find**: a state that the deletion leaves, and then what
the loop has to. -/
def NewBlock.Saves (cfg : ConsensusConfig) (c : CliqueConsensus) (call : NewBlock) : Prop :=
  ∀ commonAncestor, call.commonAncestor = some commonAncestor →
    (c.lastBlockNumber = none ∨
      ∃ s ∈ c.latestSignerStates, s.blockNumber ≤ commonAncestor.number + 1) ∧
    ∀ c₁, cliqueDeleteSnapshots cfg (commonAncestor.number + 1) c = (.ok (), c₁) →
      LoopSaves cfg call.getCanonicalHeader
        (List.range' (commonAncestor.number + 1) (call.header.number - commonAncestor.number)) c₁

/-! ## Every call -/

theorem Stored.countVote (h : Stored cfg c) (header : CliqueHeader) :
    Stored cfg (countVote cfg header c).2 ∧
      (VotesStored c →
        (cliqueIsEpochTransition cfg header = .ok false → Undecided cfg c header) →
        VotesStored (countVote cfg header c).2) ∧
      (cliqueIsEpochTransition cfg header = .ok false → Undecided cfg c header →
        (countVote cfg header c).1 = .ok () → VotesStored (countVote cfg header c).2) ∧
      ((countVote cfg header c).1 ≠ .ok () → (countVote cfg header c).2 = c) := by
  unfold Clique.countVote
  rcases htransition : cliqueIsEpochTransition cfg header with e | _ | _
  · exact ⟨h, fun hvotes _ => hvotes, fun hfalse => (by cases hfalse), fun _ => rfl⟩
  · obtain ⟨hstored, hundecided, hfailed⟩ := h.updateVotes header
    refine ⟨hstored, fun hvotes hnot => ?_, fun _ hnot hok => ?_, hfailed⟩
    · rcases hundecided (hnot rfl) with hsaved | ⟨-, hsame⟩
      · exact hsaved
      · change VotesStored (cliqueUpdateVotes cfg (some header) c).2
        rw [hsame]
        exact hvotes
    · rcases hundecided hnot with hsaved | ⟨hthrew, -⟩
      · exact hsaved
      · exact absurd hok hthrew
  · exact ⟨h, fun hvotes _ => hvotes, fun hfalse => (by cases hfalse), fun _ => rfl⟩

/-- **The loop leaves all three lists stored**, if the votes are before or will
be. -/
theorem LoopSaves.allStored {getCanonicalHeader : ℕ → Except CliqueError CliqueHeader}
    {numbers : List ℕ} (hsaves : LoopSaves cfg getCanonicalHeader numbers c) (h : Stored cfg c)
    (hvotes : VotesStored c ∨ SavesLater cfg getCanonicalHeader numbers c) :
    AllStored cfg (buildCanonical cfg getCanonicalHeader numbers c).2 := by
  induction numbers generalizing c with
  | nil => exact ⟨h, hvotes.resolve_right id⟩
  | cons number numbers ih =>
    unfold buildCanonical
    rcases hget : getCanonicalHeader number with e | header
    · refine ⟨h, hvotes.resolve_right fun hlater => ?_⟩
      obtain ⟨header, c', hheader, -⟩ := hlater
      rw [hget] at hheader
      cases hheader
    · obtain ⟨hloads, hundecided, hrest⟩ := hsaves header hget
      obtain ⟨hstored, hkept, hsaved, hthrew⟩ := h.countVote header
      rw [Action.bind_of_ok (ofExcept_apply _ c)]
      have hbuild := cliqueBuildSnapshots_eq cfg header c
      -- where the votes are stored once the block is built, or later
      have hpending (c' : CliqueConsensus) (hok : cliqueBuildSnapshots cfg header c = (.ok (), c'))
          (hpush : VotesStored (countVote cfg header c).2 → VotesStored c') :
          VotesStored c' ∨ SavesLater cfg getCanonicalHeader numbers c' := by
        have hcounted : (countVote cfg header c).1 = .ok () := by
          rw [hbuild] at hok
          obtain ⟨u, c₁, hcount, -⟩ := Action.bind_eq_ok_iff.1 hok
          rw [hcount]
        rcases hvotes with hvotes | hlater
        · by_cases hdecided : cliqueIsEpochTransition cfg header = .ok false →
            Undecided cfg c header
          · exact .inl (hpush (hkept hvotes hdecided))
          · obtain ⟨htransition, hnot⟩ := Classical.not_imp.1 hdecided
            obtain ⟨c'', hok', hlater⟩ := (hundecided htransition).resolve_left hnot
            rw [hok] at hok'
            cases hok'
            exact .inr hlater
        · obtain ⟨header', c'', hget', hok', hlater⟩ := hlater
          rw [hget] at hget'
          cases hget'
          rw [hok] at hok'
          cases hok'
          rcases hlater with ⟨htransition, hnot⟩ | hlater
          · exact .inl (hpush (hsaved htransition hnot hcounted))
          · exact .inr hlater
      have hthrown (e : CliqueError) (c' : CliqueConsensus)
          (hfailed : cliqueBuildSnapshots cfg header c = (.error e, c')) :
          VotesStored c ∧ (cliqueIsEpochTransition cfg header = .ok false →
            Undecided cfg c header) := by
        constructor
        · refine hvotes.resolve_right fun hlater => ?_
          obtain ⟨header', c'', hget', hok', -⟩ := hlater
          rw [hget] at hget'
          cases hget'
          rw [hfailed] at hok'
          cases hok'
        · refine fun htransition => (hundecided htransition).resolve_right fun hlater => ?_
          obtain ⟨c'', hok', -⟩ := hlater
          rw [hfailed] at hok'
          cases hok'
      rcases hcount : countVote cfg header c with ⟨e | u, c₁⟩
      · rw [Action.bind_of_error hcount] at hbuild
        rw [Action.bind_of_error hbuild]
        rw [hcount] at hstored hthrew
        refine ⟨hstored, ?_⟩
        rw [show c₁ = c from hthrew (by rintro ⟨⟩)]
        exact (hthrown e c₁ hbuild).1
      · rw [hcount] at hstored hkept hpending
        have hpush := hstored.push header fun hn signer => hloads c₁ hcount hn signer
        rw [Action.bind_of_ok hcount] at hbuild
        rcases hpushed : cliqueUpdateLatestBlockSigners (some header) c₁ with ⟨e | u', c₂⟩
        · rw [hpushed] at hbuild hpush
          rw [Action.bind_of_error hbuild]
          obtain ⟨hbefore, hnot⟩ := hthrown e c₂ hbuild
          exact ⟨hpush.1, hpush.2 (hkept hbefore hnot)⟩
        · rw [hpushed] at hbuild hpush
          rw [Action.bind_of_ok hbuild]
          exact ih (hrest c₂ hbuild) hpush.1 (hpending c₂ hbuild hpush.2)

theorem NewBlock.Saves.allStored {call : NewBlock} (hsaves : call.Saves cfg c)
    (h : AllStored cfg c) : AllStored cfg (c.afterNewBlock cfg call) := by
  unfold CliqueConsensus.afterNewBlock newBlock
  rcases hancestor : call.commonAncestor with _ | commonAncestor
  · exact h
  · obtain ⟨hleft, hloop⟩ := hsaves commonAncestor hancestor
    refine Action.Triple.snd (.bind (Q := fun _ c₁ => AllStored cfg c₁ ∧
      LoopSaves cfg call.getCanonicalHeader (List.range' (commonAncestor.number + 1)
        (call.header.number - commonAncestor.number)) c₁) ⟨fun u c₁ hok => ?_, fun e c₁ hfailed => ?_⟩
      fun _ c₁ h₁ => .of_snd (h₁.2.allStored h₁.1.toStored (.inl h₁.1.votesStored)))
    · have hdeleted := h.delete hleft
      rw [hok] at hdeleted
      exact ⟨hdeleted, hloop c₁ hok⟩
    · have hdeleted := h.delete hleft
      rw [hfailed] at hdeleted
      exact hdeleted

theorem AllStored.started (cfg : ConsensusConfig) (signers : List Address) :
    AllStored cfg (started cfg signers) where
  states := rfl
  sorted := List.pairwise_singleton _ _
  signers := .inr ⟨rfl, rfl⟩
  votes := fun _ _ _ => rfl
  votesStored := rfl

/-- **Restarting**: after every sequence of calls that find what they have to,
a fresh `CliqueConsensus` that is set up is the one that kept running. -/
theorem restarts_of_run (cfg : ConsensusConfig) (genesisSigners : List Address)
    (calls : List NewBlock)
    (hsaves : ∀ pre call, pre ++ [call] <+: calls →
      call.Saves cfg (pre.foldl (CliqueConsensus.afterNewBlock cfg) (started cfg genesisSigners))) :
    ∀ pre, pre <+: calls →
      Restarts (pre.foldl (CliqueConsensus.afterNewBlock cfg) (started cfg genesisSigners)) := by
  intro pre hpre
  have hstored : AllStored cfg
      (pre.foldl (CliqueConsensus.afterNewBlock cfg) (started cfg genesisSigners)) := by
    induction pre using List.reverseRecOn with
    | nil => exact .started cfg genesisSigners
    | append_singleton pre call ih =>
      rw [List.foldl_append, List.foldl_cons, List.foldl_nil]
      exact (hsaves pre call hpre).allStored (ih ((List.prefix_append pre [call]).trans hpre))
  exact hstored.toStored.restarts hstored.votesStored

/-! ## Two signers authorize a third -/

/-- A block is put on the one before. -/
def extend (parent header : CliqueHeader) : NewBlock := ⟨fun _ => .ok header, header, some parent⟩

/-- The first of them votes. -/
def firstVote : NewBlock := extend (sealed 0 0 0 []) (sealed 1 1 3 CLIQUE_NONCE_AUTH)

/-- The second decides. -/
def secondVote : NewBlock :=
  extend (sealed 1 1 3 CLIQUE_NONCE_AUTH) (sealed 2 2 3 CLIQUE_NONCE_AUTH)

/-- What they leave. -/
def afterVotes (calls : List NewBlock) : CliqueConsensus :=
  calls.foldl (CliqueConsensus.afterNewBlock sampleConfig)
    (started sampleConfig [addressOf 1, addressOf 2])

/-- **The first vote is read back.** -/
theorem restarts_of_run_firstVote : Restarts (afterVotes [firstVote]) := by
  refine restarts_of_run sampleConfig [addressOf 1, addressOf 2] [firstVote] ?_ [firstVote]
    (List.prefix_refl _)
  intro pre call hpre
  rcases concat_prefix_cons.1 hpre with ⟨rfl, rfl⟩ | ⟨pre', rfl, hrest⟩
  · rintro commonAncestor ⟨⟩
    refine ⟨.inl (by decide +kernel), fun c₁ hdelete => ?_⟩
    obtain rfl : c₁ = _ := (congrArg Prod.snd hdelete).symm
    rintro header ⟨⟩
    refine ⟨fun c₂ hcount _ _ _ => ?_, fun _ => .inl ?_, fun _ _ => trivial⟩
    · obtain rfl : c₂ = _ := (congrArg Prod.snd hcount).symm
      exact exists_ok_of_isOk (by decide +kernel)
    · intro _ signer lastEpochBlockNumber activeSigners hvoting
      have hfirst : Voting sampleConfig (sealed 1 1 3 CLIQUE_NONCE_AUTH)
        (cliqueDeleteSnapshots sampleConfig 1 (afterVotes [])).2 (addressOf 1) 0
        [addressOf 1, addressOf 2] := ⟨rfl, rfl, by decide +kernel⟩
      obtain ⟨rfl, rfl, rfl⟩ := hfirst.unique hvoting
      decide +kernel
  · simp at hrest

/-- **Once the second decides the votes in the database are the old ones.** -/
theorem not_restarts_secondVote : ¬ Restarts (afterVotes [firstVote, secondVote]) := by
  intro h
  have hsetup := h ⟨by decide +kernel, by decide +kernel, by decide +kernel⟩
  have hvotes := congrArg (fun r => r.toOption.map CliqueConsensus.latestVotes) hsetup
  revert hvotes
  decide +kernel

end TsEthereum.Clique
