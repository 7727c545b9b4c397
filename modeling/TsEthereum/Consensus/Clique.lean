import TsEthereum.Common.Action
import TsEthereum.Common.Distinct
import TsEthereum.Rlp.Model
import Mathlib.Data.List.Sort
import Mathlib.Order.Lattice

/-!
# Clique consensus

`consensus/clique.ts`: the signer states, the votes and the block signers
that are kept along the chain, and how a new block changes them
(`newBlock`). The three lists are written to the database as RLP. What
`cliqueSigner` recovers from the seal of a header comes with the header
(`CliqueHeader`).
-/

namespace TsEthereum.Clique

open TsEthereum

/-! ## Addresses -/

/-- **An `Address`**: twenty bytes. -/
structure Address where
  bytes : Bytes
  length_eq : bytes.length = 20
  deriving DecidableEq

namespace Address

/-- `toType(a.toString(), TypeOutput.BigInt)`. -/
def toBigInt (a : Address) : ℕ := ofBigEndian a.bytes

/-- `createZeroAddress`. -/
def zero : Address := ⟨List.replicate 20 0, rfl⟩

def isZero (a : Address) : Bool := a = zero

theorem toBigInt_injective : Function.Injective toBigInt := by
  rintro ⟨a, ha⟩ ⟨b, hb⟩ h
  have hlt (l : Bytes) : ∀ d ∈ l.reverse.map UInt8.toNat, d < 256 := by
    intro d hd
    obtain ⟨x, -, rfl⟩ := List.mem_map.1 hd
    exact x.toNat_lt
  have hdigits := Nat.ofDigits_inj_of_len_eq (by decide) (by simp [ha, hb]) (hlt a) (hlt b) h
  rw [Address.mk.injEq]
  exact List.reverse_injective ((List.map_injective_iff.2 fun x y => UInt8.toNat_inj.1) hdigits)

/-- Addresses are ordered by their numbers. -/
instance : LinearOrder Address := LinearOrder.lift' toBigInt toBigInt_injective

end Address

/-! ## Headers, votes and states -/

/-- What the consensus throws. -/
inductive CliqueError where
  /-- `BigInt(undefined)`. -/
  | undefinedToBigInt
  | divisionByZero
  /-- A property of `undefined` is read. -/
  | undefinedState
  | couldNotLoadSigners (blockNum : ℕ)
  | thrown (message : String)
  deriving DecidableEq

/-- The message it is thrown with. -/
def CliqueError.message : CliqueError → String
  | undefinedToBigInt => "Cannot convert undefined to a BigInt"
  | divisionByZero => "Division by zero"
  | undefinedState => "Cannot read properties of undefined (reading '0')"
  | couldNotLoadSigners blockNum => s!"Could not load signers for block {blockNum}"
  | thrown message => message

/-- What the consensus reads of a header, with what `cliqueSigner` returns for
it or throws. -/
structure CliqueHeader where
  number : ℕ
  coinbase : Address
  nonce : Bytes
  cliqueSigner : Except CliqueError Address

/-- The two places an epoch length is read from: `consensus.epoch`, which is
no property of a `ConsensusConfig`, and `consensus.clique.epoch`. -/
structure ConsensusConfig where
  epoch : Option ℕ
  cliqueEpoch : Option ℕ

def CLIQUE_NONCE_AUTH : Bytes := List.replicate 8 0xff

def CLIQUE_NONCE_DROP : Bytes := List.replicate 8 0

def CLIQUE_SIGNER_HISTORY_BLOCK_LIMIT : ℕ := 200

structure CliqueSignerState where
  blockNumber : ℕ
  signers : List Address
  deriving DecidableEq

structure CliqueVote where
  blockNumber : ℕ
  signer : Address
  beneficiary : Address
  cliqueNonce : Bytes
  deriving DecidableEq

structure CliqueBlockSigner where
  blockNumber : ℕ
  signer : Address
  deriving DecidableEq

/-- What is saved under the three keys. -/
structure CliqueDB where
  cliqueSigners : Option Bytes
  cliqueVotes : Option Bytes
  cliqueBlockSignersSnapshot : Option Bytes

/-- **`CliqueConsensus`**. -/
structure CliqueConsensus where
  latestSignerStates : List CliqueSignerState
  latestVotes : List CliqueVote
  latestBlockSigners : List CliqueBlockSigner
  db : CliqueDB

/-- A `CliqueConsensus` over an empty database. -/
def CliqueConsensus.empty : CliqueConsensus := ⟨[], [], [], ⟨none, none, none⟩⟩

/-- A method of it. -/
abbrev Method (α : Type) : Type := Action CliqueError CliqueConsensus α

/-- A value that is computed, or throws. -/
def ofExcept {α : Type} (x : Except CliqueError α) : Method α := fun c => (x, c)

/-! ## Signers -/

def cliqueIsEpochTransition (cfg : ConsensusConfig) (header : CliqueHeader) :
    Except CliqueError Bool :=
  let epoch := cfg.cliqueEpoch.getD 30000
  if epoch = 0 then .error .divisionByZero else .ok (header.number % epoch = 0)

/-- The epoch block at or below a number, as the votes take it. -/
def ConsensusConfig.lastEpochBlockNumber (cfg : ConsensusConfig) (blockNumber : ℕ) :
    Except CliqueError ℕ :=
  match cfg.epoch with
  | none => .error .undefinedToBigInt
  | some 0 => .error .divisionByZero
  | some epoch => .ok (blockNumber - blockNumber % epoch)

namespace CliqueConsensus

variable (c : CliqueConsensus)

/-- **`cliqueActiveSigners`**: those of the last state below a number. -/
def cliqueActiveSigners (blockNum : ℕ) : Except CliqueError (List Address) :=
  if c.latestSignerStates.isEmpty then .ok []
  else
    match c.latestSignerStates.reverse.find? fun s => decide (s.blockNumber < blockNum) with
    | some s => .ok s.signers
    | none => .error (.couldNotLoadSigners blockNum)

def cliqueSignerLimit (blockNum : ℕ) : Except CliqueError ℕ := do
  let signers ← c.cliqueActiveSigners blockNum
  pure (signers.length / 2 + 1)

/-- `lastBlockNumber`, where it is neither undefined nor zero. -/
def lastBlockNumber : Option ℕ :=
  (c.latestBlockSigners.getLast?.map CliqueBlockSigner.blockNumber).filter (· ≠ 0)

/-- Whether there is a state of that number. -/
def known (signerState : CliqueSignerState) : Bool :=
  c.latestSignerStates.any fun value => value.blockNumber = signerState.blockNumber

/-- The states with one more, in the order of their numbers. -/
def withSignerState (signerState : CliqueSignerState) : CliqueConsensus :=
  { c with
    latestSignerStates := (c.latestSignerStates ++ [signerState]).insertionSort
      fun a b => a.blockNumber ≤ b.blockNumber }

end CliqueConsensus

/-- What is not below the history. -/
def historic {α : Type} (number : α → ℕ) (lastNumber : ℕ) (l : List α) : List α :=
  l.filter fun a => ((lastNumber : ℤ) - CLIQUE_SIGNER_HISTORY_BLOCK_LIMIT ≤ number a)

/-- The states are trimmed to the history, but the last. -/
def trimSignerStates : Method Unit := do
  let c ← Action.getState
  match c.lastBlockNumber with
  | none => pure ()
  | some lastBlockNumber => do
    let states := historic CliqueSignerState.blockNumber lastBlockNumber c.latestSignerStates
    if states.isEmpty then
      -- always keep at least one item on the stack
      match c.latestSignerStates.getLast? with
      | some lastItem => Action.modify fun c => { c with latestSignerStates := [lastItem] }
      -- the source pushes `undefined`, and then reads its number
      | none => Action.throw .undefinedState
    else Action.modify fun c => { c with latestSignerStates := states }

/-- A number and what is kept for it. -/
def entry (blockNumber : ℕ) (value : NestedUint8Array) : NestedUint8Array :=
  .list [.bytes (if blockNumber = 0 then [0] else bigEndian blockNumber), value]

/-- The states as they are saved. -/
def saveSignerStates : Method Unit :=
  Action.modify fun c =>
    { c with
      db :=
        { c.db with
          cliqueSigners := some (Rlp.encode (.list (c.latestSignerStates.map fun s =>
            entry s.blockNumber (.list (s.signers.map fun a => .bytes a.bytes))))) } }

/-- **`cliqueUpdateSignerStates`**. -/
def cliqueUpdateSignerStates (signerState : Option CliqueSignerState) : Method Unit := do
  let c ← Action.getState
  if signerState.any c.known then pure ()
  else do
    Action.modify fun c => signerState.elim c c.withSignerState
    trimSignerStates
    saveSignerStates

/-! ## Votes -/

/-- The votes of others on the beneficiary, of one kind, since the epoch
block. -/
def votesOfOthers (votes : List CliqueVote) (latestVote : CliqueVote)
    (lastEpochBlockNumber : ℕ) (cliqueNonce : Bytes) : List CliqueVote :=
  votes.filter fun vote => decide (lastEpochBlockNumber ≤ vote.blockNumber ∧
    vote.signer ≠ latestVote.signer ∧ vote.beneficiary = latestVote.beneficiary ∧
      vote.cliqueNonce = cliqueNonce)

/-- `numBeneficiaryVotesAUTH`, and the like for `DROP`: those who voted, and in
the second round the new vote. -/
def numBeneficiaryVotes (votes : List CliqueVote) (latestVote : CliqueVote)
    (lastEpochBlockNumber round : ℕ) (cliqueNonce : Bytes) : ℕ :=
  (distinct ((votesOfOthers votes latestVote lastEpochBlockNumber cliqueNonce).map
      CliqueVote.signer)).length +
    if round = 2 ∧ latestVote.cliqueNonce = cliqueNonce then 1 else 0

/-- What a round has come to. -/
structure Tally where
  consensus : Bool
  activeSigners : List Address
  votes : List CliqueVote

namespace Tally

variable (latestVote : CliqueVote) (lastEpochBlockNumber limit round : ℕ) (t : Tally)

/-- `AUTH vote analysis`. -/
def auth : Tally :=
  if limit ≤ numBeneficiaryVotes t.votes latestVote lastEpochBlockNumber round CLIQUE_NONCE_AUTH then
    { consensus := true
      activeSigners := (t.activeSigners ++ [latestVote.beneficiary]).insertionSort (· ≤ ·)
      -- the votes for the added signer are discarded
      votes := t.votes.filter fun vote => vote.beneficiary ≠ latestVote.beneficiary }
  else t

/-- `DROP vote`. -/
def drop : Tally :=
  if limit ≤ numBeneficiaryVotes t.votes latestVote lastEpochBlockNumber round CLIQUE_NONCE_DROP then
    { consensus := true
      activeSigners := t.activeSigners.filter fun signer => signer ≠ latestVote.beneficiary
      -- the votes from the removed signer and for it are discarded
      votes := t.votes.filter fun vote =>
        vote.signer ≠ latestVote.beneficiary ∧ vote.beneficiary ≠ latestVote.beneficiary }
  else t

end Tally

/-- **A round of the tally**, with whether there was consensus. -/
def voteRound (cfg : ConsensusConfig) (latestVote : CliqueVote) (round : ℕ) : Method Bool := do
  let lastEpochBlockNumber ← ofExcept (cfg.lastEpochBlockNumber latestVote.blockNumber)
  let c ← Action.getState
  let limit ← ofExcept (c.cliqueSignerLimit latestVote.blockNumber)
  let activeSigners ← ofExcept (c.cliqueActiveSigners latestVote.blockNumber)
  let t := (Tally.mk false activeSigners c.latestVotes).auth latestVote lastEpochBlockNumber
    limit round |>.drop latestVote lastEpochBlockNumber limit round
  Action.modify fun c =>
    { c with latestVotes := if round = 1 then t.votes ++ [latestVote] else t.votes }
  if t.consensus then do
    cliqueUpdateSignerStates (some ⟨latestVote.blockNumber, t.activeSigners⟩)
    pure true
  else pure false

/-- The votes are trimmed to the history before the epoch block. -/
def trimVotes (cfg : ConsensusConfig) : Method Unit := do
  let c ← Action.getState
  match c.lastBlockNumber with
  | none => pure ()
  | some lastBlockNumber => do
    let lastEpochBlockNumber ← ofExcept (cfg.lastEpochBlockNumber lastBlockNumber)
    Action.modify fun c =>
      { c with latestVotes := historic CliqueVote.blockNumber lastEpochBlockNumber c.latestVotes }

/-- The votes as they are saved. -/
def saveVotes : Method Unit :=
  Action.modify fun c =>
    { c with
      db :=
        { c.db with
          cliqueVotes := some (Rlp.encode (.list (c.latestVotes.map fun v =>
            entry v.blockNumber (.list [.bytes v.signer.bytes, .bytes v.beneficiary.bytes,
              .bytes v.cliqueNonce])))) } }

/-- The two rounds on the vote of a header, with whether there was consensus. -/
def voteRounds (cfg : ConsensusConfig) (header : CliqueHeader) : Method Bool := do
  let signer ← ofExcept header.cliqueSigner
  let latestVote : CliqueVote := ⟨header.number, signer, header.coinbase, header.nonce⟩
  if ← voteRound cfg latestVote 1 then pure true
  else voteRound cfg latestVote 2

/-- **`cliqueUpdateVotes`**. -/
def cliqueUpdateVotes (cfg : ConsensusConfig) (header : Option CliqueHeader) : Method Unit := do
  let consensus ←
    match header.filter fun header => !header.coinbase.isZero with
    | some header => voteRounds cfg header
    | none => pure false
  -- on consensus it returns
  if consensus then pure ()
  else do
    trimVotes cfg
    saveVotes

/-! ## Block signers -/

/-- This block's signer, and no more than the limit. -/
def pushBlockSigner (header : CliqueHeader) : Method Unit := do
  let signer ← ofExcept header.cliqueSigner
  Action.modify fun c =>
    { c with latestBlockSigners := c.latestBlockSigners ++ [⟨header.number, signer⟩] }
  let c ← Action.getState
  let length := c.latestBlockSigners.length
  let limit ← ofExcept (c.cliqueSignerLimit header.number)
  if length > limit then
    Action.modify fun c => { c with latestBlockSigners := c.latestBlockSigners.drop (length - limit) }
  else pure ()

/-- The block signers as they are saved. -/
def saveBlockSigners : Method Unit :=
  Action.modify fun c =>
    { c with
      db :=
        { c.db with
          cliqueBlockSignersSnapshot := some (Rlp.encode (.list (c.latestBlockSigners.map fun b =>
            entry b.blockNumber (.bytes b.signer.bytes)))) } }

/-- **`cliqueUpdateLatestBlockSigners`**. -/
def cliqueUpdateLatestBlockSigners (header : Option CliqueHeader) : Method Unit :=
  match header with
  | none => saveBlockSigners
  | some header =>
    -- `isGenesis`
    if header.number = 0 then pure ()
    else do
      pushBlockSigner header
      saveBlockSigners

/-! ## A new block -/

/-- `cliqueSaveGenesisSigners`, of the signers the genesis block has. -/
def cliqueSaveGenesisSigners (cfg : ConsensusConfig) (signers : List Address) : Method Unit := do
  cliqueUpdateSignerStates (some ⟨0, signers⟩)
  cliqueUpdateVotes cfg none

/-- **`_cliqueDeleteSnapshots`**. -/
def cliqueDeleteSnapshots (cfg : ConsensusConfig) (blockNumber : ℕ) : Method Unit := do
  Action.modify fun c =>
    { c with latestSignerStates := c.latestSignerStates.filter fun s => s.blockNumber ≤ blockNumber }
  cliqueUpdateSignerStates none
  Action.modify fun c =>
    { c with latestVotes := c.latestVotes.filter fun v => v.blockNumber ≤ blockNumber }
  cliqueUpdateVotes cfg none
  Action.modify fun c =>
    { c with latestBlockSigners := c.latestBlockSigners.filter fun s => s.blockNumber ≤ blockNumber }
  cliqueUpdateLatestBlockSigners none

/-- **`_cliqueBuildSnapshots`**. -/
def cliqueBuildSnapshots (cfg : ConsensusConfig) (header : CliqueHeader) : Method Unit := do
  if ← ofExcept (cliqueIsEpochTransition cfg header) then pure ()
  else cliqueUpdateVotes cfg (some header)
  cliqueUpdateLatestBlockSigners (some header)

/-- The loop of `newBlock`. -/
def buildCanonical (cfg : ConsensusConfig)
    (getCanonicalHeader : ℕ → Except CliqueError CliqueHeader) : List ℕ → Method Unit
  | [] => pure ()
  | number :: numbers => do
    let canonicalHeader ← ofExcept (getCanonicalHeader number)
    cliqueBuildSnapshots cfg canonicalHeader
    buildCanonical cfg getCanonicalHeader numbers

/-- **`newBlock`**. -/
def newBlock (cfg : ConsensusConfig) (getCanonicalHeader : ℕ → Except CliqueError CliqueHeader)
    (header : CliqueHeader) (commonAncestor : Option CliqueHeader) : Method Unit :=
  match commonAncestor with
  | none => pure ()
  | some commonAncestor => do
    cliqueDeleteSnapshots cfg (commonAncestor.number + 1)
    buildCanonical cfg getCanonicalHeader
      (List.range' (commonAncestor.number + 1) (header.number - commonAncestor.number))

end TsEthereum.Clique
