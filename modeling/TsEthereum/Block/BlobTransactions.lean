import TsEthereum.Block.Fees
import TsEthereum.Tx.Data

/-!
# Blob transactions of a block

`validateBlobTransactions`: a block's excess blob gas is what its parent says, its blob gas is that
of its transactions and within the limit, and each blob transaction pays the price of blob gas.
The price is asked of the parent's header, where the execution of the block charges that of its
own (`getBlobGasPrice` of `opts.block.header` in `runTx`).

So what is let through is what may be, but where the least fee of the block's blob transactions is
between the two prices, or the parent has no excess to price (`validatesBlobs_iff`).
-/

namespace TsEthereum

namespace Block

open TsEthereum.ChainConfig
open TsEthereum.Tx

/-- The parts of a `FrozenBlock` that are validated. -/
structure BlobBlock where
  header : ValidatedHeader
  transactions : List TxData

/-- What is thrown. -/
inductive BlobError where
  /-- What a header throws. -/
  | header (error : HeaderError)
  /-- 'block excessBlobGas mismatch: have 1, want 0' -/
  | excessBlobGas (have_ : Option ℕ) (want : ℕ)
  /-- 'blob transaction maxFeePerBlobGas 1 < than block blob gas price 2' -/
  | maxFeePerBlobGas (maxFeePerBlobGas blobGasPrice : ℕ)
  /-- 'tx causes total blob gas of 917504 to exceed maximum blob gas per block of 786432' -/
  | blobGasLimit (blobGasUsed blobGasLimit : ℕ)
  /-- 'block blobGasUsed mismatch: have 1, want 0' -/
  | blobGasUsed (have_ : Option ℕ) (want : ℕ)
  deriving DecidableEq

/-! ## The validation -/

/-- `numBlobs`: the length of a list, or of an empty byte string. -/
def numBlobs (tx : BlobTxData) : ℕ :=
  match tx.blobVersionedHashes with
  | .emptyBytes => 0
  | .list hashes => hashes.length

/-- The transactions that `isBlobTxManager` tells. -/
def blobTxs (transactions : List TxData) : List BlobTxData :=
  transactions.filterMap fun tx =>
    match tx with
    | .blob tx => some tx
    | _ => none

/-- The loop over the blob transactions: the price is asked for at the first of them. -/
def validateBlobTxs (getPrice : Except HeaderError ℕ) (blobGasPerBlob blobGasLimit : ℕ) :
    List BlobTxData → ℕ → Except BlobError ℕ
  | [], blobGasUsed => .ok blobGasUsed
  | tx :: txs, blobGasUsed =>
    match getPrice with
    | .error e => .error (.header e)
    | .ok blobGasPrice =>
      if tx.maxFeePerBlobGas < blobGasPrice then
        .error (.maxFeePerBlobGas tx.maxFeePerBlobGas blobGasPrice)
      else
        let used := blobGasUsed + numBlobs tx * blobGasPerBlob
        if blobGasLimit < used then .error (.blobGasLimit used blobGasLimit)
        else validateBlobTxs getPrice blobGasPerBlob blobGasLimit txs used

namespace BlobBlock

variable (m : HardforkManager) (block : BlobBlock)

/-- `getParam(block, 'maxBlobGasPerBlock')`. -/
def blobGasLimit : ℕ := (m.getParamAtHardfork .maxBlobGasPerBlock (block.header.getHardfork m)).getD 0

/-- `getParam(block, 'blobGasPerBlob')`. -/
def blobGasPerBlob : ℕ :=
  (m.getParamAtHardfork .blobGasPerBlob (block.header.getHardfork m)).getD 131072

/-- **`validateBlobTransactions`**. -/
def validateBlobTransactions (parentHeader : ValidatedHeader) : Except BlobError Unit :=
  if block.header.isEIPActive m 4844 then
    match parentHeader.calcNextExcessBlobGas m (block.header.getHardfork m) with
    | .error e => .error (.header e)
    | .ok expectedExcessBlobGas =>
      if block.header.excessBlobGas ≠ some expectedExcessBlobGas then
        .error (.excessBlobGas block.header.excessBlobGas expectedExcessBlobGas)
      else
        match validateBlobTxs (parentHeader.getBlobGasPrice m) (block.blobGasPerBlob m)
          (block.blobGasLimit m) (blobTxs block.transactions) 0 with
        | .error e => .error e
        | .ok blobGasUsed =>
          if block.header.blobGasUsed ≠ some blobGasUsed then
            .error (.blobGasUsed block.header.blobGasUsed blobGasUsed)
          else .ok ()
  else .ok ()

/-! ## What is valid -/

/-- The blob gas of a block's transactions. -/
def totalBlobGas : ℕ :=
  ((blobTxs block.transactions).map fun tx => numBlobs tx * block.blobGasPerBlob m).sum

/-- The block's blob gas is what it should be. -/
structure GasAsExpected (parentHeader : ValidatedHeader) : Prop where
  excess : (parentHeader.calcNextExcessBlobGas m (block.header.getHardfork m)).map some =
    .ok block.header.excessBlobGas
  used : block.header.blobGasUsed = some (block.totalBlobGas m)
  limit : block.totalBlobGas m ≤ block.blobGasLimit m

/-- Every blob transaction pays a price. -/
def Pays (blobGasPrice : ℕ) : Prop :=
  ∀ tx ∈ blobTxs block.transactions, blobGasPrice ≤ tx.maxFeePerBlobGas

/-- **The blobs of a block are valid**: its blob gas is as expected, and every blob transaction
pays the block's own price. -/
structure BlobsValid (parentHeader : ValidatedHeader) : Prop extends
    block.GasAsExpected m parentHeader where
  pays : ∀ blobGasPrice, block.header.getBlobGasPrice m = .ok blobGasPrice → block.Pays blobGasPrice

/-- **The validation tells the blocks whose blobs are valid.** -/
def ValidatesBlobs (parentHeader : ValidatedHeader) : Prop :=
  block.validateBlobTransactions m parentHeader = .ok () ↔ block.BlobsValid m parentHeader

/-- The least fee per blob gas of the block's blob transactions. -/
def leastFee : Option ℕ := ((blobTxs block.transactions).map BlobTxData.maxFeePerBlobGas).min?

/-- A fee is between two prices: one of the two it pays. -/
def Between (fee price price' : ℕ) : Prop :=
  (price ≤ fee ∧ fee < price') ∨ (price' ≤ fee ∧ fee < price)

/-- **The least fee is told right**: it is not between the two prices, and where the parent has no
price it does not pay the block's. -/
def FeeToldRight (parentHeader : ValidatedHeader) (fee : ℕ) : Prop :=
  ∀ blobGasPrice, block.header.getBlobGasPrice m = .ok blobGasPrice →
    match parentHeader.getBlobGasPrice m with
    | .ok parentPrice => ¬ Between fee parentPrice blobGasPrice
    | .error _ => fee < blobGasPrice

/-! ## The loop -/

variable {m block} {parentHeader : ValidatedHeader}

/-- **What the loop lets through**: the price is known if there is anything to pay, everyone pays
it, and the sum is within the limit. -/
theorem validateBlobTxs_eq_ok {getPrice : Except HeaderError ℕ} {blobGasPerBlob blobGasLimit : ℕ}
    {txs : List BlobTxData} {start used : ℕ} (hstart : start ≤ blobGasLimit) :
    validateBlobTxs getPrice blobGasPerBlob blobGasLimit txs start = .ok used ↔
      used = start + (txs.map fun tx => numBlobs tx * blobGasPerBlob).sum ∧ used ≤ blobGasLimit ∧
        ∀ tx ∈ txs, ∃ price, getPrice = .ok price ∧ price ≤ tx.maxFeePerBlobGas := by
  induction txs generalizing start with
  | nil =>
    simp only [validateBlobTxs, Except.ok.injEq, List.map_nil, List.sum_nil, Nat.add_zero,
      List.not_mem_nil, false_implies, implies_true, and_true]
    constructor
    · rintro rfl
      exact ⟨rfl, hstart⟩
    · rintro ⟨rfl, -⟩
      rfl
  | cons tx txs ih =>
    cases getPrice with
    | error e =>
      constructor
      · intro h
        cases h
      · rintro ⟨-, -, hpays⟩
        obtain ⟨price, hprice, -⟩ := hpays tx List.mem_cons_self
        cases hprice
    | ok price =>
      simp only [validateBlobTxs, Except.ok.injEq, exists_eq_left', List.mem_cons,
        forall_eq_or_imp, List.map_cons, List.sum_cons]
      rw [ite_error_eq_ok, ite_error_eq_ok, not_lt, not_lt]
      constructor
      · rintro ⟨hfee, hlimit, hrest⟩
        obtain ⟨hsum, hle, hpays⟩ := (ih hlimit).1 hrest
        refine ⟨by omega, hle, hfee, fun tx htx => ?_⟩
        obtain ⟨_, heq, hprice⟩ := hpays tx htx
        rwa [← Except.ok.inj heq] at hprice
      · rintro ⟨hsum, hle, hfee, hpays⟩
        have hlimit : start + numBlobs tx * blobGasPerBlob ≤ blobGasLimit := by omega
        exact ⟨hfee, hlimit, (ih hlimit).2 ⟨by omega, hle, fun tx htx => ⟨price, rfl, hpays tx htx⟩⟩⟩

theorem validateBlobTransactions_eq_ok (hactive : block.header.isEIPActive m 4844 = true) :
    block.validateBlobTransactions m parentHeader = .ok () ↔
      block.GasAsExpected m parentHeader ∧ ∀ tx ∈ blobTxs block.transactions,
        ∃ price, parentHeader.getBlobGasPrice m = .ok price ∧ price ≤ tx.maxFeePerBlobGas := by
  rw [validateBlobTransactions, if_pos hactive]
  constructor
  · intro h
    split at h
    · cases h
    next expected hexpected =>
    rw [ite_error_eq_ok, not_not] at h
    obtain ⟨hexcess, h⟩ := h
    split at h
    · cases h
    next used hused =>
    rw [ite_error_eq_ok, not_not] at h
    obtain ⟨hsum, hle, hpays⟩ := (validateBlobTxs_eq_ok (Nat.zero_le _)).1 hused
    have htotal : used = block.totalBlobGas m := hsum.trans (Nat.zero_add _)
    rw [htotal] at h hle
    exact ⟨⟨by rw [hexpected, hexcess]; rfl, h.1, hle⟩, hpays⟩
  · rintro ⟨⟨hexcess, hused, hlimit⟩, hpays⟩
    obtain ⟨expected, hexpected, hsome⟩ := map_eq_ok hexcess
    rw [hexpected]
    dsimp only
    rw [if_neg (not_not.2 hsome.symm), (validateBlobTxs_eq_ok (Nat.zero_le _)).2
      ⟨(Nat.zero_add _).symm, hlimit, hpays⟩]
    dsimp only
    exact if_neg (not_not.2 hused)

/-! ## The price -/

theorem GasAsExpected.exists_price (h : block.GasAsExpected m parentHeader) :
    ∃ price, block.header.getBlobGasPrice m = .ok price := by
  obtain ⟨excess, -, hsome⟩ := map_eq_ok h.excess
  rw [ValidatedHeader.getBlobGasPrice, ← hsome]
  exact ⟨_, rfl⟩

theorem pays_iff_leastFee {fee price : ℕ} (h : block.leastFee = some fee) :
    block.Pays price ↔ price ≤ fee := by
  obtain ⟨hmem, hle⟩ := List.min?_eq_some_iff.1 h
  constructor
  · intro hpays
    obtain ⟨tx, htx, rfl⟩ := List.mem_map.1 hmem
    exact hpays tx htx
  · intro hprice tx htx
    exact hprice.trans (hle _ (List.mem_map_of_mem htx))

theorem blobTxs_eq_nil (h : block.leastFee = none) : blobTxs block.transactions = [] :=
  List.map_eq_nil_iff.1 (List.min?_eq_none_iff.1 h)

/-- **What may be is let through, and nothing else,** exactly when the least fee of the blob
transactions is told right, of a block whose blob gas is as expected. -/
theorem validatesBlobs_iff (m : HardforkManager) (block : BlobBlock) (parentHeader : ValidatedHeader)
    (hactive : block.header.isEIPActive m 4844 = true) :
    block.ValidatesBlobs m parentHeader ↔
      (block.GasAsExpected m parentHeader → ∀ fee, block.leastFee = some fee →
        block.FeeToldRight m parentHeader fee) := by
  rw [ValidatesBlobs, validateBlobTransactions_eq_ok hactive]
  by_cases hgas : block.GasAsExpected m parentHeader
  · obtain ⟨price, hprice⟩ := hgas.exists_price
    have hvalid : block.BlobsValid m parentHeader ↔ block.Pays price :=
      ⟨fun h => h.pays price hprice, fun h => ⟨hgas, fun _ heq => by rwa [← Except.ok.inj (hprice.symm.trans heq)]⟩⟩
    rw [hvalid]
    simp only [hgas, true_and, forall_true_left]
    cases hfee : block.leastFee with
    | none => simp [Pays, blobTxs_eq_nil hfee]
    | some fee =>
      simp only [Option.some.injEq, forall_eq', FeeToldRight, hprice, Except.ok.injEq]
      cases hparent : parentHeader.getBlobGasPrice m with
      | error e =>
        -- nothing is let through, as there is a blob transaction
        have hnone : ¬ ∀ tx ∈ blobTxs block.transactions,
            ∃ p, (.error e : Except HeaderError ℕ) = .ok p ∧ p ≤ tx.maxFeePerBlobGas := by
          intro h
          obtain ⟨tx, htx, -⟩ := List.mem_map.1 (List.min?_eq_some_iff.1 hfee).1
          obtain ⟨p, hp, -⟩ := h tx htx
          cases hp
        rw [iff_false_left hnone, pays_iff_leastFee hfee, not_le]
      | ok parentPrice =>
        have hparentPays : (∀ tx ∈ blobTxs block.transactions,
            ∃ p, (.ok parentPrice : Except HeaderError ℕ) = .ok p ∧ p ≤ tx.maxFeePerBlobGas) ↔
            parentPrice ≤ fee := by
          rw [← pays_iff_leastFee hfee]
          simp [Pays]
        rw [hparentPays, pays_iff_leastFee hfee]
        simp only [Between]
        omega
  · have hinvalid : ¬ block.BlobsValid m parentHeader := fun h => hgas h.toGasAsExpected
    simp [hgas, hinvalid]

/-! ## The first block of the fork -/

/-- A block before the fork. -/
def sampleParent : ValidatedHeader :=
  { coreDefaults 30 1995 with baseFeePerGas := some 7, withdrawalsRoot := some emptyTrieRoot }

/-- A transaction with one blob, for one wei per blob gas. -/
def sampleBlobTx : BlobTxData where
  chainId := 1
  nonce := 0
  maxPriorityFeePerGas := 1
  maxFeePerGas := 7
  gasLimit := 21000
  to_ := repeated 0x35
  value := 0
  data := .bytes []
  accessList := .list []
  maxFeePerBlobGas := 1
  blobVersionedHashes := .list [1 :: List.replicate 31 0]
  v := none
  r := none
  s := none

/-- The first block of the fork, with that transaction. -/
def sampleBlobBlock : BlobBlock where
  header :=
    { coreDefaults 31 2007 with
      baseFeePerGas := some 7, withdrawalsRoot := some emptyTrieRoot
      blobGasUsed := some 131072, excessBlobGas := some 0
      parentBeaconBlockRoot := some (zeros 32) }
  transactions := [.blob sampleBlobTx]

/-- The witness of `validatesBlobs_iff`. -/
theorem validatesBlobs_iff_sampleBlobBlock :
    sampleBlobBlock.ValidatesBlobs sampleManager sampleParent ↔
      (sampleBlobBlock.GasAsExpected sampleManager sampleParent → ∀ fee,
        sampleBlobBlock.leastFee = some fee →
          sampleBlobBlock.FeeToldRight sampleManager sampleParent fee) :=
  validatesBlobs_iff sampleManager sampleBlobBlock sampleParent (by decide)

/-- **The first block of the fork**: its blob transaction pays the price, one wei, but the parent
has no price to be asked for. -/
theorem not_validatesBlobs_sampleBlobBlock :
    ¬ sampleBlobBlock.ValidatesBlobs sampleManager sampleParent := by
  have hactive : sampleBlobBlock.header.isEIPActive sampleManager 4844 = true := by decide
  have hexcess : sampleParent.calcNextExcessBlobGas sampleManager
      (sampleBlobBlock.header.getHardfork sampleManager) = .ok 0 := by
    rw [calcNextExcessBlobGas_eq]
    rfl
  have hprice : sampleBlobBlock.header.getBlobGasPrice sampleManager = .ok 1 :=
    congrArg Except.ok (fakeExponential_zero (by decide) (by decide))
  have hvalid : sampleBlobBlock.BlobsValid sampleManager sampleParent := by
    refine ⟨⟨by rw [hexcess]; rfl, by decide, by decide⟩, fun price heq tx htx => ?_⟩
    obtain rfl := Except.ok.inj (hprice.symm.trans heq)
    obtain rfl := List.mem_singleton.1 htx
    decide
  intro h
  obtain ⟨-, hpays⟩ := (validateBlobTransactions_eq_ok hactive).1 (h.2 hvalid)
  obtain ⟨price, hparent, -⟩ := hpays sampleBlobTx (List.mem_singleton.2 rfl)
  cases hparent

end BlobBlock

end Block

end TsEthereum
