import TsEthereum.Block.HeaderBinding
import TsEthereum.Miner.PendingBlock

/-!
# What is built is valid

-/

namespace TsEthereum

namespace Miner

open TsEthereum.ChainConfig TsEthereum.Block
open TsEthereum.Blockchain (bigIntToBytes ofBigEndian_bigIntToBytes)

variable {keccak256 : Bytes → Bytes32} {m : HardforkManager} {parent : ValidatedHeader}
variable {now : ℕ} {attributes : PayloadAttributes} {acc : Accumulated}

/-! ## The header -/

/-- The first London block. -/
def AtLondon (m : HardforkManager) (parent : ValidatedHeader) : Prop :=
  m.hardforkBlock .london = some (parent.number + 1)

instance : Decidable (AtLondon m parent) := inferInstanceAs (Decidable (_ = _))

/-- The hardfork of the pending block. -/
def builtHardfork (m : HardforkManager) (parent : ValidatedHeader)
    (attributes : PayloadAttributes) : Hardfork :=
  m.getHardforkByBlock (some (parent.number + 1)) (some attributes.timestamp)

/-- Whether an EIP is active at the pending block. -/
def activeAt (m : HardforkManager) (parent : ValidatedHeader) (attributes : PayloadAttributes)
    (eip : ℕ) : Bool :=
  m.isEIPActiveAtBlock eip (parent.number + 1) (some attributes.timestamp)

/-- Whether EIP-1559 is active at its number alone. -/
def activeByNumber (m : HardforkManager) (parent : ValidatedHeader) : Bool :=
  m.isEIPActiveAtBlock 1559 (parent.number + 1) none

/-- The excess blob gas that a hardfork's target leaves. -/
def excessAt (m : HardforkManager) (parent : ValidatedHeader) (hardfork : Hardfork) : ℕ :=
  parent.excessBlobGas.getD 0 + parent.blobGasUsed.getD 0 -
    (m.getParamAtHardfork .targetBlobGasPerBlock hardfork).getD 0

/-- A hash is a field. -/
def Bytes32.toField (hash : Bytes32) : BytesOrEmpty 32 := ⟨hash.1, .inl hash.2⟩

/-- **The header that is built**, on a base fee. -/
def builtHeader (keccak256 : Bytes → Bytes32) (m : HardforkManager) (parent : ValidatedHeader)
    (attributes : PayloadAttributes) (acc : Accumulated) (baseFeePerGas : Option ℕ) :
    ValidatedHeader where
  parentHash := Bytes32.toField (parent.computeHash keccak256 m)
  uncleHash := KECCAK256_RLP_ARRAY
  coinbase := attributes.coinbase.getD (repeated 0)
  stateRoot := Bytes32.toField acc.stateRoot
  transactionsTrie := Bytes32.toField acc.transactionsTrie
  receiptTrie := Bytes32.toField acc.receiptTrie
  logsBloom := ⟨acc.logsBloom.1, .inl acc.logsBloom.2⟩
  difficulty := 0
  number := parent.number + 1
  gasLimit := pendingGasLimit m parent
  gasUsed := acc.gasUsed
  timestamp := attributes.timestamp
  extraData := []
  mixHash := (attributes.mixHash.map Bytes32.toField).getD (zeros 32)
  nonce := zeros 8
  baseFeePerGas := baseFeePerGas
  withdrawalsRoot :=
    if activeAt m parent attributes 4895 then
      some ((acc.withdrawalsRoot.map Bytes32.toField).getD emptyTrieRoot)
    else none
  blobGasUsed := if activeAt m parent attributes 4844 then some acc.blobGasUsed else none
  excessBlobGas :=
    if activeAt m parent attributes 4844 then
      some (excessAt m parent (builtHardfork m parent attributes))
    else none
  parentBeaconBlockRoot :=
    if activeAt m parent attributes 4788 then
      some ((attributes.parentBeaconBlockRoot.map Bytes32.toField).getD (zeros 32))
    else none
  requestsHash :=
    if activeAt m parent attributes 7685 then some (Bytes32.toField acc.requestsHash) else none

/-- The header data a builder has been started with, on a base fee. -/
def startedData (keccak256 : Bytes → Bytes32) (m : HardforkManager) (parent : ValidatedHeader)
    (attributes : PayloadAttributes) (baseFeePerGas : Option ℕ) : HeaderData where
  parentHash := some (hashField (parent.computeHash keccak256 m))
  coinbase := attributes.coinbase.map .address
  number := some (.bigint (parent.number + 1))
  gasLimit := some (.bigint (pendingGasLimit m parent))
  timestamp := some (.bigint attributes.timestamp)
  mixHash := attributes.mixHash.map hashField
  baseFeePerGas := baseFeePerGas.map .bigint
  excessBlobGas :=
    if activeAt m parent attributes 4844 then
      some (.bigint (excessAt m parent (builtHardfork m parent attributes)))
    else none
  parentBeaconBlockRoot := attributes.parentBeaconBlockRoot.map hashField

/-- **The base fee that is chosen**: the parent's next, when there is one by the number or by the
time. -/
def chosenBaseFee (m : HardforkManager) (parent : ValidatedHeader)
    (attributes : PayloadAttributes) : Except HeaderError (Option ℕ) :=
  if activeByNumber m parent ∨ activeAt m parent attributes 1559 then
    (parent.calcNextBaseFee m).map some
  else .ok none

theorem active_of_atLondon (h : AtLondon m parent) (timestamp : Option ℕ) :
    m.isEIPActiveAtBlock 1559 (parent.number + 1) timestamp = true :=
  HardforkManager.isEIPActive_of_hardforkBlock h (le_refl _) (by decide) timestamp

@[simp] theorem zBigInt_bigint (d n : ℕ) : zBigInt d (some (.bigint n)) = n :=
  ofBigEndian_bigIntToBytes n

theorem isLondonBlock_eq_false (h : activeByNumber m parent = false) :
    isLondonBlock m (some (.bigint (parent.number + 1))) = false := by
  cases hlondon : m.hardforkBlock .london with
  | none => simp [isLondonBlock, hlondon]
  | some block =>
    simp only [isLondonBlock, hlondon, decide_eq_false_iff_not]
    rintro rfl
    have := active_of_atLondon hlondon none
    rw [activeByNumber] at h
    rw [h] at this
    cases this

theorem filledExcessBlobGas_eq {headerData : HeaderData} (h : headerData.excessBlobGas = none) :
    filledExcessBlobGas m parent (builtHardfork m parent attributes) headerData =
      .ok (if activeAt m parent attributes 4844 then
        some (.bigint (excessAt m parent (builtHardfork m parent attributes))) else none) := by
  have hexcess : parent.calcNextExcessBlobGas m (builtHardfork m parent attributes) =
      .ok (excessAt m parent (builtHardfork m parent attributes)) := calcNextExcessBlobGas_eq
  have hactive : m.isEIPActiveAtHardfork 4844 (builtHardfork m parent attributes) =
      activeAt m parent attributes 4844 := rfl
  rw [filledExcessBlobGas, hexcess, hactive, h]
  cases activeAt m parent attributes 4844 <;> rfl

theorem filledBaseFee_eq {headerData : HeaderData} {fee : Option FlexibleTypeInput}
    (hfee : pendingBaseFee m parent = .ok fee)
    (hnumber : headerData.number = some (.bigint (parent.number + 1)))
    (hbase : headerData.baseFeePerGas = fee) :
    filledBaseFee m parent (builtHardfork m parent attributes) headerData =
      (chosenBaseFee m parent attributes).map fun fee => fee.map .bigint := by
  have hactive : m.isEIPActiveAtHardfork 1559 (builtHardfork m parent attributes) =
      activeAt m parent attributes 1559 := rfl
  have hpending : pendingBaseFee m parent = if activeByNumber m parent then
      (parent.calcNextBaseFee m).map fun fee => some (.bigint fee) else .ok none := rfl
  rw [hpending] at hfee
  rw [filledBaseFee, chosenBaseFee, hactive, hnumber]
  cases hnum : activeByNumber m parent with
  | true =>
    rw [hnum, if_pos rfl] at hfee
    obtain ⟨next, hnext, rfl⟩ := map_eq_ok hfee
    rw [hbase, if_neg (by simp), if_pos (.inl rfl), hnext]
    rfl
  | false =>
    rw [hnum, if_neg Bool.false_ne_true] at hfee
    obtain rfl := Except.ok.inj hfee
    rw [hbase, isLondonBlock_eq_false hnum]
    cases activeAt m parent attributes 1559 with
    | false => simp [Except.map]
    | true =>
      simp only [Option.isNone_none, and_self, if_true, Bool.false_eq_true, if_false, or_true]
      cases parent.calcNextBaseFee m <;> rfl

theorem chosenBaseFee_eq_error {e : HeaderError} (h : pendingBaseFee m parent = .error e) :
    chosenBaseFee m parent attributes = .error e := by
  have hpending : pendingBaseFee m parent = if activeByNumber m parent then
      (parent.calcNextBaseFee m).map fun fee => some (.bigint fee) else .ok none := rfl
  rw [hpending] at h
  rw [chosenBaseFee]
  split at h
  · next hactive =>
    rw [if_pos (.inl hactive)]
    cases hnext : parent.calcNextBaseFee m with
    | error e' =>
      rw [hnext] at h
      obtain rfl := Except.error.inj h
      rfl
    | ok fee =>
      rw [hnext] at h
      cases h
  · cases h

theorem start_eq : start keccak256 m parent now attributes =
    (chosenBaseFee m parent attributes).map (startedData keccak256 m parent attributes) := by
  rw [start]
  cases hpending : pendingBaseFee m parent with
  | error e =>
    rw [chosenBaseFee_eq_error hpending]
    rfl
  | ok fee =>
    have hhardfork : m.getHardforkByBlock (some (zBigInt 0 (some (.bigint (parent.number + 1)))))
        (some (zBigInt 0 (some (.bigint attributes.timestamp)))) =
        builtHardfork m parent attributes := by
      rw [zBigInt_bigint, zBigInt_bigint]
      rfl
    rw [ok_bind, newBlockBuilder]
    simp only [Option.getD_some, hhardfork]
    rw [filledBaseFee_eq hpending rfl rfl, filledExcessBlobGas_eq rfl]
    cases chosenBaseFee m parent attributes <;> rfl

/-! ## What is built -/

/-- The header data that is built, on a base fee. -/
def builtData (keccak256 : Bytes → Bytes32) (m : HardforkManager) (parent : ValidatedHeader)
    (attributes : PayloadAttributes) (acc : Accumulated) (baseFeePerGas : Option ℕ) :
    HeaderData where
  __ := startedData keccak256 m parent attributes baseFeePerGas
  stateRoot := some (hashField acc.stateRoot)
  transactionsTrie := some (hashField acc.transactionsTrie)
  withdrawalsRoot := acc.withdrawalsRoot.map hashField
  receiptTrie := some (hashField acc.receiptTrie)
  logsBloom := some (.bytes acc.logsBloom.1)
  gasUsed := some (.bigint acc.gasUsed)
  blobGasUsed := if activeAt m parent attributes 4844 then some (.bigint acc.blobGasUsed) else none
  requestsHash :=
    if activeAt m parent attributes 7685 then some (hashField acc.requestsHash) else none

/-- **What can be built**: no field of an EIP that is not active is there, no more gas is used than
there is, and the first London block has the initial base fee. -/
structure Buildable (m : HardforkManager) (parent : ValidatedHeader)
    (attributes : PayloadAttributes) (acc : Accumulated) (baseFeePerGas : Option ℕ) : Prop where
  feeActive : baseFeePerGas.isSome = true → activeAt m parent attributes 1559 = true
  withdrawalsRoot : acc.withdrawalsRoot.isSome = true → activeAt m parent attributes 4895 = true
  parentBeaconBlockRoot : attributes.parentBeaconBlockRoot.isSome = true →
    activeAt m parent attributes 4788 = true
  gasUsed : acc.gasUsed ≤ pendingGasLimit m parent
  london : AtLondon m parent → baseFeePerGas = some 1000000000

variable {fee : Option ℕ} {header : ValidatedHeader}

theorem zBytes_hashField (field : String) (default : BytesOrEmpty 32) (hash : Option Bytes32) :
    zBytes field 32 default (hash.map hashField) =
      .ok ((hash.map Bytes32.toField).getD default) := by
  cases hash with
  | none => rfl
  | some hash => exact zBytes_some_eq_ok.2 rfl

theorem zActive_bigint {active : Bool} {field : String} {eip d : ℕ} {parsed : Option ℕ}
    (h : active = true → fee.isSome = true) :
    zActive active field eip (fun val => .ok (zBigInt d val)) (fee.map .bigint) = .ok parsed ↔
      (fee.isSome = true → active = true) ∧ parsed = fee := by
  rw [zActive_eq_ok]
  cases fee with
  | none =>
    have : active = false := by simpa using h
    simp [this]
  | some n => cases active <;> simp [eq_comm]

theorem zActive_hashField {active : Bool} {field : String} {eip : ℕ} {default : BytesOrEmpty 32}
    {hash : Option Bytes32} {parsed : Option (BytesOrEmpty 32)} :
    zActive active field eip (zBytes field 32 default) (hash.map hashField) = .ok parsed ↔
      (hash.isSome = true → active = true) ∧
        parsed = if active then some ((hash.map Bytes32.toField).getD default) else none := by
  rw [zActive_eq_ok, zBytes_hashField]
  cases active <;> cases hash <;> simp

theorem zCoreHeaderSchema_builtData :
    zCoreHeaderSchema (builtData keccak256 m parent attributes acc fee) =
      .ok (builtHeader keccak256 m parent attributes acc fee).toValidatedCoreHeaderFields := by
  have hhash : ∀ (field : String) (default : BytesOrEmpty 32) (hash : Bytes32),
      zBytes field 32 default (some (hashField hash)) = .ok (Bytes32.toField hash) :=
    fun field default hash => zBytes_hashField field default (some hash)
  refine zCoreHeaderSchema_eq_ok.2 ⟨hhash _ _ _, rfl, ?_, hhash _ _ _, hhash _ _ _, hhash _ _ _,
    zBytes_some_eq_ok.2 rfl, zBytes_hashField _ _ _, rfl, rfl, zBigInt_bigint _ _,
    zBigInt_bigint _ _, zBigInt_bigint _ _, zBigInt_bigint _ _, rfl⟩
  simp only [builtData, startedData, builtHeader]
  cases attributes.coinbase <;> rfl

/-- **The fields of EIPs are those of the header that is built**, when none is there that is not
active. -/
theorem zEIPFieldsSchema_builtData (hfee : activeAt m parent attributes 1559 = true →
    fee.isSome = true) {fields : ValidatedEIPHeaderFields} :
    zEIPFieldsSchema m (builtData keccak256 m parent attributes acc fee) (parent.number + 1)
        (some attributes.timestamp) = .ok fields ↔
      ((fee.isSome = true → activeAt m parent attributes 1559 = true) ∧
        (acc.withdrawalsRoot.isSome = true → activeAt m parent attributes 4895 = true) ∧
        (attributes.parentBeaconBlockRoot.isSome = true →
          activeAt m parent attributes 4788 = true)) ∧
      fields = (builtHeader keccak256 m parent attributes acc fee).toValidatedEIPHeaderFields := by
  have hmap : ∀ {active : Bool} {n : ℕ},
      (if active then some (FlexibleTypeInput.bigint n) else none) =
      (if active then some n else none).map .bigint := fun {active n} => by cases active <;> rfl
  have hmaphash : ∀ {active : Bool} {hash : Bytes32},
      (if active then some (hashField hash) else none) =
        (if active then some hash else none).map hashField :=
    fun {active hash} => by cases active <;> rfl
  have hactive : ∀ eip, m.isEIPActiveAtBlock eip (parent.number + 1) (some attributes.timestamp) =
      activeAt m parent attributes eip := fun _ => rfl
  have hsome : ∀ {active : Bool} {α : Type} {a : α}, active = true →
      (if active then some a else none).isSome = true := fun h => by rw [if_pos h]; rfl
  rw [zEIPFieldsSchema_eq_ok]
  simp only [builtData, startedData, hmap, hmaphash, hactive]
  rw [zActive_bigint hfee, zActive_bigint hsome, zActive_bigint hsome, zActive_hashField,
    zActive_hashField, zActive_hashField]
  have hfields : ∀ other : ValidatedEIPHeaderFields, fields = other ↔
      fields.baseFeePerGas = other.baseFeePerGas ∧ fields.withdrawalsRoot = other.withdrawalsRoot ∧
      fields.blobGasUsed = other.blobGasUsed ∧ fields.excessBlobGas = other.excessBlobGas ∧
      fields.parentBeaconBlockRoot = other.parentBeaconBlockRoot ∧
      fields.requestsHash = other.requestsHash := fun other => by
    cases fields
    cases other
    simp
  rw [hfields]
  constructor
  · rintro ⟨⟨h1, e1⟩, ⟨h2, e2⟩, ⟨-, e3⟩, ⟨-, e4⟩, ⟨h5, e5⟩, ⟨-, e6⟩⟩
    refine ⟨⟨h1, h2, h5⟩, e1, e2, e3, e4, e5, ?_⟩
    rw [e6]
    cases h : activeAt m parent attributes 7685 <;> simp [builtHeader, h]
  · rintro ⟨⟨h1, h2, h5⟩, e1, e2, e3, e4, e5, e6⟩
    have hinactive : ∀ {active : Bool} {α : Type} {a : α},
        (if active then some a else none).isSome = true → active = true := fun h => by
      by_contra hnot
      rw [if_neg hnot] at h
      cases h
    refine ⟨⟨h1, e1⟩, ⟨h2, e2⟩, ⟨hinactive, e3⟩, ⟨hinactive, e4⟩, ⟨h5, e5⟩, ⟨hinactive, ?_⟩⟩
    rw [e6]
    cases h : activeAt m parent attributes 7685 <;> simp [builtHeader, h]

theorem initialBaseFee_of_atLondon (h : AtLondon m parent) (attributes : PayloadAttributes) :
    m.getParamAtHardfork .initialBaseFee .london = some 1000000000 ∧
      m.getParamAtHardfork .initialBaseFee (builtHardfork m parent attributes) = some 1000000000 :=
  ⟨HardforkManager.getParam_initialBaseFee
      (HardforkManager.isEIPActiveAtHardfork_of_hardforkBlock h (by decide)),
    HardforkManager.getParam_initialBaseFee (active_of_atLondon h (some attributes.timestamp))⟩

theorem checkInitialBaseFee_builtHeader (hfee : activeAt m parent attributes 1559 = true →
    fee.isSome = true) :
    checkInitialBaseFee m (builtHeader keccak256 m parent attributes acc fee)
        (activeAt m parent attributes 1559) = .ok () ↔
      (AtLondon m parent → fee = some 1000000000) := by
  by_cases hlondon : AtLondon m parent
  · have hactive : activeAt m parent attributes 1559 = true := active_of_atLondon hlondon _
    obtain ⟨n, rfl⟩ := Option.isSome_iff_exists.1 (hfee hactive)
    have hblock : m.hardforkBlock .london = some (parent.number + 1) := hlondon
    rw [hactive]
    obtain ⟨hinitial, -⟩ := initialBaseFee_of_atLondon hlondon attributes
    simp [checkInitialBaseFee, builtHeader, hblock, hlondon, hinitial]
  · refine iff_of_true ?_ fun h => absurd h hlondon
    simp only [checkInitialBaseFee]
    split
    · next londonBlock _ _ hblock =>
      rw [if_neg]
      rintro ⟨-, rfl, -⟩
      exact hlondon hblock
    · rfl

theorem build_eq_ok (hfee : activeAt m parent attributes 1559 = true → fee.isSome = true) :
    build m (startedData keccak256 m parent attributes fee) acc = .ok header ↔
      Buildable m parent attributes acc fee ∧
        header = builtHeader keccak256 m parent attributes acc fee := by
  have hbuild : build m (startedData keccak256 m parent attributes fee) acc =
      fromHeaderData (builtData keccak256 m parent attributes acc fee) ⟨m, none, false⟩ := by
    have hhardfork : m.getHardforkByBlock
        (some (zBigInt 0 (startedData keccak256 m parent attributes fee).number))
        (some (zBigInt 0 (startedData keccak256 m parent attributes fee).timestamp)) =
        builtHardfork m parent attributes := by
      rw [startedData, zBigInt_bigint, zBigInt_bigint]
      rfl
    rw [build, hhardfork]
    rfl
  have hnumber : zBigInt 0 (builtData keccak256 m parent attributes acc fee).number =
      parent.number + 1 := zBigInt_bigint _ _
  have htimestamp : (builtData keccak256 m parent attributes acc fee).timestamp.map
      (fun timestamp => zBigInt 0 (some timestamp)) = some attributes.timestamp :=
    congrArg some (zBigInt_bigint _ _)
  rw [hbuild, fromHeaderData_eq_ok]
  simp only [validateBlockHeader_eq_ok, hnumber, htimestamp, zCoreHeaderSchema_builtData,
    zEIPFieldsSchema_builtData hfee]
  constructor
  · rintro ⟨data, difficulty, ⟨hcore, ⟨⟨h1, h2, h3⟩, heip⟩, hgas, hinitial, -⟩, hdifficulty, rfl⟩
    obtain rfl : data = builtHeader keccak256 m parent attributes acc fee := by
      obtain ⟨core, fields⟩ := data
      obtain rfl : fields = _ := heip
      exact congrArg (ValidatedHeader.mk · _) (Except.ok.inj hcore).symm
    obtain rfl := Except.ok.inj hdifficulty
    refine ⟨⟨h1, h2, h3, ?_, (checkInitialBaseFee_builtHeader hfee).1 hinitial⟩, rfl⟩
    exact not_lt.1 (ite_error_eq_ok.1 hgas).1
  · rintro ⟨h, rfl⟩
    refine ⟨_, _, ⟨rfl, ⟨⟨h.feeActive, h.withdrawalsRoot, h.parentBeaconBlockRoot⟩, rfl⟩,
      ite_error_eq_ok.2 ⟨not_lt.2 h.gasUsed, rfl⟩,
      (checkInitialBaseFee_builtHeader hfee).2 h.london, ?_⟩, rfl, rfl⟩
    rw [checkExtraData, if_neg]
    simp [builtHeader]

/-! ## What is validated -/

/-- **The consensus takes a difficulty of zero**: no consensus, casper, another algorithm than the
consensus is for, or the algorithm that is called `pos`. -/
def AcceptsZeroDifficulty (m : HardforkManager) : Option Consensus → Prop
  | none => True
  | some .casper => True
  | some .ethash => m.consensusAlgorithm ≠ .ethash
  | some (.clique _) => m.consensusAlgorithm = .other "pos"

/-- The target of blob gas at a hardfork. -/
def blobTarget (m : HardforkManager) (hardfork : Hardfork) : ℕ :=
  (m.getParamAtHardfork .targetBlobGasPerBlock hardfork).getD 0

/-- **One excess by two targets**: that of the block, and that of the number after it. -/
def BlobTargetsAgree (m : HardforkManager) (parent : ValidatedHeader)
    (attributes : PayloadAttributes) : Prop :=
  let blobGas := parent.excessBlobGas.getD 0 + parent.blobGasUsed.getD 0
  let target := blobTarget m (builtHardfork m parent attributes)
  let nextTarget :=
    blobTarget m (m.getHardforkByBlock (some (parent.number + 1 + 1)) (some attributes.timestamp))
  target = nextTarget ∨ blobGas ≤ target ∧ blobGas ≤ nextTarget

theorem canonicalDifficulty_pos {parentData : ParentHeaderData} {difficulty : ℕ}
    (halgorithm : m.consensusAlgorithm = .ethash)
    (h : ethashCanonicalDifficulty m header (some parentData) = .ok difficulty) :
    0 < difficulty := by
  simp only [ethashCanonicalDifficulty, halgorithm, ne_eq, not_true_eq_false, if_false] at h
  rw [ite_error_eq_ok, ite_error_eq_ok] at h
  obtain ⟨-, hdivisor, h⟩ := h
  have hminimum : m.getParamsAtHardfork (header.getHardfork m) .minimumDifficulty = some 1 :=
    HardforkManager.minimumDifficulty_of_divisor (by exact_mod_cast hdivisor)
  rw [hminimum] at h
  rw [← Except.ok.inj h, Int.lt_toNat]
  exact lt_of_lt_of_le zero_lt_one (le_max_right _ _)

theorem ofHeader_eq_ok {α : Type} {x : Except HeaderError α} {a : α} :
    ofHeader x = .ok a ↔ x = .ok a := by
  cases x <;> simp [ofHeader]

theorem checkDifficulty_builtHeader {ctx : HeaderValidationContext} :
    checkDifficulty m ctx (builtHeader keccak256 m parent attributes acc fee) parent = .ok () ↔
      AcceptsZeroDifficulty m ctx.consensus := by
  have hzero : (builtHeader keccak256 m parent attributes acc fee).difficulty = 0 := rfl
  simp only [checkDifficulty]
  rcases ctx.consensus with _ | consensus | consensus | signers
  · exact iff_of_true rfl trivial
  · refine iff_of_true ?_ trivial
    simp [Consensus.validateDifficulty, hzero]
  · simp only [AcceptsZeroDifficulty]
    by_cases halgorithm : m.consensusAlgorithm = .ethash
    · refine iff_of_false ?_ (not_not.2 halgorithm)
      rw [if_neg (by rw [halgorithm]; intro h; cases h), Consensus.validateDifficulty]
      cases hcanonical : ethashCanonicalDifficulty m
          (builtHeader keccak256 m parent attributes acc fee) (some parent.parentData) with
      | error e => simp
      | ok difficulty =>
        have hpos := canonicalDifficulty_pos halgorithm hcanonical
        simp [hzero, hpos.ne']
    · refine iff_of_true ?_ halgorithm
      simp [Consensus.validateDifficulty, ethashCanonicalDifficulty, halgorithm, hzero]
  · simp only [AcceptsZeroDifficulty]
    split
    · next hpos => exact iff_of_true rfl hpos
    · next hpos =>
      refine iff_of_false ?_ hpos
      simp [Consensus.validateDifficulty, hzero]

/-- The gas limit of the header is the parent's, doubled when the validator doubles it too. -/
theorem adjustedParentGasLimit_builtHeader :
    (builtHeader keccak256 m parent attributes acc fee).adjustedParentGasLimit m parent.gasLimit =
      pendingGasLimit m parent := by
  have hhardfork : (builtHeader keccak256 m parent attributes acc fee).getHardfork m =
      builtHardfork m parent attributes := rfl
  have hnumber : (builtHeader keccak256 m parent attributes acc fee).number = parent.number + 1 :=
    rfl
  rw [ValidatedHeader.adjustedParentGasLimit, pendingGasLimit, hhardfork, hnumber]
  by_cases hlondon : AtLondon m parent
  · have hblock : m.hardforkBlock .london = some (parent.number + 1) := hlondon
    have helasticity : m.getParamAtHardfork .elasticityMultiplier
        (builtHardfork m parent attributes) = some 2 :=
      HardforkManager.getParam_elasticityMultiplier
        (active_of_atLondon hlondon (some attributes.timestamp))
    rw [if_pos hblock]
    simp [hblock, helasticity]
  · have hblock : m.hardforkBlock .london ≠ some (parent.number + 1) := hlondon
    rw [if_neg hblock]
    cases hsome : m.hardforkBlock .london with
    | none => rfl
    | some block =>
      have hne : parent.number + 1 ≠ block := fun heq =>
        hblock (hsome.trans (congrArg some heq.symm))
      simp [hne]

theorem validateGasLimit_builtHeader :
    (builtHeader keccak256 m parent attributes acc fee).validateGasLimit m parent.gasLimit =
      .ok () ↔ 1024 ≤ pendingGasLimit m parent := by
  have hlimit : (builtHeader keccak256 m parent attributes acc fee).gasLimit =
      pendingGasLimit m parent := rfl
  rw [validateGasLimit_eq_ok_iff, adjustedParentGasLimit_builtHeader, hlimit]
  simp only
  omega

theorem checkBaseFee_builtHeader :
    checkBaseFee m (builtHeader keccak256 m parent attributes acc fee) parent
        (builtHardfork m parent attributes) = .ok () ↔
      (activeAt m parent attributes 1559 = true → ∃ expected,
        expectedBaseFee m (parent.number + 1) parent (builtHardfork m parent attributes) =
          .ok expected ∧ fee = some expected) := by
  have hactive : m.isEIPActiveAtHardfork 1559 (builtHardfork m parent attributes) =
      activeAt m parent attributes 1559 := rfl
  have hnumber : (builtHeader keccak256 m parent attributes acc fee).number = parent.number + 1 :=
    rfl
  have hfee : (builtHeader keccak256 m parent attributes acc fee).baseFeePerGas = fee := rfl
  rw [checkBaseFee, hactive, hnumber, hfee]
  cases activeAt m parent attributes 1559 with
  | false => simp
  | true =>
    cases expectedBaseFee m (parent.number + 1) parent (builtHardfork m parent attributes) with
    | error e => simp [ofHeader]
    | ok expected => simp [ofHeader]

theorem checkBlobGas_builtHeader :
    checkBlobGas m (builtHeader keccak256 m parent attributes acc fee) parent
        (builtHardfork m parent attributes) = .ok () ↔
      (activeAt m parent attributes 4844 = true → BlobTargetsAgree m parent attributes) := by
  have hactive : m.isEIPActiveAtHardfork 4844 (builtHardfork m parent attributes) =
      activeAt m parent attributes 4844 := rfl
  have hnumber : (builtHeader keccak256 m parent attributes acc fee).number = parent.number + 1 :=
    rfl
  have htimestamp : (builtHeader keccak256 m parent attributes acc fee).timestamp =
      attributes.timestamp := rfl
  rw [checkBlobGas, hactive, hnumber, htimestamp]
  cases h4844 : activeAt m parent attributes 4844 with
  | false => simp
  | true =>
    have hexcess : (builtHeader keccak256 m parent attributes acc fee).excessBlobGas =
        some (excessAt m parent (builtHardfork m parent attributes)) := by
      simp only [builtHeader, h4844, if_true]
    simp only [if_true, calcNextExcessBlobGas_eq, ofHeader, ok_bind, hexcess, BlobTargetsAgree,
      excessAt, blobTarget, Option.some.injEq, forall_const]
    split
    · next heq => exact iff_of_true rfl (by omega)
    · next hne => exact iff_of_false (by simp) (by omega)

theorem checkRequestsHash_builtHeader :
    checkRequestsHash m (builtHeader keccak256 m parent attributes acc fee)
      (builtHardfork m parent attributes) = .ok () := by
  have hactive : m.isEIPActiveAtHardfork 7685 (builtHardfork m parent attributes) =
      activeAt m parent attributes 7685 := rfl
  rw [checkRequestsHash, hactive, if_neg]
  rintro ⟨h7685, hnone⟩
  simp [builtHeader, h7685] at hnone

theorem validateHeader_builtHeader {ctx : HeaderValidationContext}
    (hparent : ctx.getParentHeader (parent.computeHash keccak256 m).1 = .ok parent)
    (htimestamp : parent.timestamp < attributes.timestamp) :
    validateHeader m (builtHeader keccak256 m parent attributes acc fee) ctx none = .ok () ↔
      AcceptsZeroDifficulty m ctx.consensus ∧ 1024 ≤ pendingGasLimit m parent ∧
        (activeAt m parent attributes 1559 = true → ∃ expected,
          expectedBaseFee m (parent.number + 1) parent (builtHardfork m parent attributes) =
            .ok expected ∧ fee = some expected) ∧
        (activeAt m parent attributes 4844 = true → BlobTargetsAgree m parent attributes) := by
  have hnumber : (builtHeader keccak256 m parent attributes acc fee).number = parent.number + 1 :=
    rfl
  have hhash : (builtHeader keccak256 m parent attributes acc fee).parentHash.1 =
      (parent.computeHash keccak256 m).1 := rfl
  have htime : (builtHeader keccak256 m parent attributes acc fee).timestamp =
      attributes.timestamp := rfl
  have hhardfork : m.getHardforkByBlock (some (parent.number + 1)) (some attributes.timestamp) =
      builtHardfork m parent attributes := rfl
  rw [validateHeader, hnumber, hhash, hparent, htime, hhardfork, if_neg (Nat.succ_ne_zero _)]
  simp only [ok_bind, ne_eq, not_true_eq_false, if_false, if_neg (not_le.2 htimestamp), checkUncle]
  simp only [check_bind_eq_ok, checkDifficulty_builtHeader, ofHeader_eq_ok,
    validateGasLimit_builtHeader, checkBaseFee_builtHeader, checkBlobGas_builtHeader,
    checkRequestsHash_builtHeader, and_true]

/-! ## The base fee that is chosen -/

theorem isSome_of_chosenBaseFee (h : chosenBaseFee m parent attributes = .ok fee)
    (hactive : activeAt m parent attributes 1559 = true) : fee.isSome = true := by
  rw [chosenBaseFee, if_pos (.inr hactive)] at h
  obtain ⟨next, -, rfl⟩ := map_eq_ok h
  rfl

/-- **The agreement**: a pending block is started and built, and its header passes against the
parent. -/
def Agrees (keccak256 : Bytes → Bytes32) (m : HardforkManager) (parent : ValidatedHeader) (now : ℕ)
    (attributes : PayloadAttributes) (acc : Accumulated) (ctx : HeaderValidationContext) : Prop :=
  ∃ header, pendingHeader keccak256 m parent now attributes acc = .ok header ∧
    validateHeader m header ctx none = .ok ()

/-- **When they agree.** -/
structure Agreeable (m : HardforkManager) (parent : ValidatedHeader)
    (attributes : PayloadAttributes) (acc : Accumulated) (consensus : Option Consensus) : Prop where
  /-- The consensus takes a difficulty of zero. -/
  difficulty : AcceptsZeroDifficulty m consensus
  /-- The gas limit has a bound. -/
  gasLimit : 1024 ≤ pendingGasLimit m parent
  /-- No more gas has been used than there is. -/
  gasUsed : acc.gasUsed ≤ pendingGasLimit m parent
  /-- A block with a base fee has a parent with one. -/
  parentBaseFee : activeByNumber m parent = true ∨ activeAt m parent attributes 1559 = true →
    parent.isEIPActive m 1559 = true
  /-- What is active by the number is active by the time. -/
  activeByTime : activeByNumber m parent = true → activeAt m parent attributes 1559 = true
  /-- At London the parent's next base fee happens to be the initial one. -/
  london : AtLondon m parent → parent.calcNextBaseFee m = .ok 1000000000
  /-- The targets of blob gas agree. -/
  blobTargets : activeAt m parent attributes 4844 = true → BlobTargetsAgree m parent attributes
  /-- Withdrawals are there only when they are active, -/
  withdrawals : acc.withdrawalsRoot.isSome = true → activeAt m parent attributes 4895 = true
  /-- and so is the beacon root. -/
  parentBeaconBlockRoot : attributes.parentBeaconBlockRoot.isSome = true →
    activeAt m parent attributes 4788 = true

theorem agrees_iff_exists {ctx : HeaderValidationContext}
    (hparent : ctx.getParentHeader (parent.computeHash keccak256 m).1 = .ok parent)
    (htimestamp : parent.timestamp < attributes.timestamp) :
    Agrees keccak256 m parent now attributes acc ctx ↔
      ∃ fee, chosenBaseFee m parent attributes = .ok fee ∧
        Buildable m parent attributes acc fee ∧ AcceptsZeroDifficulty m ctx.consensus ∧
        1024 ≤ pendingGasLimit m parent ∧
        (activeAt m parent attributes 1559 = true → ∃ expected,
          expectedBaseFee m (parent.number + 1) parent (builtHardfork m parent attributes) =
            .ok expected ∧ fee = some expected) ∧
        (activeAt m parent attributes 4844 = true → BlobTargetsAgree m parent attributes) := by
  simp only [Agrees, pendingHeader, start_eq]
  constructor
  · rintro ⟨header, hheader, hvalid⟩
    obtain ⟨headerData, hstart, hbuild⟩ := bind_eq_ok.1 hheader
    obtain ⟨fee, hfee, rfl⟩ := map_eq_ok hstart
    obtain ⟨hbuildable, rfl⟩ := (build_eq_ok (isSome_of_chosenBaseFee hfee)).1 hbuild
    exact ⟨fee, hfee, hbuildable, (validateHeader_builtHeader hparent htimestamp).1 hvalid⟩
  · rintro ⟨fee, hfee, hbuildable, hvalid⟩
    refine ⟨builtHeader keccak256 m parent attributes acc fee, ?_,
      (validateHeader_builtHeader hparent htimestamp).2 hvalid⟩
    rw [hfee]
    exact (build_eq_ok (isSome_of_chosenBaseFee hfee)).2 ⟨hbuildable, rfl⟩

theorem expectedBaseFee_eq : expectedBaseFee m (parent.number + 1) parent
    (builtHardfork m parent attributes) =
      if AtLondon m parent then .ok 1000000000 else parent.calcNextBaseFee m := by
  rw [expectedBaseFee, isInitialEIP1559Block]
  by_cases hlondon : AtLondon m parent
  · have hblock : m.hardforkBlock .london = some (parent.number + 1) := hlondon
    rw [if_pos (by simpa using hblock), if_pos hlondon,
      (initialBaseFee_of_atLondon hlondon attributes).2]
    rfl
  · have hblock : ¬ m.hardforkBlock .london = some (parent.number + 1) := hlondon
    rw [if_neg (by simpa using hblock), if_neg hlondon]

/-- **Builder and validator agree** exactly when the parent of a block with a base fee has one, the
number's hardfork does not run ahead of the time's, the first London block's fee is the initial one,
the targets of blob gas on both sides of a fork agree, and what else is put in fits. -/
theorem agrees_iff (keccak256 : Bytes → Bytes32) (m : HardforkManager) (parent : ValidatedHeader)
    (now : ℕ) (attributes : PayloadAttributes) (acc : Accumulated) (ctx : HeaderValidationContext)
    (validateConsensus : Bool) (hvalid : parent.Valid m validateConsensus)
    (hparent : ctx.getParentHeader (parent.computeHash keccak256 m).1 = .ok parent)
    (htimestamp : parent.timestamp < attributes.timestamp) :
    Agrees keccak256 m parent now attributes acc ctx ↔
      Agreeable m parent attributes acc ctx.consensus := by
  rw [agrees_iff_exists hparent htimestamp]
  simp only [expectedBaseFee_eq]
  constructor
  · rintro ⟨fee, hfee, hbuildable, hdifficulty, hlimit, hexpected, hblob⟩
    have hnext : activeByNumber m parent = true ∨ activeAt m parent attributes 1559 = true →
        ∃ next, parent.calcNextBaseFee m = .ok next ∧ some next = fee := by
      intro hactive
      rw [chosenBaseFee, if_pos hactive] at hfee
      exact map_eq_ok hfee
    refine ⟨hdifficulty, hlimit, hbuildable.gasUsed, fun hactive => ?_, fun hactive => ?_,
      fun hlondon => ?_, hblob, hbuildable.withdrawalsRoot, hbuildable.parentBeaconBlockRoot⟩
    · obtain ⟨next, hcalc, -⟩ := hnext hactive
      exact isEIPActive_of_nextBaseFee hcalc
    · obtain ⟨next, -, rfl⟩ := hnext (.inl hactive)
      exact hbuildable.feeActive rfl
    · obtain ⟨next, hcalc, hsome⟩ := hnext (.inr (active_of_atLondon hlondon _))
      rw [hbuildable.london hlondon] at hsome
      rw [hcalc, Option.some.inj hsome]
  · intro h
    by_cases hactive : activeAt m parent attributes 1559 = true
    · have hparentActive := h.parentBaseFee (.inr hactive)
      have hparentLimit : 2 ≤ parent.gasLimit := by
        have hlimit := h.gasLimit
        rw [pendingGasLimit] at hlimit
        split at hlimit <;> omega
      obtain ⟨next, hnext⟩ := exists_nextBaseFee hparentActive
        (hvalid.baseFeePerGas.trans hparentActive) hparentLimit
      have hlondon : AtLondon m parent → next = 1000000000 := fun hlondon =>
        Except.ok.inj (hnext.symm.trans (h.london hlondon))
      refine ⟨some next, ?_, ⟨fun _ => hactive, h.withdrawals, h.parentBeaconBlockRoot, h.gasUsed,
        fun hat => congrArg some (hlondon hat)⟩, h.difficulty, h.gasLimit, fun _ => ⟨next, ?_, rfl⟩,
        h.blobTargets⟩
      · rw [chosenBaseFee, if_pos (.inr hactive), hnext]
        rfl
      · split
        · next hat => rw [hlondon hat]
        · exact hnext
    · have hnum : ¬ activeByNumber m parent = true := fun hnum => hactive (h.activeByTime hnum)
      refine ⟨none, ?_, ⟨fun hsome => ?_, h.withdrawals, h.parentBeaconBlockRoot, h.gasUsed,
        fun hat => absurd (active_of_atLondon hat _) hactive⟩, h.difficulty, h.gasLimit,
        fun hact => absurd hact hactive, h.blobTargets⟩
      · rw [chosenBaseFee, if_neg (not_or.2 ⟨hnum, hactive⟩)]
      · cases hsome

/-- A header of the sample chain. -/
def sampleParent (number : ℕ) (baseFeePerGas : Option ℕ) : ValidatedHeader :=
  { coreDefaults number 50 with gasLimit := 30000000, baseFeePerGas }

/-- The time after it. -/
def sampleAttributes : PayloadAttributes := ⟨60, none, none, none⟩

/-- Nothing has been added. -/
def sampleAccumulated : Accumulated :=
  ⟨0, 0, KECCAK256_RLP, KECCAK256_RLP, none, KECCAK256_RLP,
    ⟨List.replicate 256 0, List.length_replicate⟩, KECCAK256_RLP⟩

/-- A validation that only has a parent. -/
def sampleContext (parent : ValidatedHeader) : HeaderValidationContext :=
  ⟨some .casper, fun _ => .ok parent⟩

/-- A block of London. -/
theorem agrees_iff_sampleParent :
    Agrees (fun _ => KECCAK256_NULL) sampleManager (sampleParent 11 (some 7)) 0 sampleAttributes
        sampleAccumulated (sampleContext (sampleParent 11 (some 7))) ↔
      Agreeable sampleManager (sampleParent 11 (some 7)) sampleAttributes sampleAccumulated
        (some .casper) :=
  agrees_iff (fun _ => KECCAK256_NULL) sampleManager (sampleParent 11 (some 7)) 0 sampleAttributes
    sampleAccumulated (sampleContext (sampleParent 11 (some 7))) true
    ⟨by decide +kernel, by decide +kernel, by decide +kernel, by decide +kernel, by decide +kernel,
      by decide +kernel, by decide +kernel, by decide +kernel, by decide +kernel⟩ rfl (by decide)

/-- **The first London block is never built**: its parent is asked for the next base fee. -/
theorem not_agrees_sampleParent :
    (sampleParent 9 none).Valid sampleManager true ∧
      ¬ Agrees (fun _ => KECCAK256_NULL) sampleManager (sampleParent 9 none) 0 sampleAttributes
        sampleAccumulated (sampleContext (sampleParent 9 none)) := by
  refine ⟨⟨by decide +kernel, by decide +kernel, by decide +kernel, by decide +kernel,
    by decide +kernel, by decide +kernel, by decide +kernel, by decide +kernel,
    by decide +kernel⟩, ?_⟩
  rintro ⟨header, hheader, -⟩
  obtain ⟨headerData, hstart, -⟩ := bind_eq_ok.1 hheader
  rw [start_eq] at hstart
  obtain ⟨fee, hfee, -⟩ := map_eq_ok hstart
  have hthrows : chosenBaseFee sampleManager (sampleParent 9 none) sampleAttributes =
      .error .requires1559 := by decide +kernel
  rw [hthrows] at hfee
  cases hfee

end Miner

end TsEthereum
