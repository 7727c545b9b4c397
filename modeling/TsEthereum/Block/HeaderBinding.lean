import TsEthereum.Block.Header

/-!
# What a header's hash binds

A header is read of a list of byte strings and written as one; its hash is that of the list that
is written. `HashBinds`: what is accepted of a list is written as it was received, so that the
hash is the hash of what was received.

That is so but for what the schema normalises or lets through (`hashBinds_iff`): a base fee or a
withdrawals root that is left out is taken for the default, leading zeros of an integer are
dropped, a field of 32 bytes may be empty, and a difficulty may be calculated anew. The other
fields cannot be left out, and those the fork does not have are refused.
-/

namespace TsEthereum

namespace Block

open TsEthereum.ChainConfig
open TsEthereum.Blockchain (bigIntToBytes ofBigEndian_bigIntToBytes)

variable {m : HardforkManager}

/-! ## What the schema lets through -/

theorem zBytes_some_eq_ok {field : String} {length : ℕ} {default val : BytesOrEmpty length}
    {v : FlexibleTypeInput} :
    zBytes field length default (some v) = .ok val ↔ val.1 = v.toBytes := by
  rw [zBytes]
  constructor
  · intro h
    split at h
    · rw [← Except.ok.inj h]
    · cases h
  · intro h
    have hlength : v.toBytes.length = length ∨ v.toBytes = [] := h ▸ val.2
    rw [dif_pos hlength]
    exact congrArg Except.ok (Subtype.ext h.symm)

theorem zAddress_bytes_eq_ok {field : String} {default address : Bytes20} {b : Bytes} :
    zAddress field default (some (.bytes b)) = .ok address ↔ address.1 = b := by
  rw [zAddress]
  constructor
  · intro h
    split at h
    · rw [← Except.ok.inj h]
    · cases h
  · intro h
    have hlength : b.length = 20 := h ▸ address.2
    rw [dif_pos hlength]
    exact congrArg Except.ok (Subtype.ext h.symm)

theorem zActive_eq_ok {α : Type} {active : Bool} {field : String} {eip : ℕ}
    {parse : Option FlexibleTypeInput → Except HeaderError α} {val : Option FlexibleTypeInput}
    {parsed : Option α} : zActive active field eip parse val = .ok parsed ↔
      (active = true ∧ ∃ a, parse val = .ok a ∧ parsed = some a) ∨
        (active = false ∧ val = none ∧ parsed = none) := by
  rw [zActive]
  cases active with
  | true =>
    simp only [if_true, true_and, Bool.true_eq_false, false_and, or_false]
    constructor
    · intro h
      obtain ⟨a, ha, hsome⟩ := map_eq_ok h
      exact ⟨a, ha, hsome.symm⟩
    · rintro ⟨a, ha, rfl⟩
      rw [ha]
      rfl
  | false =>
    cases val with
    | none => simp [eq_comm]
    | some v => simp

theorem zCoreHeaderSchema_eq_ok {header : HeaderData} {core : ValidatedCoreHeaderFields} :
    zCoreHeaderSchema header = .ok core ↔
      zBytes "parentHash" 32 (zeros 32) header.parentHash = .ok core.parentHash ∧
      zBytes "uncleHash" 32 KECCAK256_RLP_ARRAY header.uncleHash = .ok core.uncleHash ∧
      zAddress "coinbase" (repeated 0) header.coinbase = .ok core.coinbase ∧
      zBytes "stateRoot" 32 (zeros 32) header.stateRoot = .ok core.stateRoot ∧
      zBytes "transactionsTrie" 32 emptyTrieRoot header.transactionsTrie =
        .ok core.transactionsTrie ∧
      zBytes "receiptTrie" 32 emptyTrieRoot header.receiptTrie = .ok core.receiptTrie ∧
      zBytes "logsBloom" 256 (zeros 256) header.logsBloom = .ok core.logsBloom ∧
      zBytes "mixHash" 32 (zeros 32) header.mixHash = .ok core.mixHash ∧
      zBytes "nonce" 8 (zeros 8) header.nonce = .ok core.nonce ∧
      zBigInt 0 header.difficulty = core.difficulty ∧ zBigInt 0 header.number = core.number ∧
      zBigInt 0xffffffffffffff header.gasLimit = core.gasLimit ∧
      zBigInt 0 header.gasUsed = core.gasUsed ∧ zBigInt 0 header.timestamp = core.timestamp ∧
      zBytesVar [] header.extraData = core.extraData := by
  rw [zCoreHeaderSchema]
  simp only [bind_eq_ok]
  constructor
  · rintro ⟨_, h1, _, h2, _, h3, _, h4, _, h5, _, h6, _, h7, _, h8, _, h9, h⟩
    obtain rfl := Except.ok.inj h
    exact ⟨h1, h2, h3, h4, h5, h6, h7, h8, h9, rfl, rfl, rfl, rfl, rfl, rfl⟩
  · rintro ⟨h1, h2, h3, h4, h5, h6, h7, h8, h9, h10, h11, h12, h13, h14, h15⟩
    refine ⟨_, h1, _, h2, _, h3, _, h4, _, h5, _, h6, _, h7, _, h8, _, h9, ?_⟩
    rw [h10, h11, h12, h13, h14, h15]
    rfl

theorem zEIPFieldsSchema_eq_ok {header : HeaderData} {n : ℕ} {timestamp : Option ℕ}
    {fields : ValidatedEIPHeaderFields} :
    zEIPFieldsSchema m header n timestamp = .ok fields ↔
      zActive (m.isEIPActiveAtBlock 1559 n timestamp) "baseFeePerGas" 1559
        (fun val => .ok (zBigInt (if isLondonBlock m header.number then
          (m.getParamAtHardfork .initialBaseFee .london).getD 0 else 7) val))
        header.baseFeePerGas = .ok fields.baseFeePerGas ∧
      zActive (m.isEIPActiveAtBlock 4895 n timestamp) "withdrawalsRoot" 4895
        (zBytes "withdrawalsRoot" 32 emptyTrieRoot) header.withdrawalsRoot =
          .ok fields.withdrawalsRoot ∧
      zActive (m.isEIPActiveAtBlock 4844 n timestamp) "blobGasUsed" 4844
        (fun val => .ok (zBigInt 0 val)) header.blobGasUsed = .ok fields.blobGasUsed ∧
      zActive (m.isEIPActiveAtBlock 4844 n timestamp) "excessBlobGas" 4844
        (fun val => .ok (zBigInt 0 val)) header.excessBlobGas = .ok fields.excessBlobGas ∧
      zActive (m.isEIPActiveAtBlock 4788 n timestamp) "parentBeaconBlockRoot" 4788
        (zBytes "parentBeaconBlockRoot" 32 (zeros 32)) header.parentBeaconBlockRoot =
          .ok fields.parentBeaconBlockRoot ∧
      zActive (m.isEIPActiveAtBlock 7685 n timestamp) "requestsHash" 7685
        (zBytes "requestsHash" 32 SHA256_NULL) header.requestsHash = .ok fields.requestsHash := by
  rw [zEIPFieldsSchema]
  simp only [bind_eq_ok]
  constructor
  · rintro ⟨_, h1, _, h2, _, h3, _, h4, _, h5, _, h6, h⟩
    obtain rfl := Except.ok.inj h
    exact ⟨h1, h2, h3, h4, h5, h6⟩
  · rintro ⟨h1, h2, h3, h4, h5, h6⟩
    exact ⟨_, h1, _, h2, _, h3, _, h4, _, h5, _, h6, rfl⟩

theorem validateBlockHeader_eq_ok {header : HeaderData} {validateConsensus : Bool}
    {data : ValidatedHeader} :
    validateBlockHeader m header validateConsensus = .ok data ↔
      let blockNumber := zBigInt 0 header.number
      let timestamp := header.timestamp.map fun timestamp => zBigInt 0 (some timestamp)
      zCoreHeaderSchema header = .ok data.toValidatedCoreHeaderFields ∧
      zEIPFieldsSchema m header blockNumber timestamp = .ok data.toValidatedEIPHeaderFields ∧
      checkGasUsed data = .ok () ∧
      checkInitialBaseFee m data (m.isEIPActiveAtBlock 1559 blockNumber timestamp) = .ok () ∧
      checkExtraData m data blockNumber validateConsensus = .ok () := by
  rw [validateBlockHeader]
  simp only [bind_eq_ok]
  constructor
  · rintro ⟨_, h1, _, h2, _, h3, _, h4, _, h5, h⟩
    obtain rfl := Except.ok.inj h
    exact ⟨h1, h2, h3, h4, h5⟩
  · rintro ⟨h1, h2, h3, h4, h5⟩
    exact ⟨_, h1, _, h2, _, h3, _, h4, _, h5, rfl⟩

theorem fromHeaderData_eq_ok {headerData : HeaderData} {opts : CreateHeaderOptions}
    {header : ValidatedHeader} :
    fromHeaderData headerData opts = .ok header ↔
      ∃ data difficulty, validateBlockHeader opts.hardforkManager headerData
          (!opts.skipConsensusFormatValidation) = .ok data ∧
        ethashCanonicalDifficulty opts.hardforkManager data opts.calcDifficultyFromHeader =
          .ok difficulty ∧ header = { data with difficulty } := by
  rw [fromHeaderData]
  simp only [bind_eq_ok]
  constructor
  · rintro ⟨data, h1, difficulty, h2, h⟩
    exact ⟨data, difficulty, h1, h2, (Except.ok.inj h).symm⟩
  · rintro ⟨data, difficulty, h1, h2, rfl⟩
    exact ⟨data, h1, difficulty, h2, rfl⟩

theorem checkProvided_eq_ok {active : Bool} {field : String} {val : Option FlexibleTypeInput} :
    checkProvided active field val = .ok () ↔ (active = true → val.isSome = true) := by
  rw [checkProvided]
  cases active <;> cases val <;> simp

/-! ## The list -/

/-- The hardfork manager's fields beyond the fifteen, at a number and a time. -/
def eipFieldCount (m : HardforkManager) (number timestamp : ℕ) : ℕ :=
  [1559, 4895, 4844, 4844, 4788, 7685].countP fun eip =>
    m.isEIPActiveAtBlock eip number (some timestamp)

/-- The number a list of values says. -/
def numberOf (values : List Bytes) : ℕ := ofBigEndian (values.getD 8 [])

/-- The time it says. -/
def timestampOf (values : List Bytes) : ℕ := ofBigEndian (values.getD 11 [])

/-- The fields of a set length, with it. -/
def fixedLengths : List (ℕ × ℕ) :=
  [(0, 32), (1, 32), (2, 20), (3, 32), (4, 32), (5, 32), (6, 256), (13, 32), (14, 8), (16, 32),
    (19, 32), (20, 32)]

/-- The fields that are integers. -/
def integers : List ℕ := [7, 8, 9, 10, 11, 15, 17, 18]

/-- **A list of the fork's form**: with as many fields as the fork has, each of its length, and
integers without leading zeros. -/
structure Strict (m : HardforkManager) (values : List Bytes) : Prop where
  length : values.length = 15 + eipFieldCount m (numberOf values) (timestampOf values)
  fixedLength : ∀ p ∈ fixedLengths, ∀ v, values[p.1]? = some v → v.length = p.2
  integer : ∀ i ∈ integers, ∀ v, values[i]? = some v → v.head? ≠ some 0

/-- **The hash binds a list**: what is accepted of it is of the fork's form, and is written as it
was received, so that the header's hash is the hash of what was received. -/
def HashBinds (keccak256 : Bytes → Bytes32) (opts : CreateHeaderOptions) (values : List Bytes) :
    Prop :=
  ∀ header, fromBytesArray values opts = .ok header →
    header.toRaw opts.hardforkManager = values ∧
      header.computeHash keccak256 opts.hardforkManager =
        keccak256 (Rlp.encode (.list (values.map .bytes))) ∧
      Strict opts.hardforkManager values

/-- **Nothing is normalised**: the base fee and the withdrawals root are there when their EIPs are
active, no field of a set length is empty, no integer has a leading zero, and the difficulty is
not calculated to be another. -/
structure Unchanged (opts : CreateHeaderOptions) (values : List Bytes) : Prop where
  baseFeePerGas : opts.hardforkManager.isEIPActiveAtBlock 1559 (numberOf values)
    (some (timestampOf values)) = true → 15 < values.length
  withdrawalsRoot : opts.hardforkManager.isEIPActiveAtBlock 4895 (numberOf values)
    (some (timestampOf values)) = true → 16 < values.length
  nonempty : ∀ p ∈ fixedLengths, values[p.1]? ≠ some []
  integer : ∀ i ∈ integers, ∀ v, values[i]? = some v → v.head? ≠ some 0
  difficulty : ∀ data, validateBlockHeader opts.hardforkManager (headerDataOf values)
      (!opts.skipConsensusFormatValidation) = .ok data →
    ethashCanonicalDifficulty opts.hardforkManager data opts.calcDifficultyFromHeader =
      .ok data.difficulty

/-! ## What is received -/

theorem exists_values {values : List Bytes} (h : 15 ≤ values.length) :
    ∃ v0 v1 v2 v3 v4 v5 v6 v7 v8 v9 v10 v11 v12 v13 v14 rest,
      values = [v0, v1, v2, v3, v4, v5, v6, v7, v8, v9, v10, v11, v12, v13, v14] ++ rest := by
  match values, h with
  | v0 :: v1 :: v2 :: v3 :: v4 :: v5 :: v6 :: v7 :: v8 :: v9 :: v10 :: v11 :: v12 :: v13 :: v14 ::
      rest, _ => exact ⟨_, _, _, _, _, _, _, _, _, _, _, _, _, _, _, rest, rfl⟩

/-- **The fifteen are received as they are written**, but for the leading zeros of integers. -/
theorem raw_eq_take {values : List Bytes} {core : ValidatedCoreHeaderFields}
    (hlength : 15 ≤ values.length) (h : zCoreHeaderSchema (headerDataOf values) = .ok core)
    (hinteger : ∀ i ∈ integers, ∀ v, values[i]? = some v → v.head? ≠ some 0) :
    core.raw = values.take 15 := by
  obtain ⟨v0, v1, v2, v3, v4, v5, v6, v7, v8, v9, v10, v11, v12, v13, v14, rest, rfl⟩ :=
    exists_values hlength
  obtain ⟨h1, h2, h3, h4, h5, h6, h7, h8, h9, h10, h11, h12, h13, h14, h15⟩ :=
    zCoreHeaderSchema_eq_ok.1 h
  have hbytes : ∀ {field : String} {length : ℕ} {default val : BytesOrEmpty length} {v : Bytes},
      zBytes field length default (some (.bytes v)) = .ok val → val.1 = v :=
    fun h => zBytes_some_eq_ok.1 h
  have hint : ∀ i ∈ integers, ∀ (v : Bytes) (d n : ℕ),
      ([v0, v1, v2, v3, v4, v5, v6, v7, v8, v9, v10, v11, v12, v13, v14] ++ rest)[i]? = some v →
      zBigInt d (some (.bytes v)) = n → bigEndian n = v := by
    rintro i hi v d n hv rfl
    exact bigEndian_ofBigEndian (hinteger i hi v hv)
  rw [ValidatedCoreHeaderFields.raw, hbytes h1, hbytes h2, zAddress_bytes_eq_ok.1 h3, hbytes h4,
    hbytes h5, hbytes h6, hbytes h7, hbytes h8, hbytes h9, hint 7 (by decide) v7 _ _ rfl h10,
    hint 8 (by decide) v8 _ _ rfl h11, hint 9 (by decide) v9 _ _ rfl h12,
    hint 10 (by decide) v10 _ _ rfl h13, hint 11 (by decide) v11 _ _ rfl h14, ← h15]
  rfl

/-- A field that is pushed is received as it is written: an integer, if it has no leading zero, -/
theorem pushed_bigEndian {active : Bool} {field : String} {eip default : ℕ} {v : Option Bytes}
    {parsed : Option ℕ}
    (h : zActive active field eip (fun val => .ok (zBigInt default val)) (v.map .bytes) = .ok parsed)
    (hprovided : active = true → v.isSome = true) (hinteger : ∀ b, v = some b → b.head? ≠ some 0) :
    pushed active (parsed.map bigEndian) = v.toList := by
  rcases zActive_eq_ok.1 h with ⟨rfl, n, hn, rfl⟩ | ⟨rfl, hnone, rfl⟩
  · obtain ⟨b, rfl⟩ := Option.isSome_iff_exists.1 (hprovided rfl)
    obtain rfl := Except.ok.inj hn
    have hb : bigEndian (zBigInt default (some (.bytes b))) = b :=
      bigEndian_ofBigEndian (hinteger b rfl)
    simp [pushed, hb]
  · rw [Option.map_eq_none_iff.1 hnone]
    rfl

/-- and a byte string. -/
theorem pushed_bytes {active : Bool} {field : String} {eip length : ℕ} {v : Option Bytes}
    {default : BytesOrEmpty length} {parsed : Option (BytesOrEmpty length)}
    (h : zActive active field eip (zBytes field length default) (v.map .bytes) = .ok parsed)
    (hprovided : active = true → v.isSome = true) :
    pushed active (parsed.map Subtype.val) = v.toList := by
  rcases zActive_eq_ok.1 h with ⟨rfl, val, hval, rfl⟩ | ⟨rfl, hnone, rfl⟩
  · obtain ⟨b, rfl⟩ := Option.isSome_iff_exists.1 (hprovided rfl)
    have hb : val.1 = b := zBytes_some_eq_ok.1 hval
    simp [pushed, hb]
  · rw [Option.map_eq_none_iff.1 hnone]
    rfl

theorem toList_drop {values : List Bytes} (hlow : 15 ≤ values.length) (hhigh : values.length ≤ 21) :
    values[15]?.toList ++ values[16]?.toList ++ (values[17]?.toList ++ values[18]?.toList) ++
      values[19]?.toList ++ values[20]?.toList = values.drop 15 := by
  obtain ⟨v0, v1, v2, v3, v4, v5, v6, v7, v8, v9, v10, v11, v12, v13, v14, rest, rfl⟩ :=
    exists_values hlow
  match rest, hhigh with
  | [], _ => rfl
  | [_], _ => rfl
  | [_, _], _ => rfl
  | [_, _, _], _ => rfl
  | [_, _, _, _], _ => rfl
  | [_, _, _, _, _], _ => rfl
  | [_, _, _, _, _, _], _ => rfl
  | _ :: _ :: _ :: _ :: _ :: _ :: _ :: _, h =>
    simp only [List.length_append, List.length_cons] at h
    omega

/-- **What is accepted**: the fields of a list, with the difficulty calculated. -/
structure Accepted (opts : CreateHeaderOptions) (values : List Bytes) (data : ValidatedHeader) :
    Prop where
  low : 15 ≤ values.length
  high : values.length ≤ 21
  number : numberOf values = data.number
  timestamp : timestampOf values = data.timestamp
  core : zCoreHeaderSchema (headerDataOf values) = .ok data.toValidatedCoreHeaderFields
  eipFields : zEIPFieldsSchema opts.hardforkManager (headerDataOf values) data.number
    (some data.timestamp) = .ok data.toValidatedEIPHeaderFields
  validated : validateBlockHeader opts.hardforkManager (headerDataOf values)
    (!opts.skipConsensusFormatValidation) = .ok data
  blobGasUsed : data.isEIPActive opts.hardforkManager 4844 = true → values[17]?.isSome = true
  excessBlobGas : data.isEIPActive opts.hardforkManager 4844 = true → values[18]?.isSome = true
  parentBeaconBlockRoot :
    data.isEIPActive opts.hardforkManager 4788 = true → values[19]?.isSome = true
  requestsHash : data.isEIPActive opts.hardforkManager 7685 = true → values[20]?.isSome = true

theorem numberOf_eq {values : List Bytes} (h : 15 ≤ values.length) :
    zBigInt 0 (headerDataOf values).number = numberOf values ∧
      ((headerDataOf values).timestamp.map fun timestamp => zBigInt 0 (some timestamp)) =
        some (timestampOf values) := by
  obtain ⟨v0, v1, v2, v3, v4, v5, v6, v7, v8, v9, v10, v11, v12, v13, v14, rest, rfl⟩ :=
    exists_values h
  exact ⟨rfl, rfl⟩

theorem accepted_of_ok {opts : CreateHeaderOptions} {values : List Bytes} {header : ValidatedHeader}
    (h : fromBytesArray values opts = .ok header) :
    ∃ data difficulty, Accepted opts values data ∧
      ethashCanonicalDifficulty opts.hardforkManager data opts.calcDifficultyFromHeader =
        .ok difficulty ∧ header = { data with difficulty } := by
  rw [fromBytesArray] at h
  simp only [bind_eq_ok] at h
  obtain ⟨headerData, hvalues, header', hheader, _, -, _, h1, _, h2, _, h3, _, h4, hpure⟩ := h
  obtain rfl := Except.ok.inj hpure
  rw [valuesArrayToHeaderData, ite_error_eq_ok, ite_error_eq_ok] at hvalues
  obtain ⟨hhigh, hlow, hvalues⟩ := hvalues
  obtain rfl := Except.ok.inj hvalues
  obtain ⟨data, difficulty, hvalid, hdifficulty, rfl⟩ := fromHeaderData_eq_ok.1 hheader
  obtain ⟨hnumber, htimestamp⟩ := numberOf_eq (not_lt.1 hlow)
  have hvalidated := hvalid
  rw [validateBlockHeader_eq_ok, hnumber, htimestamp] at hvalid
  obtain ⟨hcore, heip, -, -, -⟩ := hvalid
  obtain ⟨-, -, -, -, -, -, -, -, -, -, hn, -, -, ht, -⟩ := zCoreHeaderSchema_eq_ok.1 hcore
  have hnumberOf : numberOf values = data.number := hnumber.symm.trans hn
  have htimestampOf : timestampOf values = data.timestamp := by
    refine Eq.trans ?_ ht
    obtain ⟨v0, v1, v2, v3, v4, v5, v6, v7, v8, v9, v10, v11, v12, v13, v14, rest, rfl⟩ :=
      exists_values (not_lt.1 hlow)
    rfl
  rw [hnumberOf, htimestampOf] at heip
  have hsome : ∀ {i : ℕ}, (values[i]?.map FlexibleTypeInput.bytes).isSome = true →
      values[i]?.isSome = true := fun h => by rwa [Option.isSome_map] at h
  exact ⟨data, difficulty, ⟨not_lt.1 hlow, not_lt.1 hhigh, hnumberOf, htimestampOf, hcore, heip,
    hvalidated, fun h => hsome (checkProvided_eq_ok.1 h2 h),
    fun h => hsome (checkProvided_eq_ok.1 h1 h), fun h => hsome (checkProvided_eq_ok.1 h3 h),
    fun h => hsome (checkProvided_eq_ok.1 h4 h)⟩, hdifficulty, rfl⟩

namespace Accepted

variable {opts : CreateHeaderOptions} {values : List Bytes} {data : ValidatedHeader}

/-- The fields of EIPs are received as they are written, if those that have a default are there. -/
theorem rawEIPFields_eq_drop (h : Accepted opts values data)
    (hbase : data.isEIPActive opts.hardforkManager 1559 = true → 15 < values.length)
    (hroot : data.isEIPActive opts.hardforkManager 4895 = true → 16 < values.length)
    (hinteger : ∀ i ∈ integers, ∀ v, values[i]? = some v → v.head? ≠ some 0) :
    data.rawEIPFields opts.hardforkManager = values.drop 15 := by
  obtain ⟨h1, h2, h3, h4, h5, h6⟩ := zEIPFieldsSchema_eq_ok.1 h.eipFields
  have hsome : ∀ {i : ℕ}, i < values.length → values[i]?.isSome = true := fun hi => by
    rw [List.getElem?_eq_getElem hi]
    rfl
  simp only [ValidatedHeader.rawEIPFields, ValidatedHeader.isEIPActive]
  rw [pushed_bigEndian h1 (fun hactive => hsome (hbase hactive)) (hinteger 15 (by decide)),
    pushed_bytes h2 (fun hactive => hsome (hroot hactive)),
    pushed_bigEndian h3 h.blobGasUsed (hinteger 17 (by decide)),
    pushed_bigEndian h4 h.excessBlobGas (hinteger 18 (by decide)),
    pushed_bytes h5 h.parentBeaconBlockRoot, pushed_bytes h6 h.requestsHash,
    toList_drop h.low h.high]

theorem toRaw_eq (h : Accepted opts values data)
    (hbase : data.isEIPActive opts.hardforkManager 1559 = true → 15 < values.length)
    (hroot : data.isEIPActive opts.hardforkManager 4895 = true → 16 < values.length)
    (hinteger : ∀ i ∈ integers, ∀ v, values[i]? = some v → v.head? ≠ some 0) :
    data.toRaw opts.hardforkManager = values := by
  rw [ValidatedHeader.toRaw, raw_eq_take h.low h.core hinteger,
    h.rawEIPFields_eq_drop hbase hroot hinteger, List.take_append_drop]

theorem length_pushed {active : Bool} {val : Option Bytes} (h : active = true → val.isSome = true) :
    (pushed active val).length = if active then 1 else 0 := by
  cases active with
  | false => rfl
  | true =>
    obtain ⟨b, rfl⟩ := Option.isSome_iff_exists.1 (h rfl)
    rfl

theorem isSome_of_zActive {α : Type} {active : Bool} {field : String} {eip : ℕ}
    {parse : Option FlexibleTypeInput → Except HeaderError α} {val : Option FlexibleTypeInput}
    {parsed : Option α} (h : zActive active field eip parse val = .ok parsed)
    (hactive : active = true) : parsed.isSome = true := by
  rcases zActive_eq_ok.1 h with ⟨-, a, -, rfl⟩ | ⟨hinactive, -, -⟩
  · rfl
  · rw [hactive] at hinactive
    cases hinactive

theorem length_rawEIPFields (h : Accepted opts values data) :
    (data.rawEIPFields opts.hardforkManager).length =
      eipFieldCount opts.hardforkManager (numberOf values) (timestampOf values) := by
  obtain ⟨h1, h2, h3, h4, h5, h6⟩ := zEIPFieldsSchema_eq_ok.1 h.eipFields
  have hmap : ∀ {α : Type} {active : Bool} {field : String} {eip : ℕ}
      {parse : Option FlexibleTypeInput → Except HeaderError α} {val : Option FlexibleTypeInput}
      {parsed : Option α} {f : α → Bytes}, zActive active field eip parse val = .ok parsed →
      (pushed active (parsed.map f)).length = if active then 1 else 0 :=
    fun h => length_pushed fun hactive => by
      rw [Option.isSome_map]
      exact isSome_of_zActive h hactive
  simp only [ValidatedHeader.rawEIPFields, ValidatedHeader.isEIPActive, List.length_append]
  rw [hmap h1, hmap h2, hmap h3, hmap h4, hmap h5, hmap h6, eipFieldCount, h.number, h.timestamp]
  simp only [List.countP_cons, List.countP_nil]
  omega

theorem length_or_nil (h : Accepted opts values data) :
    ∀ p ∈ fixedLengths, ∀ v, values[p.1]? = some v → v.length = p.2 ∨ v = [] := by
  obtain ⟨h0, h1, h2, h3, h4, h5, h6, h13, h14, -⟩ := zCoreHeaderSchema_eq_ok.1 h.core
  obtain ⟨-, h16, -, -, h19, h20⟩ := zEIPFieldsSchema_eq_ok.1 h.eipFields
  have hbytes : ∀ {field : String} {length : ℕ} {default val : BytesOrEmpty length} {i : ℕ},
      zBytes field length default (values[i]?.map .bytes) = .ok val →
      ∀ v, values[i]? = some v → v.length = length ∨ v = [] := by
    intro field length default val i hval v hv
    rw [hv] at hval
    rw [← show val.1 = v from zBytes_some_eq_ok.1 hval]
    exact val.2
  have hactive : ∀ {active : Bool} {field : String} {eip : ℕ} {default : BytesOrEmpty 32}
      {parsed : Option (BytesOrEmpty 32)} {i : ℕ},
      zActive active field eip (zBytes field 32 default) (values[i]?.map .bytes) = .ok parsed →
      ∀ v, values[i]? = some v → v.length = 32 ∨ v = [] := by
    intro active field eip default parsed i hparsed v hv
    rcases zActive_eq_ok.1 hparsed with ⟨-, val, hval, -⟩ | ⟨-, hnone, -⟩
    · exact hbytes hval v hv
    · rw [hv] at hnone
      cases hnone
  have haddress : ∀ v, values[2]? = some v → v.length = 20 ∨ v = [] := by
    intro v hv
    have h2' : zAddress "coinbase" (repeated 0) (values[2]?.map .bytes) = .ok data.coinbase := h2
    rw [hv] at h2'
    rw [← show data.coinbase.1 = v from zAddress_bytes_eq_ok.1 h2']
    exact .inl data.coinbase.2
  intro p hp
  simp only [fixedLengths, List.mem_cons, List.not_mem_nil, or_false] at hp
  rcases hp with rfl | rfl | rfl | rfl | rfl | rfl | rfl | rfl | rfl | rfl | rfl | rfl
  · exact hbytes h0
  · exact hbytes h1
  · exact haddress
  · exact hbytes h3
  · exact hbytes h4
  · exact hbytes h5
  · exact hbytes h6
  · exact hbytes h13
  · exact hbytes h14
  · exact hactive h16
  · exact hactive h19
  · exact hactive h20

theorem difficulty_eq (h : Accepted opts values data) :
    data.difficulty = ofBigEndian (values.getD 7 []) := by
  obtain ⟨-, -, -, -, -, -, -, -, -, hd, -⟩ := zCoreHeaderSchema_eq_ok.1 h.core
  rw [← hd]
  obtain ⟨v0, v1, v2, v3, v4, v5, v6, v7, v8, v9, v10, v11, v12, v13, v14, rest, rfl⟩ :=
    exists_values h.low
  rfl

end Accepted

/-! ## The hash -/

variable {opts : CreateHeaderOptions} {values : List Bytes} {keccak256 : Bytes → Bytes32}

theorem HashBinds.of_unchanged (h : Unchanged opts values) : HashBinds keccak256 opts values := by
  intro header hheader
  obtain ⟨data, difficulty, haccepted, hdifficulty, rfl⟩ := accepted_of_ok hheader
  obtain rfl : difficulty = data.difficulty :=
    Except.ok.inj (hdifficulty.symm.trans (h.difficulty data haccepted.validated))
  have hbase := h.baseFeePerGas
  have hroot := h.withdrawalsRoot
  rw [haccepted.number, haccepted.timestamp] at hbase hroot
  have hraw : data.toRaw opts.hardforkManager = values :=
    haccepted.toRaw_eq hbase hroot h.integer
  refine ⟨hraw, ?_, ?_, fun p hp v hv => ?_, h.integer⟩
  · rw [ValidatedHeader.computeHash, ValidatedHeader.serialize, hraw]
  · rw [← haccepted.length_rawEIPFields, haccepted.rawEIPFields_eq_drop hbase hroot h.integer,
      List.length_drop]
    have := haccepted.low
    omega
  · refine (haccepted.length_or_nil p hp v hv).resolve_right ?_
    rintro rfl
    exact h.nonempty p hp hv

theorem one_le_eipFieldCount {number timestamp eip : ℕ}
    (heip : eip ∈ [1559, 4895, 4844, 4844, 4788, 7685])
    (h : m.isEIPActiveAtBlock eip number (some timestamp) = true) :
    1 ≤ eipFieldCount m number timestamp :=
  List.countP_pos_iff.2 ⟨eip, heip, h⟩

theorem two_le_eipFieldCount {number timestamp : ℕ}
    (h : m.isEIPActiveAtBlock 1559 number (some timestamp) = true)
    (h' : m.isEIPActiveAtBlock 4895 number (some timestamp) = true) :
    2 ≤ eipFieldCount m number timestamp := by
  simp only [eipFieldCount, List.countP_cons, h, h', if_true]
  omega

theorem pos_of_fixedLength : ∀ p ∈ fixedLengths, 0 < p.2 := by decide

theorem HashBinds.unchanged (h : HashBinds keccak256 opts values) {header : ValidatedHeader}
    (hheader : fromBytesArray values opts = .ok header) : Unchanged opts values := by
  obtain ⟨hraw, -, hstrict⟩ := h header hheader
  obtain ⟨data, difficulty, haccepted, hdifficulty, rfl⟩ := accepted_of_ok hheader
  have hbase : opts.hardforkManager.isEIPActiveAtBlock 1559 (numberOf values)
      (some (timestampOf values)) = true → 15 < values.length := by
    intro hactive
    have := one_le_eipFieldCount (show 1559 ∈ _ by decide) hactive
    have := hstrict.length
    omega
  refine ⟨hbase, fun hactive => ?_, fun p hp hv => ?_, hstrict.integer, fun data' hdata' => ?_⟩
  · have hcount := one_le_eipFieldCount (show 4895 ∈ _ by decide) hactive
    have hlength := hstrict.length
    -- a value that is there is the base fee, so EIP-1559 is active too
    have hbaseFee : opts.hardforkManager.isEIPActiveAtBlock 1559 (numberOf values)
        (some (timestampOf values)) = true := by
      by_contra hinactive
      rw [Bool.not_eq_true, haccepted.number, haccepted.timestamp] at hinactive
      have h15 := (zEIPFieldsSchema_eq_ok.1 haccepted.eipFields).1
      rcases zActive_eq_ok.1 h15 with ⟨hactive', -⟩ | ⟨-, hnone, -⟩
      · rw [hinactive] at hactive'
        cases hactive'
      · have : values.length ≤ 15 :=
          List.getElem?_eq_none_iff.1 (Option.map_eq_none_iff.1 hnone)
        omega
    have := two_le_eipFieldCount hbaseFee hactive
    omega
  · have hzero : 0 = p.2 := hstrict.fixedLength p hp [] hv
    exact absurd hzero.symm (pos_of_fixedLength p hp).ne'
  · obtain rfl : data = data' := Except.ok.inj (haccepted.validated.symm.trans hdata')
    rw [hdifficulty, haccepted.difficulty_eq, ← hraw]
    exact congrArg Except.ok (ofBigEndian_bigEndian difficulty).symm

/-- **The hash binds what is received** exactly when what is accepted is not normalised. -/
theorem hashBinds_iff (keccak256 : Bytes → Bytes32) (opts : CreateHeaderOptions)
    (values : List Bytes) :
    HashBinds keccak256 opts values ↔
      ((fromBytesArray values opts).isOk = true → Unchanged opts values) := by
  constructor
  · intro h hok
    obtain ⟨header, hheader⟩ := exists_ok_of_isOk hok
    exact h.unchanged hheader
  · intro h header hheader
    exact HashBinds.of_unchanged (h (by rw [hheader]; rfl)) header hheader

/-- The values of a header of block 11, after London, without a base fee. -/
def sampleValues : List Bytes :=
  [(zeros 32).1, KECCAK256_RLP_ARRAY.1, (repeated 0).1, (zeros 32).1, emptyTrieRoot.1, emptyTrieRoot.1,
    (zeros 256).1, [], [11], [0x0f, 0x42, 0x40], [], [50], [], (zeros 32).1, (zeros 8).1]

/-- Options that calculate nothing. -/
def sampleOptions : CreateHeaderOptions := ⟨sampleManager, none, false⟩

/-- **A header without a base fee**: it is accepted after London, with a base fee of 7. -/
theorem not_hashBinds_sampleValues :
    ¬ HashBinds (fun _ => KECCAK256_NULL) sampleOptions sampleValues := by
  intro h
  have hok : (fromBytesArray sampleValues sampleOptions).isOk = true := by decide +kernel
  obtain ⟨header, hheader⟩ := exists_ok_of_isOk hok
  obtain ⟨-, -, hstrict⟩ := h header hheader
  exact absurd hstrict.length (by decide)

end Block

end TsEthereum
