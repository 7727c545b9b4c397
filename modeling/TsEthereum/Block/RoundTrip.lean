import TsEthereum.Block.Frozen
import TsEthereum.Block.HeaderBinding
import TsEthereum.Tx.RoundTrip

/-!
# The round trip of blocks

What `serialize` writes of a block, `fromRLP` reads. The fields of a header's EIPs are written one
after the other, without those that are not active, and read by their position: they are read back
when the EIPs came in the order of the fields. The withdrawals are let through by the constructor's
validation when they are active at the number alone.
-/

namespace TsEthereum

namespace Block

open TsEthereum.ChainConfig
open TsEthereum.Blockchain (bigIntToBytes ofBigEndian_bigIntToBytes)

variable {keccak256 : Bytes → Bytes32} {m : HardforkManager} {opts : CreateHeaderOptions}

/-! ## Fields by their position -/

/-- **The EIPs came in the order of the fields**: each that is active has the one before it. -/
structure ValidatedHeader.InOrder (m : HardforkManager) (data : ValidatedHeader) : Prop where
  withdrawals : data.isEIPActive m 4895 = true → data.isEIPActive m 1559 = true
  blobGas : data.isEIPActive m 4844 = true → data.isEIPActive m 4895 = true
  beaconRoot : data.isEIPActive m 4788 = true → data.isEIPActive m 4844 = true
  requests : data.isEIPActive m 7685 = true → data.isEIPActive m 4788 = true

/-- The values of fields that are there or not, one after the other. -/
def fieldValues (v15 v16 v17 v18 v19 v20 : Option Bytes) : List Bytes :=
  v15.toList ++ v16.toList ++ (v17.toList ++ v18.toList) ++ v19.toList ++ v20.toList

theorem getElem?_fieldValues {v15 v16 v17 v18 v19 v20 : Option Bytes}
    (hpair : v17.isSome = v18.isSome) (h16 : v16.isSome = true → v15.isSome = true)
    (h17 : v17.isSome = true → v16.isSome = true) (h19 : v19.isSome = true → v17.isSome = true)
    (h20 : v20.isSome = true → v19.isSome = true) :
    (fieldValues v15 v16 v17 v18 v19 v20)[0]? = v15 ∧
      (fieldValues v15 v16 v17 v18 v19 v20)[1]? = v16 ∧
      (fieldValues v15 v16 v17 v18 v19 v20)[2]? = v17 ∧
      (fieldValues v15 v16 v17 v18 v19 v20)[3]? = v18 ∧
      (fieldValues v15 v16 v17 v18 v19 v20)[4]? = v19 ∧
      (fieldValues v15 v16 v17 v18 v19 v20)[5]? = v20 := by
  cases v15 <;> cases v16 <;> cases v17 <;> cases v18 <;> cases v19 <;> cases v20 <;>
    simp_all [fieldValues]

theorem exists_displaced {v15 v16 v17 v18 v19 v20 : Option Bytes}
    (hpair : v17.isSome = v18.isSome)
    (h : ¬ ((v16.isSome = true → v15.isSome = true) ∧ (v17.isSome = true → v16.isSome = true) ∧
      (v19.isSome = true → v17.isSome = true) ∧ (v20.isSome = true → v19.isSome = true))) :
    (v15 = none ∧ (fieldValues v15 v16 v17 v18 v19 v20)[0]? ≠ none) ∨
      (v16 = none ∧ (fieldValues v15 v16 v17 v18 v19 v20)[1]? ≠ none) ∨
      (v17 = none ∧ (fieldValues v15 v16 v17 v18 v19 v20)[2]? ≠ none) ∨
      (v19 = none ∧ (fieldValues v15 v16 v17 v18 v19 v20)[4]? ≠ none) := by
  cases v15 <;> cases v16 <;> cases v17 <;> cases v18 <;> cases v19 <;> cases v20 <;>
    simp_all [fieldValues]

/-! ## Headers -/

theorem zActive_bigEndian {active : Bool} {field : String} {eip d : ℕ} {n parsed : Option ℕ}
    (h : n.isSome = active) :
    zActive active field eip (fun val => .ok (zBigInt d val))
        ((n.map bigEndian).map .bytes) = .ok parsed ↔ parsed = n := by
  rw [zActive_eq_ok]
  subst h
  cases n with
  | none => simp
  | some n =>
    have hn : zBigInt d (some (.bytes (bigEndian n))) = n := ofBigEndian_bigEndian n
    simp [hn]

theorem zActive_val {active : Bool} {field : String} {eip length : ℕ}
    {default : BytesOrEmpty length} {v parsed : Option (BytesOrEmpty length)}
    (h : v.isSome = active) :
    zActive active field eip (zBytes field length default) ((v.map Subtype.val).map .bytes) =
      .ok parsed ↔ parsed = v := by
  rw [zActive_eq_ok]
  subst h
  cases v with
  | none => simp
  | some v =>
    have hv : zBytes field length default (some (.bytes v.1)) = .ok v := zBytes_some_eq_ok.2 rfl
    simp [hv]

theorem eq_none_of_zActive {α β : Type} {field : String} {eip : ℕ}
    {parse : Option FlexibleTypeInput → Except HeaderError α} {val : Option Bytes}
    {parsed : Option α} {active : Bool} {a : Option β} {f : β → Bytes}
    (h : zActive active field eip parse (val.map .bytes) = .ok parsed)
    (hactive : a.isSome = active) (hnone : a.map f = none) : val = none := by
  rcases zActive_eq_ok.1 h with ⟨htrue, -⟩ | ⟨-, hval, -⟩
  · rw [Option.map_eq_none_iff.1 hnone, htrue] at hactive
    cases hactive
  · exact Option.map_eq_none_iff.1 hval

variable {data header : ValidatedHeader} {validateConsensus : Bool}

/-- The values of the EIPs' fields. -/
def ValidatedHeader.eipValues (data : ValidatedHeader) : List Bytes :=
  fieldValues (data.baseFeePerGas.map bigEndian) (data.withdrawalsRoot.map Subtype.val)
    (data.blobGasUsed.map bigEndian) (data.excessBlobGas.map bigEndian)
    (data.parentBeaconBlockRoot.map Subtype.val) (data.requestsHash.map Subtype.val)

theorem pushed_eq_toList {α : Type} {active : Bool} {a : Option α} {f : α → Bytes}
    (h : a.isSome = active) : pushed active (a.map f) = (a.map f).toList := by
  subst h
  cases a <;> rfl

theorem rawEIPFields_eq (h : data.Valid m validateConsensus) :
    data.rawEIPFields m = data.eipValues := by
  rw [ValidatedHeader.rawEIPFields, pushed_eq_toList h.baseFeePerGas,
    pushed_eq_toList h.withdrawalsRoot, pushed_eq_toList h.blobGasUsed,
    pushed_eq_toList h.excessBlobGas, pushed_eq_toList h.parentBeaconBlockRoot,
    pushed_eq_toList h.requestsHash]
  rfl

/-- The six fields beyond the fifteen, of header data. -/
def HeaderData.eipFields (headerData : HeaderData) : List (Option FlexibleTypeInput) :=
  [headerData.baseFeePerGas, headerData.withdrawalsRoot, headerData.blobGasUsed,
    headerData.excessBlobGas, headerData.parentBeaconBlockRoot, headerData.requestsHash]

theorem eipFields_toRaw (h : data.Valid m validateConsensus) :
    (headerDataOf (data.toRaw m)).eipFields =
      [0, 1, 2, 3, 4, 5].map fun i => data.eipValues[i]?.map .bytes := by
  have hraw : data.toRaw m = data.toValidatedCoreHeaderFields.raw ++ data.eipValues := by
    rw [ValidatedHeader.toRaw, rawEIPFields_eq h]
  have hvalue : ∀ i, (data.toValidatedCoreHeaderFields.raw ++ data.eipValues)[15 + i]? =
      data.eipValues[i]? := fun i => by
    rw [List.getElem?_append_right (Nat.le_add_right 15 i)]
    exact congrArg (data.eipValues[·]?) (Nat.add_sub_cancel_left 15 i)
  rw [hraw]
  simp only [HeaderData.eipFields, headerDataOf, hvalue 0, hvalue 1, hvalue 2, hvalue 3, hvalue 4,
    hvalue 5, List.map_cons, List.map_nil]

theorem isSome_blobGas (h : data.Valid m validateConsensus) :
    (data.blobGasUsed.map bigEndian).isSome = (data.excessBlobGas.map bigEndian).isSome := by
  rw [Option.isSome_map, Option.isSome_map, h.blobGasUsed, h.excessBlobGas]

theorem inOrder_iff (h : data.Valid m validateConsensus) : data.InOrder m ↔
    ((data.withdrawalsRoot.map Subtype.val).isSome = true →
      (data.baseFeePerGas.map bigEndian).isSome = true) ∧
    ((data.blobGasUsed.map bigEndian).isSome = true →
      (data.withdrawalsRoot.map Subtype.val).isSome = true) ∧
    ((data.parentBeaconBlockRoot.map Subtype.val).isSome = true →
      (data.blobGasUsed.map bigEndian).isSome = true) ∧
    ((data.requestsHash.map Subtype.val).isSome = true →
      (data.parentBeaconBlockRoot.map Subtype.val).isSome = true) := by
  simp only [Option.isSome_map, h.baseFeePerGas, h.withdrawalsRoot, h.blobGasUsed,
    h.parentBeaconBlockRoot, h.requestsHash]
  exact ⟨fun h => ⟨h.1, h.2, h.3, h.4⟩, fun h => ⟨h.1, h.2.1, h.2.2.1, h.2.2.2⟩⟩

theorem eipFields_of_inOrder (h : data.Valid m validateConsensus) (hin : data.InOrder m) :
    (headerDataOf (data.toRaw m)).eipFields =
      [(data.baseFeePerGas.map bigEndian).map .bytes,
        (data.withdrawalsRoot.map Subtype.val).map .bytes,
        (data.blobGasUsed.map bigEndian).map .bytes, (data.excessBlobGas.map bigEndian).map .bytes,
        (data.parentBeaconBlockRoot.map Subtype.val).map .bytes,
        (data.requestsHash.map Subtype.val).map .bytes] := by
  obtain ⟨ho16, ho17, ho19, ho20⟩ := (inOrder_iff h).1 hin
  obtain ⟨e15, e16, e17, e18, e19, e20⟩ :=
    getElem?_fieldValues (isSome_blobGas h) ho16 ho17 ho19 ho20
  rw [eipFields_toRaw h]
  simp only [List.map_cons, List.map_nil, ValidatedHeader.eipValues, e15, e16, e17, e18, e19, e20]

theorem inOrder_of_zEIPFieldsSchema (h : data.Valid m validateConsensus)
    {fields : ValidatedEIPHeaderFields}
    (hfields : zEIPFieldsSchema m (headerDataOf (data.toRaw m)) data.number (some data.timestamp) =
      .ok fields) : data.InOrder m := by
  obtain ⟨h15, h16, h17, -, h19, -⟩ := zEIPFieldsSchema_eq_ok.1 hfields
  obtain ⟨e15, e16, e17, e18, e19, e20⟩ : _ ∧ _ ∧ _ ∧ _ ∧ _ ∧ _ := by
    simpa only [HeaderData.eipFields, List.map_cons, List.map_nil, List.cons.injEq, and_true] using
      eipFields_toRaw h
  rw [e15] at h15
  rw [e16] at h16
  rw [e17] at h17
  rw [e19] at h19
  by_contra hnot
  rw [inOrder_iff h] at hnot
  rcases exists_displaced (isSome_blobGas h) hnot with
    ⟨hnone, hv⟩ | ⟨hnone, hv⟩ | ⟨hnone, hv⟩ | ⟨hnone, hv⟩
  · exact hv (eq_none_of_zActive h15 h.baseFeePerGas hnone)
  · exact hv (eq_none_of_zActive h16 h.withdrawalsRoot hnone)
  · exact hv (eq_none_of_zActive h17 h.blobGasUsed hnone)
  · exact hv (eq_none_of_zActive h19 h.parentBeaconBlockRoot hnone)

theorem zEIPFieldsSchema_toRaw (h : data.Valid m validateConsensus)
    {fields : ValidatedEIPHeaderFields} :
    zEIPFieldsSchema m (headerDataOf (data.toRaw m)) data.number (some data.timestamp) =
        .ok fields ↔
      data.InOrder m ∧ fields = data.toValidatedEIPHeaderFields := by
  have hread : ∀ hin : data.InOrder m, zEIPFieldsSchema m (headerDataOf (data.toRaw m)) data.number
      (some data.timestamp) = .ok data.toValidatedEIPHeaderFields := by
    intro hin
    obtain ⟨e15, e16, e17, e18, e19, e20⟩ : _ ∧ _ ∧ _ ∧ _ ∧ _ ∧ _ := by
      simpa only [HeaderData.eipFields, List.cons.injEq, and_true] using eipFields_of_inOrder h hin
    rw [zEIPFieldsSchema_eq_ok, e15, e16, e17, e18, e19, e20]
    exact ⟨(zActive_bigEndian h.baseFeePerGas).2 rfl, (zActive_val h.withdrawalsRoot).2 rfl,
      (zActive_bigEndian h.blobGasUsed).2 rfl, (zActive_bigEndian h.excessBlobGas).2 rfl,
      (zActive_val h.parentBeaconBlockRoot).2 rfl, (zActive_val h.requestsHash).2 rfl⟩
  constructor
  · intro hfields
    have hin := inOrder_of_zEIPFieldsSchema h hfields
    exact ⟨hin, Except.ok.inj (hfields.symm.trans (hread hin))⟩
  · rintro ⟨hin, rfl⟩
    exact hread hin

theorem zCoreHeaderSchema_toRaw :
    zCoreHeaderSchema (headerDataOf (data.toRaw m)) = .ok data.toValidatedCoreHeaderFields := by
  have hbytes : ∀ (field : String) {length : ℕ} (default val : BytesOrEmpty length),
      zBytes field length default (some (.bytes val.1)) = .ok val := fun field length default val =>
    zBytes_some_eq_ok.2 rfl
  exact zCoreHeaderSchema_eq_ok.2 ⟨hbytes _ _ _, hbytes _ _ _, zAddress_bytes_eq_ok.2 rfl,
    hbytes _ _ _, hbytes _ _ _, hbytes _ _ _, hbytes _ _ _, hbytes _ _ _, hbytes _ _ _,
    ofBigEndian_bigEndian _, ofBigEndian_bigEndian _, ofBigEndian_bigEndian _,
    ofBigEndian_bigEndian _, ofBigEndian_bigEndian _, rfl⟩

theorem validateBlockHeader_toRaw (h : data.Valid m validateConsensus) :
    validateBlockHeader m (headerDataOf (data.toRaw m)) validateConsensus = .ok header ↔
      data.InOrder m ∧ header = data := by
  have hnumber : zBigInt 0 (headerDataOf (data.toRaw m)).number = data.number :=
    ofBigEndian_bigEndian _
  have htimestamp : (headerDataOf (data.toRaw m)).timestamp.map
      (fun timestamp => zBigInt 0 (some timestamp)) = some data.timestamp :=
    congrArg some (ofBigEndian_bigEndian _)
  rw [validateBlockHeader_eq_ok, hnumber, htimestamp]
  simp only [zCoreHeaderSchema_toRaw, zEIPFieldsSchema_toRaw h]
  constructor
  · rintro ⟨hcore, ⟨hin, hfields⟩, -⟩
    refine ⟨hin, ?_⟩
    obtain ⟨core, fields⟩ := header
    obtain rfl : fields = _ := hfields
    exact congrArg (ValidatedHeader.mk · _) (Except.ok.inj hcore).symm
  · rintro ⟨hin, rfl⟩
    exact ⟨rfl, ⟨hin, rfl⟩, h.gasUsed, h.initialBaseFee, h.extraData⟩

theorem valuesArrayToHeaderData_toRaw (h : data.Valid m validateConsensus) :
    valuesArrayToHeaderData (data.toRaw m) = .ok (headerDataOf (data.toRaw m)) := by
  have htoList : ∀ v : Option Bytes, v.toList.length ≤ 1 := fun v => by cases v <;> simp
  have hlength : (data.toRaw m).length = 15 + data.eipValues.length := by
    rw [ValidatedHeader.toRaw, rawEIPFields_eq h, List.length_append]
    rfl
  have hvalues : data.eipValues.length ≤ 6 := by
    have h15 := htoList (data.baseFeePerGas.map bigEndian)
    have h16 := htoList (data.withdrawalsRoot.map Subtype.val)
    have h17 := htoList (data.blobGasUsed.map bigEndian)
    have h18 := htoList (data.excessBlobGas.map bigEndian)
    have h19 := htoList (data.parentBeaconBlockRoot.map Subtype.val)
    have h20 := htoList (data.requestsHash.map Subtype.val)
    simp only [ValidatedHeader.eipValues, fieldValues, List.length_append]
    omega
  rw [valuesArrayToHeaderData, if_neg (by omega), if_neg (by omega)]

/-- **A valid header is read back** when its fields are in order, with its difficulty calculated. -/
theorem fromBytesArray_toRaw
    (h : data.Valid opts.hardforkManager (!opts.skipConsensusFormatValidation)) :
    fromBytesArray (data.toRaw opts.hardforkManager) opts = .ok header ↔
      data.InOrder opts.hardforkManager ∧ ∃ difficulty,
        ethashCanonicalDifficulty opts.hardforkManager data opts.calcDifficultyFromHeader =
          .ok difficulty ∧ header = { data with difficulty } := by
  rw [fromBytesArray, valuesArrayToHeaderData_toRaw h, ok_bind]
  constructor
  · intro hread
    obtain ⟨header', hheader, hrest⟩ := bind_eq_ok.1 hread
    simp only [check_bind_eq_ok] at hrest
    obtain ⟨-, -, -, -, -, hpure⟩ := hrest
    obtain rfl := Except.ok.inj hpure
    obtain ⟨data', difficulty, hvalid, hdifficulty, rfl⟩ := fromHeaderData_eq_ok.1 hheader
    obtain ⟨hin, rfl⟩ := (validateBlockHeader_toRaw h).1 hvalid
    exact ⟨hin, difficulty, hdifficulty, rfl⟩
  · rintro ⟨hin, difficulty, hdifficulty, rfl⟩
    have hheader : fromHeaderData (headerDataOf (data.toRaw opts.hardforkManager)) opts =
        .ok { data with difficulty } :=
      fromHeaderData_eq_ok.2 ⟨data, difficulty, (validateBlockHeader_toRaw h).2 ⟨hin, rfl⟩,
        hdifficulty, rfl⟩
    obtain ⟨e15, -, e17, e18, e19, e20⟩ : _ ∧ _ ∧ _ ∧ _ ∧ _ ∧ _ := by
      simpa only [HeaderData.eipFields, List.cons.injEq, and_true] using eipFields_of_inOrder h hin
    rw [hheader, ok_bind]
    simp only [check_bind_eq_ok, checkProvided_eq_ok, e17, e18, e19, e20, Option.isSome_map]
    refine ⟨?_, fun hactive => h.excessBlobGas.trans hactive,
      fun hactive => h.blobGasUsed.trans hactive,
      fun hactive => h.parentBeaconBlockRoot.trans hactive,
      fun hactive => h.requestsHash.trans hactive, rfl⟩
    rw [checkBaseFeeProvided, if_neg]
    rintro ⟨hactive, hnone⟩
    have hsome := h.baseFeePerGas.trans hactive
    rw [e15, Option.isNone_map, Option.isNone_map] at hnone
    rw [Option.isNone_iff_eq_none.1 hnone] at hsome
    cases hsome

/-! ## Lists -/

theorem mapM_map_eq_some {α β : Type} {f : β → Option α} {g : α → β} (h : ∀ a, f (g a) = some a)
    (l : List α) : (l.map g).mapM f = some l := by
  induction l with
  | nil => rfl
  | cons a l ih => rw [List.map_cons, List.mapM_cons, h, ih]; rfl

theorem mapM_cons_eq_ok {ε α β : Type} {f : α → Except ε β} {a : α} {l : List α} {b : β}
    {l' : List β} : (a :: l).mapM f = .ok (b :: l') ↔ f a = .ok b ∧ l.mapM f = .ok l' := by
  rw [List.mapM_cons]
  cases f a with
  | error e => simp
  | ok b' =>
    cases l.mapM f with
    | error e => simp
    | ok l'' => simp [pure, Except.pure]

theorem mapM_map_eq_ok {ε α β : Type} {f : β → Except ε α} {g : α → β} {l : List α} :
    (l.map g).mapM f = .ok l ↔ ∀ a ∈ l, f (g a) = .ok a := by
  induction l with
  | nil => simp [pure, Except.pure]
  | cons a l ih => rw [List.map_cons, mapM_cons_eq_ok, ih, List.forall_mem_cons]

theorem exists_of_mapM_cons {ε α β : Type} {f : α → Except ε β} {a : α} {l : List α} {bs : List β}
    (h : (a :: l).mapM f = .ok bs) : ∃ b l', bs = b :: l' ∧ f a = .ok b ∧ l.mapM f = .ok l' := by
  rw [List.mapM_cons] at h
  obtain ⟨b, hb, h⟩ := bind_eq_ok.1 h
  obtain ⟨l', hl', h⟩ := bind_eq_ok.1 h
  exact ⟨b, l', (Except.ok.inj h).symm, hb, hl'⟩

theorem mapError_eq_ok {ε ε' α : Type} {f : ε → ε'} {x : Except ε α} {a : α} :
    x.mapError f = .ok a ↔ x = .ok a := by
  cases x <;> simp [Except.mapError]

/-! ## The nested list -/

@[simp] theorem bytesListOf_bytesValue (values : List Bytes) :
    bytesListOf (bytesValue values) = some values :=
  mapM_map_eq_some (f := bytesOf) (g := .bytes) (fun _ => rfl) values

/-- A withdrawal is found in its value, -/
@[simp] theorem withdrawalOf_toValue (data : WithdrawalBytes) :
    withdrawalOf data.toValue = some data := by
  rw [withdrawalOf, WithdrawalBytes.toValue, bytesListOf_bytesValue]

/-- and withdrawals in theirs. -/
@[simp] theorem withdrawalsOf_withdrawalsValue (withdrawals : List WithdrawalBytes) :
    withdrawalsOf (withdrawalsValue withdrawals) = some withdrawals :=
  mapM_map_eq_some withdrawalOf_toValue withdrawals

@[simp] theorem uncleHeadersOf_list (uhsData : List (List Bytes)) :
    uncleHeadersOf (.list (uhsData.map bytesValue)) = some uhsData :=
  mapM_map_eq_some bytesListOf_bytesValue uhsData

theorem ofValues_toValues (values : BlockBytes) :
    BlockBytes.ofValues values.toValues = some values := by
  have htail : (values.valuesTail.map withdrawalsValue).mapM withdrawalsOf =
      some values.valuesTail :=
    mapM_map_eq_some withdrawalsOf_withdrawalsValue values.valuesTail
  simp only [BlockBytes.ofValues, BlockBytes.toValues, List.cons_append, List.nil_append,
    bytesListOf_bytesValue, List.getElem?_cons_zero, List.getElem?_cons_succ, Option.getD_some,
    uncleHeadersOf_list, List.drop_succ_cons, List.drop_zero, htail]
  rfl

theorem length_encode_le_of_mem {x : NestedUint8Array} {xs : List NestedUint8Array} (h : x ∈ xs) :
    (Rlp.encode x).length ≤ (Rlp.encode (.list xs)).length := by
  have hall : (Rlp.encode x).length ≤ (Rlp.encodeAll xs).length := by
    induction xs with
    | nil => cases h
    | cons y ys ih =>
      rw [Rlp.encodeAll, List.length_append]
      rcases List.mem_cons.1 h with rfl | h
      · omega
      · have := ih h
        omega
  rw [Rlp.encode, List.length_append]
  omega

theorem createWithdrawal_raw (withdrawal : Withdrawal) :
    createWithdrawal withdrawal.raw = .ok withdrawal := by
  have hfield : ∀ n, ofBigEndian (withdrawalField n) = n := fun n => by
    rw [withdrawalField]
    split
    · next h => rw [h]; rfl
    · exact ofBigEndian_bigIntToBytes n
  have hlength : withdrawal.raw.address.length = 20 := withdrawal.address.2
  rw [createWithdrawal, dif_pos hlength]
  simp only [Withdrawal.raw, hfield]

theorem createWithdrawals_raw (withdrawals : Option (List Withdrawal)) :
    createWithdrawals (withdrawals.map fun withdrawals => withdrawals.map Withdrawal.raw) =
      .ok withdrawals := by
  cases withdrawals with
  | none => rfl
  | some withdrawals =>
    rw [Option.map_some, createWithdrawals, mapM_map_eq_ok.2 fun a _ => createWithdrawal_raw a]
    rfl

/-! ## Transactions in the body -/

/-- A transaction's values in the body. -/
def bodyValue (tx : Tx.TxData) (values : List NestedUint8Array) : NestedUint8Array :=
  match tx with
  | .legacy _ => .list values
  | tx => .bytes (tx.envelope values)

theorem bodyData_eq (tx : Tx.TxData) : bodyData tx = tx.raw.map (bodyValue tx) := by
  cases tx with
  | legacy tx => rfl
  | accessList tx => rfl
  | dynamicFee tx => rfl
  | blob tx => rfl
  | setCode tx =>
    change (Tx.TxData.setCode tx).serialize.map NestedUint8Array.bytes = _
    rw [Tx.TxData.serialize]
    cases (Tx.TxData.setCode tx).raw <;> rfl

theorem createTxManagerFromBlockBodyData_bodyValue {tx : Tx.TxData}
    {values : List NestedUint8Array}
    (hlen : (Rlp.encode (bodyValue tx values)).length < arrayBound) :
    createTxManagerFromBlockBodyData (bodyValue tx values) = Tx.fromValues tx.type values := by
  have henvelope : ∀ b : Bytes, (Rlp.encode (.bytes b)).length < arrayBound →
      b.length < arrayBound := fun b h => by
      rw [Rlp.encode] at h
      have := Rlp.length_le_length_encodeBytes b
      omega
  cases tx with
  | legacy tx => rfl
  | accessList tx => exact Tx.createTxManagerFromRLP_envelope (henvelope _ hlen)
  | dynamicFee tx => exact Tx.createTxManagerFromRLP_envelope (henvelope _ hlen)
  | blob tx => exact Tx.createTxManagerFromRLP_envelope (henvelope _ hlen)
  | setCode tx => exact Tx.createTxManagerFromRLP_envelope (henvelope _ hlen)

theorem exists_txsData_iff {transactions : List Tx.TxData} :
    (∃ txsData, transactions.mapM bodyData = .ok txsData) ↔
      ∀ tx ∈ transactions, ¬ tx.JsonAuthorizations := by
  induction transactions with
  | nil => exact iff_of_true ⟨[], rfl⟩ (by simp)
  | cons tx transactions ih =>
    rw [List.forall_mem_cons, ← ih, ← Tx.exists_raw_iff]
    constructor
    · rintro ⟨txsData, h⟩
      obtain ⟨value, txsData, rfl, hvalue, hrest⟩ := exists_of_mapM_cons h
      rw [bodyData_eq] at hvalue
      obtain ⟨values, hraw, -⟩ := map_eq_ok hvalue
      exact ⟨⟨values, hraw⟩, txsData, hrest⟩
    · rintro ⟨⟨values, hraw⟩, txsData, hrest⟩
      refine ⟨bodyValue tx values :: txsData, mapM_cons_eq_ok.2 ⟨?_, hrest⟩⟩
      rw [bodyData_eq, hraw]
      rfl

theorem readsBody_iff {transactions : List Tx.TxData} {txsData : List NestedUint8Array}
    (hvalid : ∀ tx ∈ transactions, tx.ValidSignature)
    (hlen : ∀ value ∈ txsData, (Rlp.encode value).length < arrayBound)
    (hwritten : transactions.mapM bodyData = .ok txsData) :
    txsData.mapM createTxManagerFromBlockBodyData = .ok transactions ↔
      ∀ tx ∈ transactions, ¬ tx.LegacyZeroV := by
  induction transactions generalizing txsData with
  | nil =>
    obtain rfl : [] = txsData := Except.ok.inj hwritten
    exact iff_of_true rfl (by simp)
  | cons tx transactions ih =>
    obtain ⟨value, txsData, rfl, hvalue, hrest⟩ := exists_of_mapM_cons hwritten
    rw [List.forall_mem_cons] at hvalid hlen ⊢
    rw [bodyData_eq] at hvalue
    obtain ⟨values, hraw, rfl⟩ := map_eq_ok hvalue
    rw [mapM_cons_eq_ok, ih hvalid.2 hlen.2 hrest,
      createTxManagerFromBlockBodyData_bodyValue hlen.1, Tx.fromValues_raw_iff hvalid.1 hraw]

/-! ## The round trip -/

/-- **A header is read back.** -/
def ValidatedHeader.RoundTrips (keccak256 : Bytes → Bytes32) (opts : CreateHeaderOptions)
    (data : ValidatedHeader) : Prop :=
  ∃ header, headerFromRLP (data.serialize opts.hardforkManager) opts = .ok header ∧
    header.computeHash keccak256 opts.hardforkManager =
      data.computeHash keccak256 opts.hardforkManager ∧ header = data

/-- **A block is read back**, with its header, its hash, its transactions, uncles and
withdrawals. -/
def FrozenBlock.RoundTrips (keccak256 : Bytes → Bytes32) (opts : CreateHeaderOptions)
    (block : FrozenBlock) : Prop :=
  ∃ serialized block', block.serialize opts.hardforkManager = .ok serialized ∧
    FrozenBlock.fromRLP keccak256 serialized opts = .ok block' ∧
    block'.getHash keccak256 opts.hardforkManager = block.getHash keccak256 opts.hardforkManager ∧
    block'.header = block.header ∧ block'.transactions = block.transactions ∧
    block'.uncleHeaders = block.uncleHeaders ∧ block'.withdrawals = block.withdrawals

/-- **A header that is read back**: its fields are in order, and its difficulty is the one that is
calculated. -/
structure ValidatedHeader.Readable (opts : CreateHeaderOptions) (data : ValidatedHeader) :
    Prop where
  inOrder : data.InOrder opts.hardforkManager
  difficulty : ethashCanonicalDifficulty opts.hardforkManager data opts.calcDifficultyFromHeader =
    .ok data.difficulty

/-- **A block that is read back.** -/
structure FrozenBlock.Readable (opts : CreateHeaderOptions) (block : FrozenBlock) : Prop where
  header : block.header.Readable opts
  uncleHeaders : ∀ uncle ∈ block.uncleHeaders, uncle.InOrder opts.hardforkManager
  /-- No legacy transaction has a `v` of 0, and no authorizations are objects. -/
  transactions : ∀ tx ∈ block.transactions, ¬ tx.LegacyZeroV ∧ ¬ tx.JsonAuthorizations
  /-- Withdrawals are active at the number alone when they are active. -/
  withdrawals : opts.hardforkManager.isEIPActiveAtBlock 4895 block.header.number none =
    block.header.isEIPActive opts.hardforkManager 4895
  /-- The size is within Osaka's limit, when there is one. -/
  size : ∀ serialized, block.serialize opts.hardforkManager = .ok serialized →
    checkBlockSize opts.hardforkManager serialized = .ok ()

theorem fromBytesArray_toRaw_self (opts : CreateHeaderOptions)
    (h : data.Valid opts.hardforkManager (!opts.skipConsensusFormatValidation)) :
    fromBytesArray (data.toRaw opts.hardforkManager) opts = .ok data ↔ data.Readable opts := by
  rw [fromBytesArray_toRaw h]
  constructor
  · rintro ⟨hin, difficulty, hdifficulty, heq⟩
    have hsame : data.difficulty = difficulty := congrArg (fun header => header.difficulty) heq
    exact ⟨hin, hsame ▸ hdifficulty⟩
  · rintro ⟨hin, hdifficulty⟩
    exact ⟨hin, data.difficulty, hdifficulty, rfl⟩

theorem decodeArray_encode {values : List NestedUint8Array}
    (h : (Rlp.encode (.list values)).length < arrayBound) :
    decodeArray (Rlp.encode (.list values)) = .ok values := by
  rw [decodeArray, Rlp.decode_encode (h.trans (by norm_num))]

theorem headerRoundTrips_iff
    (h : data.Valid opts.hardforkManager (!opts.skipConsensusFormatValidation))
    (hlen : (data.serialize opts.hardforkManager).length < arrayBound) :
    data.RoundTrips keccak256 opts ↔ data.Readable opts := by
  have hread : headerFromRLP (data.serialize opts.hardforkManager) opts =
      (fromBytesArray (data.toRaw opts.hardforkManager) opts).mapError .header := by
    have hvalues : ((data.toRaw opts.hardforkManager).map NestedUint8Array.bytes).mapM bytesOf =
        some (data.toRaw opts.hardforkManager) :=
      mapM_map_eq_some (f := bytesOf) (g := .bytes) (fun _ => rfl) _
    rw [headerFromRLP, ValidatedHeader.serialize, decodeArray_encode hlen, ok_bind, hvalues]
    rfl
  rw [← fromBytesArray_toRaw_self opts h, ValidatedHeader.RoundTrips, hread]
  simp only [mapError_eq_ok]
  constructor
  · rintro ⟨header, hheader, -, rfl⟩
    exact hheader
  · intro hheader
    exact ⟨data, hheader, rfl, rfl⟩

theorem blockFromBytesArray_eq_ok {values : BlockBytes} {block : FrozenBlock} :
    FrozenBlock.fromBytesArray keccak256 values opts = .ok block ↔
      values.valuesTail.length ≤ 2 ∧ fromBytesArray values.headerData opts = .ok block.header ∧
      let m := opts.hardforkManager
      let withdrawalBytes :=
        if block.header.isEIPActive m 4895 then values.valuesTail.head? else none
      checkWithdrawalBytes (block.header.isEIPActive m 4895) withdrawalBytes = .ok () ∧
      values.txsData.mapM createTxManagerFromBlockBodyData = .ok block.transactions ∧
      (values.uhsData.mapM fun uncleHeaderData => (fromBytesArray uncleHeaderData
        { opts with calcDifficultyFromHeader := none }).mapError BlockError.header) =
          .ok block.uncleHeaders ∧
      ∃ withdrawals, createWithdrawals withdrawalBytes = .ok withdrawals ∧
        ∃ validated, validateBlockConstructor keccak256
          ⟨block.uncleHeaders, withdrawals, block.header.number = 0⟩ ⟨m, block.header.number, none⟩
          block.header.number = .ok validated ∧ validated.withdrawals = block.withdrawals := by
  rw [FrozenBlock.fromBytesArray]
  constructor
  · intro h
    obtain ⟨hlength, h⟩ := check_bind_eq_ok.1 h
    obtain ⟨header, hheader, h⟩ := bind_eq_ok.1 h
    obtain ⟨hbytes, h⟩ := check_bind_eq_ok.1 h
    obtain ⟨transactions, htransactions, h⟩ := bind_eq_ok.1 h
    obtain ⟨uncleHeaders, huncles, h⟩ := bind_eq_ok.1 h
    obtain ⟨withdrawals, hwithdrawals, h⟩ := bind_eq_ok.1 h
    obtain ⟨validated, hvalidated, h⟩ := bind_eq_ok.1 h
    obtain rfl := Except.ok.inj h
    have hle : ¬ 5 < 3 + values.valuesTail.length := (ite_error_eq_ok.1 hlength).1
    exact ⟨by omega, mapError_eq_ok.1 hheader, hbytes, mapError_eq_ok.1 htransactions, huncles,
      withdrawals, hwithdrawals, validated, hvalidated, rfl⟩
  · rintro ⟨hlength, hheader, hbytes, htransactions, huncles, withdrawals, hwithdrawals, validated,
      hvalidated, hsame⟩
    refine check_bind_eq_ok.2 ⟨ite_error_eq_ok.2 ⟨by omega, rfl⟩, ?_⟩
    refine bind_eq_ok.2 ⟨_, mapError_eq_ok.2 hheader, check_bind_eq_ok.2 ⟨hbytes, ?_⟩⟩
    refine bind_eq_ok.2 ⟨_, mapError_eq_ok.2 htransactions, bind_eq_ok.2 ⟨_, huncles, ?_⟩⟩
    refine bind_eq_ok.2 ⟨_, hwithdrawals, bind_eq_ok.2 ⟨_, hvalidated, ?_⟩⟩
    rw [hsame]
    rfl

variable {block : FrozenBlock}

/-- What a block's parts are written as. -/
def FrozenBlock.written (m : HardforkManager) (block : FrozenBlock)
    (txsData : List NestedUint8Array) : BlockBytes where
  headerData := block.header.toRaw m
  txsData := txsData
  uhsData := block.uncleHeaders.map (ValidatedHeader.toRaw m)
  valuesTail := block.withdrawals.toList.map fun withdrawals => withdrawals.map Withdrawal.raw

theorem serialize_eq_ok {serialized : Bytes} : block.serialize m = .ok serialized ↔
    ∃ txsData, block.transactions.mapM bodyData = .ok txsData ∧
      Rlp.encode (.list (block.written m txsData).toValues) = serialized := by
  rw [FrozenBlock.serialize, FrozenBlock.toRaw]
  cases block.transactions.mapM bodyData with
  | error e => simp [Except.mapError, Except.map]
  | ok txsData => simp [Except.mapError, Except.map, FrozenBlock.written, pure, Except.pure]

theorem fromRLP_encode {values : BlockBytes} {block' : FrozenBlock}
    (hlen : (Rlp.encode (.list values.toValues)).length < arrayBound) :
    FrozenBlock.fromRLP keccak256 (Rlp.encode (.list values.toValues)) opts = .ok block' ↔
      checkBlockSize opts.hardforkManager (Rlp.encode (.list values.toValues)) = .ok () ∧
        FrozenBlock.fromBytesArray keccak256 values opts = .ok block' := by
  rw [FrozenBlock.fromRLP, check_bind_eq_ok, decodeArray_encode hlen, ok_bind, ofValues_toValues]
  rfl

/-- **The withdrawals pass** when they are active at the number alone as they are with the time. -/
theorem validatesWithdrawals_iff {validateConsensus : Bool}
    (h : block.Valid keccak256 m validateConsensus) :
    (∃ validated, validateBlockConstructor keccak256
        ⟨block.uncleHeaders, block.withdrawals, block.header.number = 0⟩
        ⟨m, block.header.number, none⟩ block.header.number = .ok validated ∧
          validated.withdrawals = block.withdrawals) ↔
      m.isEIPActiveAtBlock 4895 block.header.number none = block.header.isEIPActive m 4895 := by
  rw [validateBlockConstructor, h.uncles, ok_bind, h.network, ok_bind, ← h.withdrawals]
  cases m.isEIPActiveAtBlock 4895 block.header.number none with
  | false =>
    cases block.withdrawals with
    | none => exact iff_of_true ⟨_, rfl, rfl⟩ rfl
    | some withdrawals =>
      refine iff_of_false ?_ (by simp)
      rintro ⟨validated, hvalidated, -⟩
      cases hvalidated
  | true =>
    cases block.withdrawals with
    | none =>
      refine iff_of_false ?_ (by simp)
      rintro ⟨validated, hvalidated, hnone⟩
      obtain rfl := Except.ok.inj hvalidated
      cases hnone
    | some withdrawals => exact iff_of_true ⟨_, rfl, rfl⟩ rfl

theorem readsUncles_iff
    (h : ∀ uncle ∈ block.uncleHeaders,
      uncle.Valid opts.hardforkManager (!opts.skipConsensusFormatValidation)) :
    ((block.uncleHeaders.map (ValidatedHeader.toRaw opts.hardforkManager)).mapM
      fun uncleHeaderData => (fromBytesArray uncleHeaderData { opts with calcDifficultyFromHeader := none }).mapError
          BlockError.header) = .ok block.uncleHeaders ↔
      ∀ uncle ∈ block.uncleHeaders, uncle.InOrder opts.hardforkManager := by
  rw [mapM_map_eq_ok]
  refine forall₂_congr fun uncle huncle => ?_
  have hread : fromBytesArray (uncle.toRaw opts.hardforkManager)
      { opts with calcDifficultyFromHeader := none } = .ok uncle ↔
        uncle.Readable { opts with calcDifficultyFromHeader := none } :=
    fromBytesArray_toRaw_self { opts with calcDifficultyFromHeader := none } (h uncle huncle)
  rw [mapError_eq_ok]
  refine hread.trans ⟨fun hreadable => hreadable.inOrder, fun hin => ⟨hin, rfl⟩⟩

theorem withdrawalBytes_eq {validateConsensus : Bool}
    (h : block.Valid keccak256 m validateConsensus) (txsData : List NestedUint8Array) :
    (if block.header.isEIPActive m 4895 then (block.written m txsData).valuesTail.head? else none) =
      block.withdrawals.map fun withdrawals => withdrawals.map Withdrawal.raw := by
  rw [← h.withdrawals, FrozenBlock.written]
  cases block.withdrawals <;> rfl

theorem fromBytesArray_written_iff {txsData : List NestedUint8Array}
    (h : block.Valid keccak256 opts.hardforkManager (!opts.skipConsensusFormatValidation))
    (htransactions : ∀ tx ∈ block.transactions, tx.ValidSignature)
    (hwritten : block.transactions.mapM bodyData = .ok txsData)
    (hlen : (Rlp.encode (.list (block.written opts.hardforkManager txsData).toValues)).length <
      arrayBound) :
    FrozenBlock.fromBytesArray keccak256 (block.written opts.hardforkManager txsData) opts =
        .ok block ↔
      block.header.Readable opts ∧
        (∀ uncle ∈ block.uncleHeaders, uncle.InOrder opts.hardforkManager) ∧
        (∀ tx ∈ block.transactions, ¬ tx.LegacyZeroV) ∧
        opts.hardforkManager.isEIPActiveAtBlock 4895 block.header.number none =
          block.header.isEIPActive opts.hardforkManager 4895 := by
  have hbody : ∀ value ∈ txsData, (Rlp.encode value).length < arrayBound := fun value hvalue =>
    calc (Rlp.encode value).length ≤ (Rlp.encode (.list txsData)).length :=
          length_encode_le_of_mem hvalue
      _ ≤ (Rlp.encode (.list (block.written opts.hardforkManager txsData).toValues)).length :=
          length_encode_le_of_mem (by simp [BlockBytes.toValues, FrozenBlock.written])
      _ < arrayBound := hlen
  have htail : (block.written opts.hardforkManager txsData).valuesTail.length ≤ 2 := by
    rw [FrozenBlock.written]
    cases block.withdrawals <;> simp
  have hcheck : checkWithdrawalBytes (block.header.isEIPActive opts.hardforkManager 4895)
      (block.withdrawals.map fun withdrawals => withdrawals.map Withdrawal.raw) = .ok () := by
    rw [← h.withdrawals]
    cases block.withdrawals <;> rfl
  rw [blockFromBytesArray_eq_ok]
  simp only [withdrawalBytes_eq h, createWithdrawals_raw]
  rw [← fromBytesArray_toRaw_self opts h.header, ← readsUncles_iff h.uncleHeaders,
    ← readsBody_iff htransactions hbody hwritten, ← validatesWithdrawals_iff h]
  constructor
  · rintro ⟨-, hheader, -, htxs, huncles, withdrawals, hwithdrawals, hvalidated⟩
    obtain rfl := Except.ok.inj hwithdrawals
    exact ⟨hheader, huncles, htxs, hvalidated⟩
  · rintro ⟨hheader, huncles, htxs, hvalidated⟩
    exact ⟨htail, hheader, hcheck, htxs, huncles, _, rfl, hvalidated⟩

theorem blockRoundTrips_iff (opts : CreateHeaderOptions)
    (h : block.Valid keccak256 opts.hardforkManager (!opts.skipConsensusFormatValidation))
    (htransactions : ∀ tx ∈ block.transactions, tx.ValidSignature)
    (hlen : ∀ serialized, block.serialize opts.hardforkManager = .ok serialized →
      serialized.length < arrayBound) :
    block.RoundTrips keccak256 opts ↔ block.Readable opts := by
  constructor
  · rintro ⟨serialized, block', hserialize, hread, -, hheader, htxs, huncles, hwithdrawals⟩
    obtain rfl : block' = block := by
      cases block'
      cases block
      simp only at hheader htxs huncles hwithdrawals
      rw [hheader, htxs, huncles, hwithdrawals]
    have hfits := hlen serialized hserialize
    obtain ⟨txsData, hwritten, rfl⟩ := serialize_eq_ok.1 hserialize
    obtain ⟨hsize, hread⟩ := (fromRLP_encode hfits).1 hread
    obtain ⟨hheader, huncles, htxs, hwithdrawals⟩ :=
      (fromBytesArray_written_iff h htransactions hwritten hfits).1 hread
    have hjson := exists_txsData_iff.1 ⟨txsData, hwritten⟩
    refine ⟨hheader, huncles, fun tx htx => ⟨htxs tx htx, hjson tx htx⟩, hwithdrawals, ?_⟩
    intro serialized hserialized
    obtain rfl := Except.ok.inj (hserialize.symm.trans hserialized)
    exact hsize
  · intro hreadable
    obtain ⟨txsData, hwritten⟩ :=
      exists_txsData_iff.2 fun tx htx => (hreadable.transactions tx htx).2
    have hserialize : block.serialize opts.hardforkManager =
        .ok (Rlp.encode (.list (block.written opts.hardforkManager txsData).toValues)) :=
      serialize_eq_ok.2 ⟨txsData, hwritten, rfl⟩
    have hfits := hlen _ hserialize
    refine ⟨_, block, hserialize, (fromRLP_encode hfits).2 ⟨hreadable.size _ hserialize, ?_⟩, rfl,
      rfl, rfl, rfl, rfl⟩
    exact (fromBytesArray_written_iff h htransactions hwritten hfits).2 ⟨hreadable.header,
      hreadable.uncleHeaders, fun tx htx => (hreadable.transactions tx htx).1,
      hreadable.withdrawals⟩

/-- **Blocks and headers round trip** exactly when they are readable: of every fork, with every type
of transaction. -/
theorem codec_iff (keccak256 : Bytes → Bytes32) (opts : CreateHeaderOptions) :
    (∀ block : FrozenBlock,
      block.Valid keccak256 opts.hardforkManager (!opts.skipConsensusFormatValidation) →
      (∀ tx ∈ block.transactions, tx.ValidSignature) →
      (∀ serialized, block.serialize opts.hardforkManager = .ok serialized →
        serialized.length < arrayBound) →
      (block.RoundTrips keccak256 opts ↔ block.Readable opts)) ∧
    (∀ data : ValidatedHeader,
      data.Valid opts.hardforkManager (!opts.skipConsensusFormatValidation) →
      (data.serialize opts.hardforkManager).length < arrayBound →
      (data.RoundTrips keccak256 opts ↔ data.Readable opts)) :=
  ⟨fun _ h htransactions hlen => blockRoundTrips_iff opts h htransactions hlen,
    fun _ h hlen => headerRoundTrips_iff h hlen⟩

/-- A block of the sample chain's Shanghai, which its time has come for, with a withdrawal. -/
def sampleBlock : FrozenBlock where
  header :=
    { coreDefaults 25 1500 with baseFeePerGas := some 7, withdrawalsRoot := some emptyTrieRoot }
  transactions := []
  uncleHeaders := []
  withdrawals := some [⟨1, 2, repeated 0x35, 3⟩]

theorem valid_sampleBlock : sampleBlock.Valid (fun _ => KECCAK256_NULL) sampleManager true :=
  ⟨⟨by decide +kernel, by decide +kernel, by decide +kernel, by decide +kernel, by decide +kernel,
    by decide +kernel, by decide +kernel, by decide +kernel, by decide +kernel⟩,
    by simp [sampleBlock], rfl, rfl, by decide +kernel⟩

theorem length_sampleBlock (serialized : Bytes)
    (h : sampleBlock.serialize sampleManager = .ok serialized) :
    serialized.length < arrayBound := by
  have hlen : ((sampleBlock.serialize sampleManager).toOption.map List.length).getD 0 <
      arrayBound := by
    decide +kernel
  rwa [h] at hlen

/-- The sample block, and its header. -/
theorem codec_iff_sampleBlock :
    (sampleBlock.RoundTrips (fun _ => KECCAK256_NULL) sampleOptions ↔
      sampleBlock.Readable sampleOptions) ∧
    (sampleBlock.header.RoundTrips (fun _ => KECCAK256_NULL) sampleOptions ↔
      sampleBlock.header.Readable sampleOptions) :=
  ⟨(codec_iff (fun _ => KECCAK256_NULL) sampleOptions).1 sampleBlock valid_sampleBlock
      (by simp [sampleBlock]) length_sampleBlock,
    (codec_iff (fun _ => KECCAK256_NULL) sampleOptions).2 sampleBlock.header
      valid_sampleBlock.header (by decide +kernel)⟩

/-- **A block of Shanghai** does not round trip: its number alone has no withdrawals. -/
theorem not_roundTrips_sampleBlock :
    sampleBlock.Valid (fun _ => KECCAK256_NULL) sampleManager true ∧
      ¬ sampleBlock.RoundTrips (fun _ => KECCAK256_NULL) sampleOptions := by
  refine ⟨valid_sampleBlock, fun h => ?_⟩
  have hreadable : sampleBlock.Readable sampleOptions :=
    (blockRoundTrips_iff sampleOptions valid_sampleBlock (by simp [sampleBlock])
      length_sampleBlock).1 h
  exact absurd hreadable.withdrawals (by decide +kernel)

end Block

end TsEthereum
