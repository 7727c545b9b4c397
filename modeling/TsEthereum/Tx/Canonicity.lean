import TsEthereum.Rlp.Canonicity
import TsEthereum.Tx.RoundTrip

/-!
# Which bytes a transaction is read from

Bytes the factory accepts are a type byte and the encoding of a list
(`exists_values_of_accepted`), so a transaction is written as it was read when
`raw` is that list again. The creators see to it for the numbers, whose leading
zeros they refuse; the number of items, the recipient's length and what is missing
of a signature they do not look at.
-/

namespace TsEthereum

namespace Tx

/-! ## Lists as `raw` writes them -/

/-- How many items `raw` has. -/
def TransactionType.arity : TransactionType → ℕ
  | .legacy => 9
  | .accessListEIP2930 => 11
  | .feeMarketEIP1559 => 12
  | .blobEIP4844 => 14
  | .eoaCodeEIP7702 => 13

/-- Where `raw` has the recipient. -/
def TransactionType.toIndex : TransactionType → ℕ
  | .legacy => 3
  | .accessListEIP2930 => 4
  | _ => 5

/-- Where `raw` has the numbers, but for the signature's. -/
def TransactionType.scalars : TransactionType → List ℕ
  | .legacy => [0, 1, 2, 4]
  | .accessListEIP2930 => [0, 1, 2, 3, 5]
  | .blobEIP4844 => [0, 1, 2, 3, 4, 6, 9]
  | _ => [0, 1, 2, 3, 4, 6]

/-- An item is a byte string. -/
def IsBytes (item : Option NestedUint8Array) : Prop := ∃ b, item = some (.bytes b)

/-- A recipient of 0 or 20 bytes. -/
def RegularTo (item : Option NestedUint8Array) : Prop :=
  ∃ b, item = some (.bytes b) ∧ (b.length = 0 ∨ b.length = 20)

/-- **A signature is there or not**, and not a part of it. A parity of 0 is written as
nothing. -/
def WholeItems (type : TransactionType) (v r s : Option NestedUint8Array) : Prop :=
  IsBytes v ∧ IsBytes r ∧ IsBytes s ∧
    ((present r = true ∧ present s = true ∧ (type = .legacy → present v = true)) ∨
      present v = false ∧ present r = false ∧ present s = false)

/-- The signature's items, from the end. -/
def WholeSignatureItems (type : TransactionType) (values : List NestedUint8Array) : Prop :=
  WholeItems type values[type.arity - 3]? values[type.arity - 2]? values[type.arity - 1]?

/-- **A list as `raw` writes one.** -/
structure Conforms (type : TransactionType) (values : List NestedUint8Array) : Prop where
  length_eq : values.length = type.arity
  regularTo : RegularTo values[type.toIndex]?
  whole : WholeSignatureItems type values

/-! ## Items -/

theorem toBytes_eq {item : NestedUint8Array} {to_ : Option Bytes20} (h : RegularTo (some item))
    (hread : optionalTo (some item) = .ok to_) : toBytes to_ = item := by
  obtain ⟨b, hitem, hlen⟩ := h
  cases hitem
  rcases hlen with hlen | hlen
  · obtain rfl := List.length_eq_zero_iff.1 hlen
    cases hread
    rfl
  · have hread' := optionalTo_toBytes (some ⟨b, hlen⟩)
    rw [toBytes] at hread'
    rw [hread'] at hread
    cases hread
    rfl

theorem bytes_eq {item : NestedUint8Array} {to_ : Bytes20} (h : RegularTo (some item))
    (hpresent : present (some item) = true) (hread : bytesToAddress item = .ok to_) :
    .bytes to_.1 = item := by
  obtain ⟨b, hitem, hlen⟩ := h
  cases hitem
  have hlen : b.length = 20 := by
    rcases hlen with hlen | hlen
    · simp [present, itemLength, hlen] at hpresent
    · exact hlen
  have hread' := bytesToAddress_bytes ⟨b, hlen⟩
  rw [hread'] at hread
  cases hread
  rfl

theorem toValue_eq {item : NestedUint8Array} {hashes : BlobVersionedHashes}
    (hread : toBlobVersionedHashes (some item) = .ok hashes) : hashes.toValue = item := by
  cases item with
  | bytes b =>
    rw [toBlobVersionedHashes] at hread
    split at hread
    · rename_i hnil
      cases hread
      rw [hnil]
      rfl
    · cases hread
  | list items =>
    rw [toBlobVersionedHashes] at hread
    cases hmap : items.mapM itemBytes with
    | error e =>
      rw [hmap] at hread
      cases hread
    | ok hashes =>
      rw [hmap] at hread
      cases hread
      have hall : hashes.map NestedUint8Array.bytes = items := by
        induction items generalizing hashes with
        | nil =>
          cases hmap
          rfl
        | cons item items ih =>
          rw [List.mapM_cons] at hmap
          obtain ⟨hash, hhash, hmap⟩ := bind_eq_ok.1 hmap
          obtain ⟨rest, hrest, hmap⟩ := bind_eq_ok.1 hmap
          cases hmap
          rw [List.map_cons, ih rest hrest]
          cases item with
          | bytes b =>
            cases hhash
            rfl
          | list xs => cases hhash
      rw [BlobVersionedHashes.toValue, hall]

theorem signatureBytes_eq_of_optionalBigInt {item : NestedUint8Array} {n : Option ℕ}
    (h : IsBytes (some item)) (hzero : hasLeadingZero (some item) = false)
    (hread : optionalBigInt (some item) = .ok n) : signatureBytes n = item := by
  obtain ⟨b, hitem⟩ := h
  cases hitem
  rw [optionalBigInt] at hread
  split at hread
  · cases hread
    exact (encodes_iff.1 ⟨hzero, rfl⟩).symm
  · rename_i hlen
    cases hread
    obtain rfl : b = [] := by
      rw [itemLength] at hlen
      exact List.length_eq_zero_iff.1 (by omega)
    rfl

theorem signatureBytes_eq_of_signatureBigInt {item : NestedUint8Array} {n : Option ℕ}
    (hzero : hasLeadingZero (some item) = false)
    (hread : signatureBigInt true (some item) = .ok n) : signatureBytes n = item := by
  rw [signatureBigInt, if_pos rfl] at hread
  cases hn : toBigInt (some item) with
  | error e =>
    rw [hn] at hread
    cases hread
  | ok n =>
    rw [hn] at hread
    cases hread
    exact (encodes_iff.1 ⟨hzero, hn⟩).symm

theorem eq_nil_of_not_present {item : NestedUint8Array} (h : IsBytes (some item))
    (habsent : present (some item) = false) : item = .bytes [] := by
  obtain ⟨b, hitem⟩ := h
  cases hitem
  simpa [present, itemLength] using habsent

theorem ReadsEach.signatureBytes_eq {v r s : NestedUint8Array} {signature : Option ℕ × Option ℕ × Option ℕ}
    (h : ReadsEach (some v) (some r) (some s) signature)
    (hwhole : WholeItems .legacy (some v) (some r) (some s)) :
    signatureBytes signature.1 = v ∧ signatureBytes signature.2.1 = r ∧
      signatureBytes signature.2.2 = s :=
  ⟨signatureBytes_eq_of_optionalBigInt hwhole.1 h.noLeadingZeroes.1 h.v_eq,
    signatureBytes_eq_of_optionalBigInt hwhole.2.1 h.noLeadingZeroes.2.1 h.r_eq,
    signatureBytes_eq_of_optionalBigInt hwhole.2.2.1 h.noLeadingZeroes.2.2 h.s_eq⟩

theorem ReadsSignature.signatureBytes_eq {type : TransactionType} {v r s : NestedUint8Array}
    {signature : Option ℕ × Option ℕ × Option ℕ}
    (h : ReadsSignature (some v) (some r) (some s) signature)
    (hwhole : WholeItems type (some v) (some r) (some s)) :
    signatureBytes signature.1 = v ∧ signatureBytes signature.2.1 = r ∧
      signatureBytes signature.2.2 = s := by
  obtain ⟨hv, hr, hs, ⟨hr', hs', -⟩ | ⟨hv', hr', hs'⟩⟩ := hwhole
  · have hsig : hasSig (some r) (some s) = true := by
      rw [hasSig, hr', hs']
      rfl
    obtain ⟨hzero, hv, hr, hs⟩ := h
    rw [hsig] at hv hr hs
    exact ⟨signatureBytes_eq_of_signatureBigInt hzero.1 hv,
      signatureBytes_eq_of_signatureBigInt hzero.2.1 hr,
      signatureBytes_eq_of_signatureBigInt hzero.2.2 hs⟩
  · have hsig : hasSig (some r) (some s) = false := by
      rw [hasSig, hr']
      rfl
    obtain rfl := eq_nil_of_not_present hv hv'
    obtain rfl := eq_nil_of_not_present hr hr'
    obtain rfl := eq_nil_of_not_present hs hs'
    obtain ⟨-, hv, hr, hs⟩ := h
    rw [hsig] at hv hr hs
    obtain ⟨v, r, s⟩ := signature
    cases hv
    cases hr
    cases hs
    exact ⟨rfl, rfl, rfl⟩

/-! ## Lists -/

theorem Encodes.eq {item : NestedUint8Array} {n : ℕ} (h : Encodes (some item) n) :
    bigIntToUnpaddedBytes n = item := h.symm

theorem raw_of_conforms_legacy {values : List NestedUint8Array} {tx : LegacyTxData}
    (h : createLegacyTxManagerFromBytesArray values = .ok (.legacy tx))
    (hconforms : Conforms .legacy values) : tx.raw = values := by
  obtain ⟨hlen, hto, hwhole⟩ := hconforms
  obtain ⟨-, inner, heq, h0, h1, h2, h3, h4, h5, hsig⟩ :=
    createLegacyTxManagerFromBytesArray_eq_ok.1 h
  cases heq
  match values, hlen with
  | [x0, x1, x2, x3, x4, x5, v, r, s], _ =>
    obtain ⟨hv, hr, hs⟩ := hsig.signatureBytes_eq hwhole
    have h5 : tx.data = x5 := h5.symm
    simp only [LegacyTxData.raw, LegacyTxData.fields, List.cons_append, List.nil_append, h0.eq, h1.eq,
      h2.eq, toBytes_eq hto h3, h4.eq, h5, hv, hr, hs]

theorem raw_of_conforms_accessList {values : List NestedUint8Array} {tx : AccessListTxData}
    (h : accessListFromValues values = .ok (.accessList tx))
    (hconforms : Conforms .accessListEIP2930 values) : tx.raw = values := by
  obtain ⟨hlen, hto, hwhole⟩ := hconforms
  obtain ⟨inner, heq, h0, h1, h2, h3, h4, h5, h6, h7, hsig⟩ := accessListFromValues_eq_ok.1 h
  cases heq
  match values, hlen with
  | [x0, x1, x2, x3, x4, x5, x6, x7, v, r, s], _ =>
    obtain ⟨hv, hr, hs⟩ := hsig.signatureBytes_eq hwhole
    have h6 : tx.data = x6 := h6.symm
    have h7 : tx.accessList = x7 := h7.symm
    simp only [AccessListTxData.raw, AccessListTxData.getMessageToSign, List.cons_append,
      List.nil_append, h0.eq, h1.eq, h2.eq, h3.eq, toBytes_eq hto h4, h5.eq, h6, h7, hv, hr, hs]

theorem raw_of_conforms_dynamicFee {values : List NestedUint8Array} {tx : DynamicFeeTxData}
    (h : dynamicFeeFromValues values = .ok (.dynamicFee tx))
    (hconforms : Conforms .feeMarketEIP1559 values) : tx.raw = values := by
  obtain ⟨hlen, hto, hwhole⟩ := hconforms
  obtain ⟨inner, heq, h0, h1, h2, h3, h4, h5, h6, h7, h8, hsig⟩ := dynamicFeeFromValues_eq_ok.1 h
  cases heq
  match values, hlen with
  | [x0, x1, x2, x3, x4, x5, x6, x7, x8, v, r, s], _ =>
    obtain ⟨hv, hr, hs⟩ := hsig.signatureBytes_eq hwhole
    have h7 : tx.data = x7 := h7.symm
    have h8 : tx.accessList = x8 := h8.symm
    simp only [DynamicFeeTxData.raw, DynamicFeeTxData.getMessageToSign, List.cons_append,
      List.nil_append, h0.eq, h1.eq, h2.eq, h3.eq, h4.eq, toBytes_eq hto h5, h6.eq, h7, h8, hv, hr,
      hs]

theorem raw_of_conforms_blob {values : List NestedUint8Array} {tx : BlobTxData}
    (h : blobFromValues values = .ok (.blob tx))
    (hconforms : Conforms .blobEIP4844 values) : tx.raw = values := by
  obtain ⟨hlen, hto, hwhole⟩ := hconforms
  obtain ⟨hpresent, inner, heq, h0, h1, h2, h3, h4, h5, h6, h7, h8, h9, h10, hsig⟩ :=
    blobFromValues_eq_ok.1 h
  cases heq
  match values, hlen with
  | [x0, x1, x2, x3, x4, x5, x6, x7, x8, x9, x10, v, r, s], _ =>
    obtain ⟨hv, hr, hs⟩ := hsig.signatureBytes_eq hwhole
    have h7 : tx.data = x7 := h7.symm
    have h8 : tx.accessList = x8 := h8.symm
    simp only [BlobTxData.raw, BlobTxData.getMessageToSign, List.cons_append, List.nil_append, h0.eq,
      h1.eq, h2.eq, h3.eq, h4.eq, bytes_eq hto hpresent h5, h6.eq, h7, h8, h9.eq, toValue_eq h10, hv,
      hr, hs]

theorem raw_of_conforms_setCode {values : List NestedUint8Array} {tx : SetCodeTxData}
    (h : setCodeFromValues values = .ok (.setCode tx))
    (hconforms : Conforms .eoaCodeEIP7702 values) : tx.raw = .ok values := by
  obtain ⟨hlen, hto, hwhole⟩ := hconforms
  obtain ⟨hpresent, inner, heq, h0, h1, h2, h3, h4, h5, h6, h7, h8, h9, hsig⟩ :=
    setCodeFromValues_eq_ok.1 h
  cases heq
  match values, hlen with
  | [x0, x1, x2, x3, x4, x5, x6, x7, x8, x9, v, r, s], _ =>
    obtain ⟨hv, hr, hs⟩ := hsig.signatureBytes_eq hwhole
    have h7 : tx.data = x7 := h7.symm
    have h8 : tx.accessList = x8 := h8.symm
    have h9 : tx.authorizationList = .bytes x9 := h9.symm
    simp only [SetCodeTxData.raw, SetCodeTxData.getMessageToSign, AuthorizationList.toValue, h9,
      ok_bind, List.cons_append, List.nil_append, h0.eq, h1.eq, h2.eq, h3.eq, h4.eq,
      bytes_eq hto hpresent h5, h6.eq, h7, h8, hv, hr, hs]

theorem type_of_fromValues {type : TransactionType} {values : List NestedUint8Array} {tx : TxData}
    (h : fromValues type values = .ok tx) : tx.type = type := by
  cases type with
  | legacy =>
    obtain ⟨-, inner, rfl, -⟩ := createLegacyTxManagerFromBytesArray_eq_ok.1 h
    rfl
  | accessListEIP2930 =>
    obtain ⟨inner, rfl, -⟩ := accessListFromValues_eq_ok.1 h
    rfl
  | feeMarketEIP1559 =>
    obtain ⟨inner, rfl, -⟩ := dynamicFeeFromValues_eq_ok.1 h
    rfl
  | blobEIP4844 =>
    obtain ⟨-, inner, rfl, -⟩ := blobFromValues_eq_ok.1 h
    rfl
  | eoaCodeEIP7702 =>
    obtain ⟨-, inner, rfl, -⟩ := setCodeFromValues_eq_ok.1 h
    rfl

theorem raw_of_conforms {values : List NestedUint8Array} {tx : TxData}
    (h : fromValues tx.type values = .ok tx) (hconforms : Conforms tx.type values) :
    tx.raw = .ok values := by
  cases tx with
  | legacy tx => exact congrArg _ (raw_of_conforms_legacy h hconforms)
  | accessList tx => exact congrArg _ (raw_of_conforms_accessList h hconforms)
  | dynamicFee tx => exact congrArg _ (raw_of_conforms_dynamicFee h hconforms)
  | blob tx => exact congrArg _ (raw_of_conforms_blob h hconforms)
  | setCode tx => exact raw_of_conforms_setCode h hconforms

theorem length_raw {tx : TxData} {values : List NestedUint8Array} (h : tx.raw = .ok values) :
    values.length = tx.type.arity := by
  cases tx with
  | setCode tx =>
    obtain ⟨message, hmessage, heq⟩ := bind_eq_ok.1 h
    obtain ⟨list, -, hlist⟩ := bind_eq_ok.1 hmessage
    cases hlist
    cases heq
    rfl
  | _ tx =>
    cases h
    rfl

theorem hasLeadingZero_of_fromValues {type : TransactionType} {values : List NestedUint8Array}
    {tx : TxData} (h : fromValues type values = .ok tx) :
    (∀ i ∈ type.scalars, hasLeadingZero values[i]? = false) ∧
      ∀ i ∈ [type.arity - 3, type.arity - 2, type.arity - 1], hasLeadingZero values[i]? = false := by
  cases type with
  | legacy =>
    obtain ⟨-, inner, -, h0, h1, h2, -, h4, -, hsig⟩ :=
      createLegacyTxManagerFromBytesArray_eq_ok.1 h
    simpa [TransactionType.scalars, TransactionType.arity] using
      ⟨⟨(encodes_iff.2 h0).1, (encodes_iff.2 h1).1, (encodes_iff.2 h2).1, (encodes_iff.2 h4).1⟩,
        hsig.noLeadingZeroes⟩
  | accessListEIP2930 =>
    obtain ⟨inner, -, h0, h1, h2, h3, -, h5, -, -, hsig⟩ := accessListFromValues_eq_ok.1 h
    simpa [TransactionType.scalars, TransactionType.arity] using
      ⟨⟨(encodes_iff.2 h0).1, (encodes_iff.2 h1).1, (encodes_iff.2 h2).1, (encodes_iff.2 h3).1,
        (encodes_iff.2 h5).1⟩, hsig.noLeadingZeroes⟩
  | feeMarketEIP1559 =>
    obtain ⟨inner, -, h0, h1, h2, h3, h4, -, h6, -, -, hsig⟩ := dynamicFeeFromValues_eq_ok.1 h
    simpa [TransactionType.scalars, TransactionType.arity] using
      ⟨⟨(encodes_iff.2 h0).1, (encodes_iff.2 h1).1, (encodes_iff.2 h2).1, (encodes_iff.2 h3).1,
        (encodes_iff.2 h4).1, (encodes_iff.2 h6).1⟩, hsig.noLeadingZeroes⟩
  | blobEIP4844 =>
    obtain ⟨-, inner, -, h0, h1, h2, h3, h4, -, h6, -, -, h9, -, hsig⟩ := blobFromValues_eq_ok.1 h
    simpa [TransactionType.scalars, TransactionType.arity] using
      ⟨⟨(encodes_iff.2 h0).1, (encodes_iff.2 h1).1, (encodes_iff.2 h2).1, (encodes_iff.2 h3).1,
        (encodes_iff.2 h4).1, (encodes_iff.2 h6).1, (encodes_iff.2 h9).1⟩, hsig.noLeadingZeroes⟩
  | eoaCodeEIP7702 =>
    obtain ⟨-, inner, -, h0, h1, h2, h3, h4, -, h6, -, -, -, hsig⟩ := setCodeFromValues_eq_ok.1 h
    simpa [TransactionType.scalars, TransactionType.arity] using
      ⟨⟨(encodes_iff.2 h0).1, (encodes_iff.2 h1).1, (encodes_iff.2 h2).1, (encodes_iff.2 h3).1,
        (encodes_iff.2 h4).1, (encodes_iff.2 h6).1⟩, hsig.noLeadingZeroes⟩

/-! ## Bytes -/

/-- The list in received bytes, after the type byte where there is one. -/
def receivedValues : Bytes → Except TxError (List NestedUint8Array)
  | [] => decodeValues []
  | type :: encoded =>
    if type ≤ 0x7f then decodeValues encoded else decodeValues (type :: encoded)

theorem encode_of_decodeValues {b : Bytes} {values : List NestedUint8Array}
    (h : decodeValues b = .ok values) : Rlp.encode (.list values) = b := by
  have hne : b ≠ [] := by
    rintro rfl
    cases h
  rw [decodeValues] at h
  split at h
  · cases h
  · rename_i hdecode
    cases h
    obtain ⟨x, hx, hencode⟩ := Rlp.encode_of_decode hne hdecode
    cases hx
    exact hencode
  · cases h

/-- **Accepted bytes** are the type byte and the encoding of a list that the type's creator
accepted. -/
theorem exists_values_of_accepted {b : Bytes} {tx : TxData}
    (h : createTxManagerFromRLP b = .ok tx) :
    ∃ values, receivedValues b = .ok values ∧ tx.envelope values = b ∧
      fromValues tx.type values = .ok tx := by
  cases b with
  | nil => cases h
  | cons first encoded =>
    rw [createTxManagerFromRLP] at h
    by_cases hfirst : first ≤ 0x7f
    · rw [if_pos hfirst] at h
      -- the first byte is the type's
      have htyped : ∀ type : TransactionType, type ≠ .legacy → first = type.byte →
          decodeValues encoded >>= fromValues type = .ok tx →
          ∃ values, receivedValues (first :: encoded) = .ok values ∧
            tx.envelope values = first :: encoded ∧ fromValues tx.type values = .ok tx := by
        intro type hlegacy hbyte h
        obtain ⟨values, hvalues, hread⟩ := bind_eq_ok.1 h
        have htype := type_of_fromValues hread
        refine ⟨values, by rw [receivedValues, if_pos hfirst, hvalues], ?_, htype ▸ hread⟩
        rw [TxData.envelope, htype, hbyte, encode_of_decodeValues hvalues]
        cases type with
        | legacy => exact absurd rfl hlegacy
        | _ => rfl
      split_ifs at h with h1 h2 h3 h4
      · exact htyped .accessListEIP2930 (by decide) h1 h
      · exact htyped .feeMarketEIP1559 (by decide) h2 h
      · exact htyped .blobEIP4844 (by decide) h3 h
      · exact htyped .eoaCodeEIP7702 (by decide) h4 h
    · rw [if_neg hfirst, createLegacyTxManagerFromRLP] at h
      obtain ⟨values, hvalues, hread⟩ := bind_eq_ok.1 h
      have htype : tx.type = .legacy := @type_of_fromValues .legacy _ _ hread
      refine ⟨values, by rw [receivedValues, if_neg hfirst, hvalues], ?_, by rw [htype]; exact hread⟩
      rw [TxData.envelope, htype, encode_of_decodeValues hvalues]

theorem envelope_inj {tx : TxData} {values values' : List NestedUint8Array}
    (hlen : (tx.envelope values).length < arrayBound)
    (h : tx.envelope values = tx.envelope values') : values = values' := by
  have hlist : (Rlp.encode (.list values)).length < arrayBound := by
    refine lt_of_le_of_lt ?_ hlen
    cases tx <;> simp [TxData.envelope, TxData.type]
  have hencode : Rlp.encode (.list values) = Rlp.encode (.list values') := by
    cases tx with
    | legacy tx => exact h
    | _ tx => exact (List.cons.inj h).2
  have := Rlp.encode_inj (hlist.trans (by norm_num)) hencode
  exact NestedUint8Array.list.inj this

/-! ## Canonicity -/

/-- **A transaction read canonically**: written as it was received, with the hash of what was
received, and nothing accepted that no transaction is written with. -/
structure Canonical (keccak256 : Bytes → Bytes32) (b : Bytes) (values : List NestedUint8Array)
    (tx : TxData) : Prop where
  serialize_eq : tx.serialize = .ok b
  hash_eq : tx.isSigned = true → tx.hash keccak256 = .ok (keccak256 b)
  no_extra_items : values.length ≤ tx.type.arity
  regularTo : RegularTo values[tx.type.toIndex]?
  whole : WholeSignatureItems tx.type values

variable {keccak256 : Bytes → Bytes32} {b b' : Bytes} {tx tx' : TxData}
  {values values' : List NestedUint8Array}

theorem canonical_iff_conforms (h : fromValues tx.type values = .ok tx)
    (hb : tx.envelope values = b) (hlen : b.length < arrayBound) :
    Canonical keccak256 b values tx ↔ Conforms tx.type values := by
  constructor
  · rintro ⟨hserialize, -, -, hto, hwhole⟩
    obtain ⟨written, hraw, heq⟩ := bind_eq_ok.1 hserialize
    have hwritten : values = written := by
      refine envelope_inj (hb ▸ hlen : (tx.envelope values).length < arrayBound) ?_
      cases heq
      exact hb
    exact ⟨hwritten ▸ length_raw hraw, hto, hwhole⟩
  · intro hconforms
    have hserialize : tx.serialize = .ok b := by
      rw [TxData.serialize, raw_of_conforms h hconforms, ok_bind, hb]
    refine ⟨hserialize, fun hsigned => ?_, hconforms.length_eq.le, hconforms.regularTo,
      hconforms.whole⟩
    rw [TxData.hash, if_neg (by simp [hsigned]), hserialize, ok_bind]

/-- **The decoding of transactions is canonical** just for the lists that conform: all the
items of the type, a recipient of 0 or 20 bytes, and a whole signature. Leading zeros are
refused in any case, and of the lists that conform no two different ones have one hash,
unless `keccak256` collides on them. -/
theorem tx_canonicity (h : createTxManagerFromRLP b = .ok tx) (hlen : b.length < arrayBound) :
    ∃ values, receivedValues b = .ok values ∧
      (Canonical keccak256 b values tx ↔ Conforms tx.type values) ∧
      (∀ i ∈ tx.type.scalars ++ [tx.type.arity - 3, tx.type.arity - 2, tx.type.arity - 1],
        hasLeadingZero values[i]? = false) ∧
      ∀ b' tx' values' hash, createTxManagerFromRLP b' = .ok tx' → b'.length < arrayBound →
        receivedValues b' = .ok values' → Conforms tx.type values → Conforms tx'.type values' →
        tx.hash keccak256 = .ok hash → tx'.hash keccak256 = .ok hash → keccak256 b = keccak256 b' := by
  obtain ⟨values, hvalues, hb, hread⟩ := exists_values_of_accepted h
  obtain ⟨hscalars, hsignature⟩ := hasLeadingZero_of_fromValues hread
  refine ⟨values, hvalues, canonical_iff_conforms hread hb hlen, ?_, ?_⟩
  · intro i hi
    rcases List.mem_append.1 hi with hi | hi
    · exact hscalars i hi
    · exact hsignature i hi
  · intro b' tx' values' hash h' hlen' hvalues' hconforms hconforms' hhash hhash'
    obtain ⟨values'', hvalues'', hb', hread'⟩ := exists_values_of_accepted h'
    obtain rfl : values'' = values' := Except.ok.inj (hvalues''.symm.trans hvalues')
    have hsigned : ∀ {tx : TxData}, tx.hash keccak256 = .ok hash → tx.isSigned = true := by
      intro tx hhash
      by_contra hnot
      rw [TxData.hash, if_pos (by simpa using hnot)] at hhash
      cases hhash
    have heq : tx.hash keccak256 = .ok (keccak256 b) :=
      ((canonical_iff_conforms hread hb hlen).2 hconforms).hash_eq (hsigned hhash)
    have heq' : tx'.hash keccak256 = .ok (keccak256 b') :=
      ((canonical_iff_conforms hread' hb' hlen').2 hconforms').hash_eq (hsigned hhash')
    exact Except.ok.inj (heq.symm.trans (hhash.trans (hhash'.symm.trans heq')))

/-- An access list transaction of 1 wei, unsigned. -/
def sampleAccessList : TxData :=
  .accessList
    { chainId := 1
      nonce := 0
      gasPrice := 1
      gasLimit := 21000
      to_ := some (repeated 0x35)
      value := 1
      data := .bytes []
      accessList := .list []
      v := none
      r := none
      s := none }

/-- What it is written as. -/
def sampleSerialized : Bytes :=
  [0x01, 0xe1, 0x01, 0x80, 0x01, 0x82, 0x52, 0x08, 0x94, 0x35, 0x35, 0x35, 0x35, 0x35, 0x35,
    0x35, 0x35, 0x35, 0x35, 0x35, 0x35, 0x35, 0x35, 0x35, 0x35, 0x35, 0x35, 0x35, 0x35, 0x01,
    0x80, 0xc0, 0x80, 0x80, 0x80]

/-- What that hashes to. -/
def sampleHash : Bytes32 := ⟨
  [0x3c, 0xac, 0x4d, 0x32, 0x2e, 0xc0, 0x79, 0x9f, 0xa1, 0xb2, 0xa0, 0x85, 0x7a, 0xbb, 0x88,
    0x05, 0xb2, 0xef, 0x4e, 0xf3, 0x44, 0xc9, 0xbf, 0x8d, 0xfe, 0x98, 0xbf, 0xcb, 0x5b, 0x05,
    0x14, 0xca],
  by decide⟩

/-- The same with an item more. -/
def sampleExtended : Bytes :=
  [0x01, 0xe2, 0x01, 0x80, 0x01, 0x82, 0x52, 0x08, 0x94, 0x35, 0x35, 0x35, 0x35, 0x35, 0x35,
    0x35, 0x35, 0x35, 0x35, 0x35, 0x35, 0x35, 0x35, 0x35, 0x35, 0x35, 0x35, 0x35, 0x35, 0x01,
    0x80, 0xc0, 0x80, 0x80, 0x80, 0x07]

/-- What is written is read canonically, with its hash. -/
theorem tx_canonicity_sample :
    ∃ values, receivedValues sampleSerialized = .ok values ∧
      (Canonical (fun _ => sampleHash) sampleSerialized values sampleAccessList ↔
        Conforms sampleAccessList.type values) ∧
      (∀ i ∈ sampleAccessList.type.scalars ++ [sampleAccessList.type.arity - 3,
          sampleAccessList.type.arity - 2, sampleAccessList.type.arity - 1],
        hasLeadingZero values[i]? = false) ∧
      ∀ b' tx' values' hash, createTxManagerFromRLP b' = .ok tx' → b'.length < arrayBound →
        receivedValues b' = .ok values' → Conforms sampleAccessList.type values →
        Conforms tx'.type values' → sampleAccessList.hash (fun _ => sampleHash) = .ok hash →
        tx'.hash (fun _ => sampleHash) = .ok hash → sampleHash = sampleHash :=
  tx_canonicity (by decide +kernel) (by decide)

/-- **An item more is accepted**, and left out of what is written. -/
theorem sampleExtended_accepted :
    createTxManagerFromRLP sampleExtended = .ok sampleAccessList ∧
      sampleAccessList.serialize = .ok sampleSerialized ∧ sampleSerialized ≠ sampleExtended := by
  decide +kernel

end Tx

end TsEthereum
