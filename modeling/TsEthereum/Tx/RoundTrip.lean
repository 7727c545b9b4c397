import TsEthereum.Rlp.RoundTrip
import TsEthereum.Tx.Accepted
import TsEthereum.Tx.Signers

/-!
# The round trip of transactions

What `serialize` writes, `createTxManagerFromRLP` reads: the type byte leads to the
creator of the type (`createTxManagerFromRLP_envelope`), which gets the list
`raw` wrote and finds in it the fields it was written from.

Two things are lost on the way: a legacy `v` of 0, that is written as nothing, and
authorizations that are objects, that cannot be written.
-/

namespace TsEthereum

namespace Tx

/-! ## Items read back -/

@[simp] theorem bytesToAddress_bytes (address : Bytes20) :
    bytesToAddress (.bytes address.1) = .ok address := by
  have hlen := address.2
  rw [bytesToAddress, dif_pos (by omega)]
  congr 1
  apply Subtype.ext
  simp [setLengthLeft20, hlen]

@[simp] theorem optionalTo_toBytes (to_ : Option Bytes20) :
    optionalTo (some (toBytes to_)) = .ok to_ := by
  cases to_ with
  | none => rfl
  | some address =>
    have hlen : 0 < itemLength (.bytes address.1) := by
      rw [itemLength, address.2]
      omega
    rw [toBytes, optionalTo, if_pos hlen, bytesToAddress_bytes]
    rfl

theorem present_bytes (address : Bytes20) : present (some (.bytes address.1)) = true := by
  simp [present, itemLength, address.2]

@[simp] theorem toBlobVersionedHashes_toValue (hashes : BlobVersionedHashes) :
    toBlobVersionedHashes (some hashes.toValue) = .ok hashes := by
  cases hashes with
  | emptyBytes => rfl
  | list hashes =>
    have hmap : (hashes.map NestedUint8Array.bytes).mapM itemBytes = .ok hashes := by
      induction hashes with
      | nil => rfl
      | cons hash hashes ih => rw [List.map_cons, List.mapM_cons, ih]; rfl
    rw [BlobVersionedHashes.toValue, toBlobVersionedHashes, hmap]
    rfl

theorem present_signatureBytes (n : Option ℕ) :
    present (some (signatureBytes n)) = true ↔ n ≠ none ∧ n ≠ some 0 := by
  cases n with
  | none => simp [present, signatureBytes, itemLength]
  | some n => simp [present, signatureBytes, itemLength_bigIntToUnpaddedBytes]

theorem hasLeadingZero_signatureBytes (n : Option ℕ) :
    hasLeadingZero (some (signatureBytes n)) = false := by
  cases n with
  | none => rfl
  | some n => exact (encodes_iff.2 (encodes_bigIntToUnpaddedBytes.2 rfl)).1

theorem optionalBigInt_signatureBytes (n : Option ℕ) :
    optionalBigInt (some (signatureBytes n)) = .ok n ↔ n ≠ some 0 := by
  cases n with
  | none => simp [optionalBigInt, signatureBytes, itemLength]
  | some n =>
    by_cases h : n = 0
    · subst h
      simp [optionalBigInt, signatureBytes, itemLength_bigIntToUnpaddedBytes]
    · have hlen := itemLength_bigIntToUnpaddedBytes.2 h
      rw [signatureBytes, optionalBigInt, if_pos hlen]
      simp [bytesToBigInt, bigIntToUnpaddedBytes, Except.map, h]

theorem readsEach_signatureBytes {v r s : Option ℕ} :
    ReadsEach (some (signatureBytes v)) (some (signatureBytes r)) (some (signatureBytes s)) (v, r, s) ↔
      v ≠ some 0 ∧ r ≠ some 0 ∧ s ≠ some 0 := by
  constructor
  · rintro ⟨-, hv, hr, hs⟩
    exact ⟨(optionalBigInt_signatureBytes v).1 hv, (optionalBigInt_signatureBytes r).1 hr,
      (optionalBigInt_signatureBytes s).1 hs⟩
  · rintro ⟨hv, hr, hs⟩
    exact ⟨⟨hasLeadingZero_signatureBytes v, hasLeadingZero_signatureBytes r,
      hasLeadingZero_signatureBytes s⟩, (optionalBigInt_signatureBytes v).2 hv,
      (optionalBigInt_signatureBytes r).2 hr, (optionalBigInt_signatureBytes s).2 hs⟩

/-- A signature is whole, or there is none. -/
def WholeSignature (v r s : Option ℕ) : Prop :=
  (v = none ∧ r = none ∧ s = none) ∨ ∃ v' r' s', v = some v' ∧ r = some r' ∧ s = some s' ∧
    0 < r' ∧ 0 < s'

theorem signatureBigInt_signatureBytes (n : ℕ) :
    signatureBigInt true (some (signatureBytes (some n))) = .ok (some n) := by
  simp [signatureBigInt, toBigInt, signatureBytes, bytesToBigInt, bigIntToUnpaddedBytes, Except.map]

theorem readsSignature_signatureBytes {v r s : Option ℕ} (h : WholeSignature v r s) :
    ReadsSignature (some (signatureBytes v)) (some (signatureBytes r)) (some (signatureBytes s))
      (v, r, s) := by
  have hzero : hasLeadingZero (some (signatureBytes v)) = false ∧
      hasLeadingZero (some (signatureBytes r)) = false ∧
      hasLeadingZero (some (signatureBytes s)) = false :=
    ⟨hasLeadingZero_signatureBytes v, hasLeadingZero_signatureBytes r,
      hasLeadingZero_signatureBytes s⟩
  rcases h with ⟨rfl, rfl, rfl⟩ | ⟨v, r, s, rfl, rfl, rfl, hr, hs⟩
  · exact ⟨hzero, rfl, rfl, rfl⟩
  · have hsig : hasSig (some (signatureBytes (some r))) (some (signatureBytes (some s))) = true := by
      rw [hasSig, Bool.and_eq_true, present_signatureBytes, present_signatureBytes]
      simp only [ne_eq, reduceCtorEq, not_false_eq_true, Option.some.injEq, true_and]
      omega
    refine ⟨hzero, ?_, ?_, ?_⟩ <;> rw [hsig]
    · exact signatureBigInt_signatureBytes v
    · exact signatureBigInt_signatureBytes r
    · exact signatureBigInt_signatureBytes s

/-! ## Lists read back -/

theorem createLegacyTxManagerFromBytesArray_raw (tx : LegacyTxData) :
    createLegacyTxManagerFromBytesArray tx.raw = .ok (.legacy tx) ↔
      tx.v ≠ some 0 ∧ tx.r ≠ some 0 ∧ tx.s ≠ some 0 := by
  rw [createLegacyTxManagerFromBytesArray_eq_ok, ← readsEach_signatureBytes]
  constructor
  · rintro ⟨-, inner, heq, -, -, -, -, -, -, hsig⟩
    cases heq
    exact hsig
  · intro hsig
    exact ⟨.inr rfl, tx, rfl, encodes_bigIntToUnpaddedBytes.2 rfl,
      encodes_bigIntToUnpaddedBytes.2 rfl, encodes_bigIntToUnpaddedBytes.2 rfl,
      optionalTo_toBytes tx.to_, encodes_bigIntToUnpaddedBytes.2 rfl, rfl, hsig⟩

theorem accessListFromValues_raw {tx : AccessListTxData} (h : WholeSignature tx.v tx.r tx.s) :
    accessListFromValues tx.raw = .ok (.accessList tx) :=
  accessListFromValues_eq_ok.2 ⟨tx, rfl, encodes_bigIntToUnpaddedBytes.2 rfl,
    encodes_bigIntToUnpaddedBytes.2 rfl, encodes_bigIntToUnpaddedBytes.2 rfl,
    encodes_bigIntToUnpaddedBytes.2 rfl, optionalTo_toBytes tx.to_,
    encodes_bigIntToUnpaddedBytes.2 rfl, rfl, rfl, readsSignature_signatureBytes h⟩

theorem dynamicFeeFromValues_raw {tx : DynamicFeeTxData} (h : WholeSignature tx.v tx.r tx.s) :
    dynamicFeeFromValues tx.raw = .ok (.dynamicFee tx) :=
  dynamicFeeFromValues_eq_ok.2 ⟨tx, rfl, encodes_bigIntToUnpaddedBytes.2 rfl,
    encodes_bigIntToUnpaddedBytes.2 rfl, encodes_bigIntToUnpaddedBytes.2 rfl,
    encodes_bigIntToUnpaddedBytes.2 rfl, encodes_bigIntToUnpaddedBytes.2 rfl,
    optionalTo_toBytes tx.to_, encodes_bigIntToUnpaddedBytes.2 rfl, rfl, rfl,
    readsSignature_signatureBytes h⟩

theorem blobFromValues_raw {tx : BlobTxData} (h : WholeSignature tx.v tx.r tx.s) :
    blobFromValues tx.raw = .ok (.blob tx) :=
  blobFromValues_eq_ok.2 ⟨present_bytes tx.to_, tx, rfl, encodes_bigIntToUnpaddedBytes.2 rfl,
    encodes_bigIntToUnpaddedBytes.2 rfl, encodes_bigIntToUnpaddedBytes.2 rfl,
    encodes_bigIntToUnpaddedBytes.2 rfl, encodes_bigIntToUnpaddedBytes.2 rfl,
    bytesToAddress_bytes tx.to_, encodes_bigIntToUnpaddedBytes.2 rfl, rfl, rfl,
    encodes_bigIntToUnpaddedBytes.2 rfl, toBlobVersionedHashes_toValue tx.blobVersionedHashes,
    readsSignature_signatureBytes h⟩

theorem setCodeFromValues_raw {tx : SetCodeTxData} {list : NestedUint8Array}
    {values : List NestedUint8Array} (hlist : tx.authorizationList = .bytes list)
    (hraw : tx.raw = .ok values) (h : WholeSignature tx.v tx.r tx.s) :
    setCodeFromValues values = .ok (.setCode tx) := by
  rw [SetCodeTxData.raw, SetCodeTxData.getMessageToSign, hlist] at hraw
  cases hraw
  exact setCodeFromValues_eq_ok.2 ⟨present_bytes tx.to_, tx, rfl,
    encodes_bigIntToUnpaddedBytes.2 rfl, encodes_bigIntToUnpaddedBytes.2 rfl,
    encodes_bigIntToUnpaddedBytes.2 rfl, encodes_bigIntToUnpaddedBytes.2 rfl,
    encodes_bigIntToUnpaddedBytes.2 rfl, bytesToAddress_bytes tx.to_,
    encodes_bigIntToUnpaddedBytes.2 rfl, rfl, rfl, hlist.symm, readsSignature_signatureBytes h⟩

/-! ## Bytes read back -/

theorem encode_list_eq_cons {xs : List NestedUint8Array}
    (h : (Rlp.encode (.list xs)).length < arrayBound) :
    ∃ first rest, Rlp.encode (.list xs) = first :: rest ∧ 0xc0 ≤ first.toNat := by
  have hpayload : (Rlp.encodeAll xs).length < arrayBound := by
    rw [Rlp.encode, List.length_append] at h
    omega
  rw [Rlp.encode]
  by_cases hshort : (Rlp.encodeAll xs).length < 56
  · rw [Rlp.encodeLength_short hshort]
    refine ⟨_, _, rfl, ?_⟩
    rw [toNat_ofNat (by omega)]
    omega
  · have hlength : (bigEndian (Rlp.encodeAll xs).length).length ≤ 8 :=
      length_bigEndian_le (hpayload.trans (by norm_num))
    rw [Rlp.encodeLength_long (by omega) (hpayload.trans (by norm_num)) (by norm_num)]
    refine ⟨_, _, rfl, ?_⟩
    rw [toNat_ofNat (by omega)]
    omega

theorem decodeValues_encode {values : List NestedUint8Array}
    (h : (Rlp.encode (.list values)).length < arrayBound) :
    decodeValues (Rlp.encode (.list values)) = .ok values := by
  rw [decodeValues, Rlp.decode_encode (h.trans (by norm_num))]

theorem createTxManagerFromRLP_envelope {tx : TxData} {values : List NestedUint8Array}
    (h : (tx.envelope values).length < arrayBound) :
    createTxManagerFromRLP (tx.envelope values) = fromValues tx.type values := by
  have hlist : (Rlp.encode (.list values)).length < arrayBound := by
    refine lt_of_le_of_lt ?_ h
    cases tx <;> simp [TxData.envelope, TxData.type]
  have hdecode := decodeValues_encode hlist
  cases tx with
  | legacy tx =>
    obtain ⟨first, rest, heq, hfirst⟩ := encode_list_eq_cons hlist
    have htype : ¬ first ≤ 0x7f := by
      rw [UInt8.le_iff_toNat_le]
      have : (0x7f : UInt8).toNat = 127 := rfl
      omega
    have henvelope : (TxData.legacy tx).envelope values = Rlp.encode (.list values) := rfl
    rw [henvelope, heq, createTxManagerFromRLP, if_neg htype, ← heq, createLegacyTxManagerFromRLP, hdecode, ok_bind]
    rfl
  | accessList tx =>
    change decodeValues _ >>= _ = _
    rw [hdecode, ok_bind]
    rfl
  | dynamicFee tx =>
    change decodeValues _ >>= _ = _
    rw [hdecode, ok_bind]
    rfl
  | blob tx =>
    change decodeValues _ >>= _ = _
    rw [hdecode, ok_bind]
    rfl
  | setCode tx =>
    change decodeValues _ >>= _ = _
    rw [hdecode, ok_bind]
    rfl

/-! ## The round trip -/

namespace TxData

/-- **Signed or not**, with `r` and `s` of a signature. -/
def ValidSignature (tx : TxData) : Prop :=
  WholeSignature tx.rawSignatureValues.1 tx.rawSignatureValues.2.1 tx.rawSignatureValues.2.2

/-- A legacy transaction whose `v` is 0. -/
def LegacyZeroV : TxData → Prop
  | .legacy tx => tx.v = some 0
  | _ => False

/-- A transaction whose authorizations are objects. -/
def JsonAuthorizations : TxData → Prop
  | .setCode tx => ∃ more, tx.authorizationList = .json more
  | _ => False

/-- **What is written is read back**: a transaction of the same type, with the same
fields, hash and sender. -/
def RoundTrips (tx : TxData) : Prop :=
  ∃ serialized tx', tx.serialize = .ok serialized ∧ createTxManagerFromRLP serialized = .ok tx' ∧
    tx'.type = tx.type ∧ tx' = tx ∧ (∀ keccak256, tx'.hash keccak256 = tx.hash keccak256) ∧
    ∀ keccak256 recover signer,
      Signer.sender keccak256 recover signer tx' = Signer.sender keccak256 recover signer tx

end TxData

theorem roundTrips_iff_decode {tx : TxData} :
    tx.RoundTrips ↔
      ∃ serialized, tx.serialize = .ok serialized ∧ createTxManagerFromRLP serialized = .ok tx := by
  constructor
  · rintro ⟨serialized, tx', hserialize, hdecode, -, rfl, -⟩
    exact ⟨serialized, hserialize, hdecode⟩
  · rintro ⟨serialized, hserialize, hdecode⟩
    exact ⟨serialized, tx, hserialize, hdecode, rfl, rfl, fun _ => rfl, fun _ _ _ => rfl⟩

theorem roundTrips_iff_fromValues {tx : TxData} {values : List NestedUint8Array}
    (hraw : tx.raw = .ok values) (h : (tx.envelope values).length < arrayBound) :
    tx.RoundTrips ↔ fromValues tx.type values = .ok tx := by
  rw [roundTrips_iff_decode, ← createTxManagerFromRLP_envelope h, TxData.serialize, hraw, ok_bind]
  constructor
  · rintro ⟨serialized, hserialized, hdecode⟩
    cases hserialized
    exact hdecode
  · intro hdecode
    exact ⟨_, rfl, hdecode⟩

theorem exists_raw_iff {tx : TxData} : (∃ values, tx.raw = .ok values) ↔ ¬ tx.JsonAuthorizations := by
  cases tx with
  | legacy tx => exact iff_of_true ⟨_, rfl⟩ id
  | accessList tx => exact iff_of_true ⟨_, rfl⟩ id
  | dynamicFee tx => exact iff_of_true ⟨_, rfl⟩ id
  | blob tx => exact iff_of_true ⟨_, rfl⟩ id
  | setCode tx =>
    cases hlist : tx.authorizationList with
    | bytes list =>
      have hraw : ∃ values, tx.raw = .ok values :=
        ⟨_, by rw [SetCodeTxData.raw, SetCodeTxData.getMessageToSign, hlist]; rfl⟩
      refine iff_of_true hraw ?_
      rintro ⟨more, hjson⟩
      rw [hlist] at hjson
      cases hjson
    | json more =>
      refine iff_of_false ?_ (not_not.2 ⟨more, hlist⟩)
      rintro ⟨values, hraw⟩
      rw [TxData.raw, SetCodeTxData.raw, SetCodeTxData.getMessageToSign, hlist] at hraw
      cases hraw

/-- **The creator of its type reads a transaction back**, unless it is a legacy one whose `v` is
0. -/
theorem fromValues_raw_iff {tx : TxData} {values : List NestedUint8Array}
    (hvalid : tx.ValidSignature) (hraw : tx.raw = .ok values) :
    fromValues tx.type values = .ok tx ↔ ¬ tx.LegacyZeroV := by
  cases tx with
  | legacy tx =>
    obtain rfl := Except.ok.inj hraw
    refine (createLegacyTxManagerFromBytesArray_raw tx).trans ?_
    have hrs : tx.r ≠ some 0 ∧ tx.s ≠ some 0 := by
      rcases hvalid with ⟨-, hr, hs⟩ | ⟨v, r, s, -, hr, hs, hrpos, hspos⟩
      · simp_all [TxData.rawSignatureValues]
      · constructor
        · rintro hzero
          obtain rfl : r = 0 := Option.some.inj (hr.symm.trans hzero)
          omega
        · rintro hzero
          obtain rfl : s = 0 := Option.some.inj (hs.symm.trans hzero)
          omega
    simp [TxData.LegacyZeroV, hrs]
  | accessList tx =>
    obtain rfl := Except.ok.inj hraw
    exact iff_of_true (accessListFromValues_raw hvalid) id
  | dynamicFee tx =>
    obtain rfl := Except.ok.inj hraw
    exact iff_of_true (dynamicFeeFromValues_raw hvalid) id
  | blob tx =>
    obtain rfl := Except.ok.inj hraw
    exact iff_of_true (blobFromValues_raw hvalid) id
  | setCode tx =>
    obtain ⟨list, hlist⟩ : ∃ list, tx.authorizationList = .bytes list := by
      have hwritten : ¬ (TxData.setCode tx).JsonAuthorizations := exists_raw_iff.1 ⟨values, hraw⟩
      cases hlist : tx.authorizationList with
      | bytes list => exact ⟨list, rfl⟩
      | json more => exact absurd ⟨more, hlist⟩ hwritten
    exact iff_of_true (setCodeFromValues_raw hlist hraw hvalid) id

/-- **Transactions round trip**, of every type, but for legacy ones whose `v` is 0 and
set-code ones whose authorizations are objects. -/
theorem roundTrips_iff {tx : TxData} (hvalid : tx.ValidSignature)
    (hlen : ∀ serialized, tx.serialize = .ok serialized → serialized.length < arrayBound) :
    tx.RoundTrips ↔ ¬ tx.LegacyZeroV ∧ ¬ tx.JsonAuthorizations := by
  by_cases hjson : tx.JsonAuthorizations
  · refine iff_of_false ?_ fun h => h.2 hjson
    rintro ⟨serialized, -, hserialize, -⟩
    obtain ⟨values, hraw, -⟩ := bind_eq_ok.1 hserialize
    exact exists_raw_iff.1 ⟨values, hraw⟩ hjson
  · obtain ⟨values, hraw⟩ := exists_raw_iff.2 hjson
    have hfits : (tx.envelope values).length < arrayBound :=
      hlen _ (by rw [TxData.serialize, hraw, ok_bind])
    rw [roundTrips_iff_fromValues hraw hfits, fromValues_raw_iff hvalid hraw]
    exact ⟨fun h => ⟨h, hjson⟩, And.left⟩

/-- A legacy transaction of 1 wei, signed with an even parity, that `v` tells. -/
def sampleLegacy (v : ℕ) : TxData :=
  .legacy
    { nonce := 0
      gasPrice := 1
      gasLimit := 21000
      to_ := some (repeated 0x35)
      value := 1
      data := .bytes []
      v := some v
      r := some 63158095423967604523738704834091191155860412821437429315976868131190990255921
      s := some 12806991547395486516946268522720830142734899500017665969412815397047088218213 }

theorem validSignature_sampleLegacy (v : ℕ) : (sampleLegacy v).ValidSignature :=
  .inr ⟨v, _, _, rfl, rfl, rfl, by decide, by decide⟩

theorem length_sampleLegacy {v : ℕ} (h : v = 0 ∨ v = 27) (serialized : Bytes)
    (hserialized : (sampleLegacy v).serialize = .ok serialized) : serialized.length < arrayBound := by
  have hlen : ((sampleLegacy v).serialize.toOption.map List.length).getD 0 < arrayBound := by
    rcases h with rfl | rfl <;> decide +kernel
  rwa [hserialized] at hlen

/-- With a `v` of 27 it round trips. -/
theorem roundTrips_sampleLegacy :
    (sampleLegacy 27).RoundTrips ↔
      ¬ (sampleLegacy 27).LegacyZeroV ∧ ¬ (sampleLegacy 27).JsonAuthorizations :=
  roundTrips_iff (validSignature_sampleLegacy 27) (length_sampleLegacy (.inr rfl))

/-- With a `v` of 0, which the signers take for 27, it does not. -/
theorem not_roundTrips_sampleLegacy :
    (sampleLegacy 0).ValidSignature ∧ ¬ (sampleLegacy 0).RoundTrips := by
  refine ⟨validSignature_sampleLegacy 0, fun h => ?_⟩
  have hread := (roundTrips_iff_fromValues rfl (length_sampleLegacy (.inl rfl) _ rfl)).1 h
  exact ((createLegacyTxManagerFromBytesArray_raw _).1 hread).1 rfl

end Tx

end TsEthereum
