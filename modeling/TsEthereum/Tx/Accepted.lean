import TsEthereum.Tx.Factory

/-!
# What the creators accept

A creator's list of conditions, field by field: `Encodes` for a number,
`optionalTo` for a recipient, `ReadsSignature` for the three values of a
signature. Each creator has one lemma, that its result is the transaction these
fields make; the decoding theorems use nothing else of the creators.
-/

namespace TsEthereum

namespace Tx

/-! ## Items -/

/-- **An item writes a number**, in as few bytes as hold it; what is missing is an
empty string. -/
def Encodes (item : Option NestedUint8Array) (n : ℕ) : Prop :=
  item.getD (.bytes []) = bigIntToUnpaddedBytes n

instance (item : Option NestedUint8Array) (n : ℕ) : Decidable (Encodes item n) :=
  inferInstanceAs (Decidable (_ = _))

theorem validateNoLeadingZeroes_eq_ok {values : List (String × Option NestedUint8Array)} {u : Unit} :
    validateNoLeadingZeroes values = .ok u ↔ ∀ value ∈ values, hasLeadingZero value.2 = false := by
  rw [validateNoLeadingZeroes]
  split
  · rename_i value hfind
    have hzero := List.find?_some hfind
    have hmem := List.mem_of_find?_eq_some hfind
    simp only [reduceCtorEq, false_iff, not_forall]
    exact ⟨value, hmem, by simpa using hzero⟩
  · rename_i hfind
    simpa using hfind

theorem encodes_iff {item : Option NestedUint8Array} {n : ℕ} :
    hasLeadingZero item = false ∧ toBigInt item = .ok n ↔ Encodes item n := by
  rcases item with _ | b | xs
  · have h : (.bytes [] : NestedUint8Array) = bigIntToUnpaddedBytes n ↔ ofBigEndian [] = n := by
      rw [bigIntToUnpaddedBytes, NestedUint8Array.bytes.injEq]
      constructor
      · intro h
        rw [h, ofBigEndian_bigEndian]
      · rintro rfl
        exact (bigEndian_ofBigEndian (by simp)).symm
    simpa [Encodes, hasLeadingZero, toBigInt, bytesToBigInt] using h.symm
  · simp only [Encodes, hasLeadingZero, toBigInt, bytesToBigInt, bigIntToUnpaddedBytes,
      Option.getD_some, Except.ok.injEq, NestedUint8Array.bytes.injEq, decide_eq_false_iff_not]
    constructor
    · rintro ⟨hzero, rfl⟩
      exact (bigEndian_ofBigEndian hzero).symm
    · rintro rfl
      exact ⟨head?_bigEndian_ne_zero n, ofBigEndian_bigEndian n⟩
  · simp [Encodes, toBigInt, bytesToBigInt, bigIntToUnpaddedBytes]

@[simp] theorem encodes_bigIntToUnpaddedBytes {n m : ℕ} :
    Encodes (some (bigIntToUnpaddedBytes n)) m ↔ n = m := by
  rw [Encodes, Option.getD_some, bigIntToUnpaddedBytes, bigIntToUnpaddedBytes,
    NestedUint8Array.bytes.injEq]
  constructor
  · intro h
    rw [← ofBigEndian_bigEndian n, h, ofBigEndian_bigEndian]
  · rintro rfl
    rfl

theorem itemLength_bigIntToUnpaddedBytes {n : ℕ} :
    0 < itemLength (bigIntToUnpaddedBytes n) ↔ n ≠ 0 := by
  constructor
  · rintro h rfl
    simp [bigIntToUnpaddedBytes, itemLength, bigEndian] at h
  · intro h
    exact length_bigEndian_pos (by omega)

/-! ## Signatures -/

/-- What a typed creator makes of the three values of a signature. -/
structure ReadsSignature (v r s : Option NestedUint8Array)
    (signature : Option ℕ × Option ℕ × Option ℕ) : Prop where
  noLeadingZeroes : hasLeadingZero v = false ∧ hasLeadingZero r = false ∧ hasLeadingZero s = false
  v_eq : signatureBigInt (hasSig r s) v = .ok signature.1
  r_eq : signatureBigInt (hasSig r s) r = .ok signature.2.1
  s_eq : signatureBigInt (hasSig r s) s = .ok signature.2.2

/-- What the legacy creator makes of them. -/
structure ReadsEach (v r s : Option NestedUint8Array)
    (signature : Option ℕ × Option ℕ × Option ℕ) : Prop where
  noLeadingZeroes : hasLeadingZero v = false ∧ hasLeadingZero r = false ∧ hasLeadingZero s = false
  v_eq : optionalBigInt v = .ok signature.1
  r_eq : optionalBigInt r = .ok signature.2.1
  s_eq : optionalBigInt s = .ok signature.2.2

/-! ## The creators -/

theorem createLegacyTxManagerFromBytesArray_eq_ok {values : List NestedUint8Array} {tx : TxData} :
    createLegacyTxManagerFromBytesArray values = .ok tx ↔
      (values.length = 6 ∨ values.length = 9) ∧ ∃ inner : LegacyTxData, tx = .legacy inner ∧
        Encodes values[0]? inner.nonce ∧ Encodes values[1]? inner.gasPrice ∧
        Encodes values[2]? inner.gasLimit ∧ optionalTo values[3]? = .ok inner.to_ ∧
        Encodes values[4]? inner.value ∧ values[5]?.getD (.bytes []) = inner.data ∧
        ReadsEach values[6]? values[7]? values[8]? (inner.v, inner.r, inner.s) := by
  rw [createLegacyTxManagerFromBytesArray, ite_error_eq_ok,
    show ¬ (values.length ≠ 6 ∧ values.length ≠ 9) ↔ values.length = 6 ∨ values.length = 9 by omega]
  refine and_congr_right fun _ => ?_
  simp only [bind_eq_ok, validateNoLeadingZeroes_eq_ok, List.forall_mem_cons, List.not_mem_nil,
    false_implies, implies_true, and_true, pure, Except.pure, Except.ok.injEq]
  constructor
  · rintro ⟨-, ⟨h0, h1, h2, h4, hv, hr, hs⟩, n, hn, p, hp, g, hg, t, ht, w, hw, v, hv', r, hr', s,
      hs', rfl⟩
    exact ⟨_, rfl, encodes_iff.1 ⟨h0, hn⟩, encodes_iff.1 ⟨h1, hp⟩, encodes_iff.1 ⟨h2, hg⟩, ht,
      encodes_iff.1 ⟨h4, hw⟩, rfl, ⟨hv, hr, hs⟩, hv', hr', hs'⟩
  · rintro ⟨inner, rfl, h0, h1, h2, h3, h4, h5, hsig⟩
    obtain ⟨hv, hr, hs⟩ := hsig.noLeadingZeroes
    exact ⟨(), ⟨(encodes_iff.2 h0).1, (encodes_iff.2 h1).1, (encodes_iff.2 h2).1,
      (encodes_iff.2 h4).1, hv, hr, hs⟩, _, (encodes_iff.2 h0).2, _, (encodes_iff.2 h1).2, _,
      (encodes_iff.2 h2).2, _, h3, _, (encodes_iff.2 h4).2, _, hsig.v_eq, _, hsig.r_eq, _,
      hsig.s_eq, by rw [h5]⟩

theorem accessListFromValues_eq_ok {values : List NestedUint8Array} {tx : TxData} :
    accessListFromValues values = .ok tx ↔
      ∃ inner : AccessListTxData, tx = .accessList inner ∧
        Encodes values[0]? inner.chainId ∧ Encodes values[1]? inner.nonce ∧
        Encodes values[2]? inner.gasPrice ∧ Encodes values[3]? inner.gasLimit ∧
        optionalTo values[4]? = .ok inner.to_ ∧ Encodes values[5]? inner.value ∧
        values[6]?.getD (.bytes []) = inner.data ∧ values[7]?.getD (.list []) = inner.accessList ∧
        ReadsSignature values[8]? values[9]? values[10]? (inner.v, inner.r, inner.s) := by
  simp only [accessListFromValues, bind_eq_ok, validateNoLeadingZeroes_eq_ok, List.forall_mem_cons,
    List.not_mem_nil, false_implies, implies_true, and_true, pure, Except.pure, Except.ok.injEq]
  constructor
  · rintro ⟨-, ⟨h0, h1, h2, h3, h5, hv, hr, hs⟩, c, hc, n, hn, p, hp, g, hg, t, ht, w, hw, v, hv', r,
      hr', s, hs', rfl⟩
    exact ⟨_, rfl, encodes_iff.1 ⟨h0, hc⟩, encodes_iff.1 ⟨h1, hn⟩, encodes_iff.1 ⟨h2, hp⟩,
      encodes_iff.1 ⟨h3, hg⟩, ht, encodes_iff.1 ⟨h5, hw⟩, rfl, rfl, ⟨hv, hr, hs⟩, hv', hr', hs'⟩
  · rintro ⟨inner, rfl, h0, h1, h2, h3, h4, h5, h6, h7, hsig⟩
    obtain ⟨hv, hr, hs⟩ := hsig.noLeadingZeroes
    exact ⟨(), ⟨(encodes_iff.2 h0).1, (encodes_iff.2 h1).1, (encodes_iff.2 h2).1,
      (encodes_iff.2 h3).1, (encodes_iff.2 h5).1, hv, hr, hs⟩, _, (encodes_iff.2 h0).2, _,
      (encodes_iff.2 h1).2, _, (encodes_iff.2 h2).2, _, (encodes_iff.2 h3).2, _, h4, _,
      (encodes_iff.2 h5).2, _, hsig.v_eq, _, hsig.r_eq, _, hsig.s_eq, by rw [h6, h7]⟩

theorem dynamicFeeFromValues_eq_ok {values : List NestedUint8Array} {tx : TxData} :
    dynamicFeeFromValues values = .ok tx ↔
      ∃ inner : DynamicFeeTxData, tx = .dynamicFee inner ∧
        Encodes values[0]? inner.chainId ∧ Encodes values[1]? inner.nonce ∧
        Encodes values[2]? inner.maxPriorityFeePerGas ∧ Encodes values[3]? inner.maxFeePerGas ∧
        Encodes values[4]? inner.gasLimit ∧ optionalTo values[5]? = .ok inner.to_ ∧
        Encodes values[6]? inner.value ∧ values[7]?.getD (.bytes []) = inner.data ∧
        values[8]?.getD (.list []) = inner.accessList ∧
        ReadsSignature values[9]? values[10]? values[11]? (inner.v, inner.r, inner.s) := by
  simp only [dynamicFeeFromValues, bind_eq_ok, validateNoLeadingZeroes_eq_ok, List.forall_mem_cons,
    List.not_mem_nil, false_implies, implies_true, and_true, pure, Except.pure, Except.ok.injEq]
  constructor
  · rintro ⟨-, ⟨h0, h1, h2, h3, h4, h6, hv, hr, hs⟩, c, hc, n, hn, p, hp, f, hf, g, hg, t, ht, w, hw,
      v, hv', r, hr', s, hs', rfl⟩
    exact ⟨_, rfl, encodes_iff.1 ⟨h0, hc⟩, encodes_iff.1 ⟨h1, hn⟩, encodes_iff.1 ⟨h2, hp⟩,
      encodes_iff.1 ⟨h3, hf⟩, encodes_iff.1 ⟨h4, hg⟩, ht, encodes_iff.1 ⟨h6, hw⟩, rfl, rfl,
      ⟨hv, hr, hs⟩, hv', hr', hs'⟩
  · rintro ⟨inner, rfl, h0, h1, h2, h3, h4, h5, h6, h7, h8, hsig⟩
    obtain ⟨hv, hr, hs⟩ := hsig.noLeadingZeroes
    exact ⟨(), ⟨(encodes_iff.2 h0).1, (encodes_iff.2 h1).1, (encodes_iff.2 h2).1,
      (encodes_iff.2 h3).1, (encodes_iff.2 h4).1, (encodes_iff.2 h6).1, hv, hr, hs⟩, _,
      (encodes_iff.2 h0).2, _, (encodes_iff.2 h1).2, _, (encodes_iff.2 h2).2, _,
      (encodes_iff.2 h3).2, _, (encodes_iff.2 h4).2, _, h5, _, (encodes_iff.2 h6).2, _, hsig.v_eq,
      _, hsig.r_eq, _, hsig.s_eq, by rw [h7, h8]⟩

theorem blobFromValues_eq_ok {values : List NestedUint8Array} {tx : TxData} :
    blobFromValues values = .ok tx ↔
      present values[5]? = true ∧ ∃ inner : BlobTxData, tx = .blob inner ∧
        Encodes values[0]? inner.chainId ∧ Encodes values[1]? inner.nonce ∧
        Encodes values[2]? inner.maxPriorityFeePerGas ∧ Encodes values[3]? inner.maxFeePerGas ∧
        Encodes values[4]? inner.gasLimit ∧
        bytesToAddress (values[5]?.getD (.bytes [])) = .ok inner.to_ ∧
        Encodes values[6]? inner.value ∧ values[7]?.getD (.bytes []) = inner.data ∧
        values[8]?.getD (.list []) = inner.accessList ∧
        Encodes values[9]? inner.maxFeePerBlobGas ∧
        toBlobVersionedHashes values[10]? = .ok inner.blobVersionedHashes ∧
        ReadsSignature values[11]? values[12]? values[13]? (inner.v, inner.r, inner.s) := by
  simp only [blobFromValues, bind_eq_ok, validateNoLeadingZeroes_eq_ok, List.forall_mem_cons,
    List.not_mem_nil, false_implies, implies_true, and_true, pure, Except.pure, throw,
    throwThe, MonadExceptOf.throw]
  constructor
  · rintro ⟨-, ⟨h0, h1, h2, h3, h4, h6, h9, hv, hr, hs⟩, h⟩
    split at h
    · cases h
    · rename_i hto
      simp only [bind_eq_ok, Except.ok.injEq] at h
      obtain ⟨c, hc, n, hn, p, hp, f, hf, g, hg, t, ht, w, hw, m, hm, b, hb, v, hv', r, hr', s, hs',
        rfl⟩ := h
      exact ⟨by simpa using hto, _, rfl, encodes_iff.1 ⟨h0, hc⟩, encodes_iff.1 ⟨h1, hn⟩,
        encodes_iff.1 ⟨h2, hp⟩, encodes_iff.1 ⟨h3, hf⟩, encodes_iff.1 ⟨h4, hg⟩, ht,
        encodes_iff.1 ⟨h6, hw⟩, rfl, rfl, encodes_iff.1 ⟨h9, hm⟩, hb, ⟨hv, hr, hs⟩, hv', hr', hs'⟩
  · rintro ⟨hto, inner, rfl, h0, h1, h2, h3, h4, h5, h6, h7, h8, h9, h10, hsig⟩
    obtain ⟨hv, hr, hs⟩ := hsig.noLeadingZeroes
    refine ⟨(), ⟨(encodes_iff.2 h0).1, (encodes_iff.2 h1).1, (encodes_iff.2 h2).1,
      (encodes_iff.2 h3).1, (encodes_iff.2 h4).1, (encodes_iff.2 h6).1, (encodes_iff.2 h9).1, hv, hr,
      hs⟩, ?_⟩
    rw [if_neg (by simp [hto])]
    simp only [bind_eq_ok, Except.ok.injEq]
    exact ⟨_, (encodes_iff.2 h0).2, _, (encodes_iff.2 h1).2, _, (encodes_iff.2 h2).2, _,
      (encodes_iff.2 h3).2, _, (encodes_iff.2 h4).2, _, h5, _, (encodes_iff.2 h6).2, _,
      (encodes_iff.2 h9).2, _, h10, _, hsig.v_eq, _, hsig.r_eq, _, hsig.s_eq, by rw [h7, h8]⟩

theorem setCodeFromValues_eq_ok {values : List NestedUint8Array} {tx : TxData} :
    setCodeFromValues values = .ok tx ↔
      present values[5]? = true ∧ ∃ inner : SetCodeTxData, tx = .setCode inner ∧
        Encodes values[0]? inner.chainId ∧ Encodes values[1]? inner.nonce ∧
        Encodes values[2]? inner.maxPriorityFeePerGas ∧ Encodes values[3]? inner.maxFeePerGas ∧
        Encodes values[4]? inner.gasLimit ∧
        bytesToAddress (values[5]?.getD (.bytes [])) = .ok inner.to_ ∧
        Encodes values[6]? inner.value ∧ values[7]?.getD (.bytes []) = inner.data ∧
        values[8]?.getD (.list []) = inner.accessList ∧
        .bytes (values[9]?.getD (.list [])) = inner.authorizationList ∧
        ReadsSignature values[10]? values[11]? values[12]? (inner.v, inner.r, inner.s) := by
  simp only [setCodeFromValues, bind_eq_ok, validateNoLeadingZeroes_eq_ok, List.forall_mem_cons,
    List.not_mem_nil, false_implies, implies_true, and_true, pure, Except.pure, throw,
    throwThe, MonadExceptOf.throw]
  constructor
  · rintro ⟨-, ⟨h0, h1, h2, h3, h4, h6, hv, hr, hs⟩, h⟩
    split at h
    · cases h
    · rename_i hto
      simp only [bind_eq_ok, Except.ok.injEq] at h
      obtain ⟨c, hc, n, hn, p, hp, f, hf, g, hg, t, ht, w, hw, v, hv', r, hr', s, hs', rfl⟩ := h
      exact ⟨by simpa using hto, _, rfl, encodes_iff.1 ⟨h0, hc⟩, encodes_iff.1 ⟨h1, hn⟩,
        encodes_iff.1 ⟨h2, hp⟩, encodes_iff.1 ⟨h3, hf⟩, encodes_iff.1 ⟨h4, hg⟩, ht,
        encodes_iff.1 ⟨h6, hw⟩, rfl, rfl, rfl, ⟨hv, hr, hs⟩, hv', hr', hs'⟩
  · rintro ⟨hto, inner, rfl, h0, h1, h2, h3, h4, h5, h6, h7, h8, h9, hsig⟩
    obtain ⟨hv, hr, hs⟩ := hsig.noLeadingZeroes
    refine ⟨(), ⟨(encodes_iff.2 h0).1, (encodes_iff.2 h1).1, (encodes_iff.2 h2).1,
      (encodes_iff.2 h3).1, (encodes_iff.2 h4).1, (encodes_iff.2 h6).1, hv, hr, hs⟩, ?_⟩
    rw [if_neg (by simp [hto])]
    simp only [bind_eq_ok, Except.ok.injEq]
    exact ⟨_, (encodes_iff.2 h0).2, _, (encodes_iff.2 h1).2, _, (encodes_iff.2 h2).2, _,
      (encodes_iff.2 h3).2, _, (encodes_iff.2 h4).2, _, h5, _, (encodes_iff.2 h6).2, _, hsig.v_eq,
      _, hsig.r_eq, _, hsig.s_eq, by rw [h7, h8, h9]⟩

end Tx

end TsEthereum
