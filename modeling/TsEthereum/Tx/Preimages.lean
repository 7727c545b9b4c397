import TsEthereum.Tx.Canonicity
import TsEthereum.Tx.Malleability

/-!
# What is signed

The bytes that are hashed for a signature (`TxData.preimage`) tell the type, the chain and every
field but the signature: a typed one starts with its type and a legacy one with the prefix of
a list, a legacy list has six values or nine, and each value tells its field
(`preimage_inj`). What a signer hands to the curve is the hash of such bytes, of the chain it is
for (`sigHash_of_input`).
-/

namespace TsEthereum

namespace Tx

/-- The transaction without its signature. -/
def TxData.unsigned : TxData → TxData
  | .legacy tx => .legacy { tx with v := none, r := none, s := none }
  | .accessList tx => .accessList { tx with v := none, r := none, s := none }
  | .dynamicFee tx => .dynamicFee { tx with v := none, r := none, s := none }
  | .blob tx => .blob { tx with v := none, r := none, s := none }
  | .setCode tx => .setCode { tx with v := none, r := none, s := none }

/-- The chain that is signed: of a legacy transaction the one it is signed for, and none if that is
0. -/
def TxData.signedChain (tx : TxData) (chainId : ℕ) : ℕ :=
  match tx with
  | .legacy _ => chainId
  | tx => tx.chainID

/-- **What `sigHash` hashes.** -/
def TxData.preimage (tx : TxData) (chainId : ℕ) : Except TxError Bytes :=
  tx.message chainId >>= fun message => .ok (tx.envelope message)

variable {keccak256 : Bytes → Bytes32} {tx tx' : TxData} {chainId chainId' : ℕ} {b : Bytes}

theorem sigHash_eq_ok {hash : Bytes32} : tx.sigHash keccak256 chainId = .ok hash ↔
    ∃ b, tx.preimage chainId = .ok b ∧ keccak256 b = hash := by
  simp only [TxData.sigHash, TxData.preimage, bind_eq_ok, Except.ok.injEq]
  constructor
  · rintro ⟨message, hmessage, rfl⟩
    exact ⟨_, ⟨message, hmessage, rfl⟩, rfl⟩
  · rintro ⟨b, ⟨message, hmessage, rfl⟩, rfl⟩
    exact ⟨message, hmessage, rfl⟩

/-! ## Each value tells its field -/

@[simp] theorem bigIntToUnpaddedBytes_inj {n m : ℕ} :
    bigIntToUnpaddedBytes n = bigIntToUnpaddedBytes m ↔ n = m := by
  refine ⟨fun h => ?_, fun h => by rw [h]⟩
  rw [← ofBigEndian_bigEndian n, NestedUint8Array.bytes.inj h, ofBigEndian_bigEndian]

@[simp] theorem toBytes_inj {to_ to_' : Option Bytes20} : toBytes to_ = toBytes to_' ↔ to_ = to_' := by
  refine ⟨fun h => ?_, fun h => by rw [h]⟩
  have hne (address : Bytes20) : address.1 ≠ [] := by
    intro hnil
    have hlength := address.2
    rw [hnil] at hlength
    cases hlength
  cases to_ with
  | none =>
    cases to_' with
    | none => rfl
    | some address => exact absurd (NestedUint8Array.bytes.inj h).symm (hne address)
  | some address =>
    cases to_' with
    | none => exact absurd (NestedUint8Array.bytes.inj h) (hne address)
    | some address' => rw [Subtype.ext (NestedUint8Array.bytes.inj h)]

@[simp] theorem toValue_inj {hashes hashes' : BlobVersionedHashes} :
    hashes.toValue = hashes'.toValue ↔ hashes = hashes' := by
  refine ⟨fun h => ?_, fun h => by rw [h]⟩
  cases hashes with
  | emptyBytes =>
    cases hashes' with
    | emptyBytes => rfl
    | list hashes' => cases h
  | list hashes =>
    cases hashes' with
    | emptyBytes => cases h
    | list hashes' =>
      have hinj : Function.Injective NestedUint8Array.bytes := fun _ _ => NestedUint8Array.bytes.inj
      rw [hinj.list_map (NestedUint8Array.list.inj h)]

theorem AuthorizationList.toValue_eq_ok {list : AuthorizationList} {value : NestedUint8Array} :
    list.toValue = .ok value ↔ list = .bytes value := by
  cases list <;> simp [AuthorizationList.toValue]

/-! ## The list tells the fields -/

theorem legacy_of_message {tx tx' : LegacyTxData}
    (h : tx.getMessageToSign chainId (chainId > 0) = tx'.getMessageToSign chainId' (chainId' > 0)) :
    (TxData.legacy tx).unsigned = (TxData.legacy tx').unsigned ∧ chainId = chainId' := by
  have hfields : tx.fields = tx'.fields ∧ chainId = chainId' := by
    unfold LegacyTxData.getMessageToSign at h
    rcases Nat.eq_zero_or_pos chainId with rfl | hpos
    · rcases Nat.eq_zero_or_pos chainId' with rfl | hpos'
      · exact ⟨by simpa using h, rfl⟩
      · have hlength := congrArg List.length h
        simp [hpos', LegacyTxData.fields] at hlength
    · rcases Nat.eq_zero_or_pos chainId' with rfl | hpos'
      · have hlength := congrArg List.length h
        simp [hpos, LegacyTxData.fields] at hlength
      · rw [if_pos (by simpa using hpos), if_pos (by simpa using hpos')] at h
        obtain ⟨hfields, hchain⟩ := List.append_inj h rfl
        exact ⟨hfields, by simpa using hchain⟩
  obtain ⟨hfields, hchain⟩ := hfields
  simp only [LegacyTxData.fields, List.cons.injEq, bigIntToUnpaddedBytes_inj, toBytes_inj,
    and_true] at hfields
  obtain ⟨h1, h2, h3, h4, h5, h6⟩ := hfields
  simp [TxData.unsigned, h1, h2, h3, h4, h5, h6, hchain]

theorem unsigned_of_message {message : List NestedUint8Array} (htype : tx.type = tx'.type)
    (h : tx.message chainId = .ok message) (h' : tx'.message chainId' = .ok message) :
    tx.unsigned = tx'.unsigned ∧ tx.signedChain chainId = tx'.signedChain chainId' := by
  cases tx with
  | legacy tx =>
    cases tx' with
    | legacy tx' => exact legacy_of_message (Except.ok.inj (h.trans h'.symm))
    | _ => cases htype
  | accessList tx =>
    cases tx' with
    | accessList tx' =>
      have hmessage := Except.ok.inj (h.trans h'.symm)
      simp only [AccessListTxData.getMessageToSign, List.cons.injEq, bigIntToUnpaddedBytes_inj,
        toBytes_inj, and_true] at hmessage
      obtain ⟨h1, h2, h3, h4, h5, h6, h7, h8⟩ := hmessage
      simp [TxData.unsigned, TxData.signedChain, TxData.chainID, h1, h2, h3, h4, h5, h6, h7, h8]
    | _ => cases htype
  | dynamicFee tx =>
    cases tx' with
    | dynamicFee tx' =>
      have hmessage := Except.ok.inj (h.trans h'.symm)
      simp only [DynamicFeeTxData.getMessageToSign, List.cons.injEq, bigIntToUnpaddedBytes_inj,
        toBytes_inj, and_true] at hmessage
      obtain ⟨h1, h2, h3, h4, h5, h6, h7, h8, h9⟩ := hmessage
      simp [TxData.unsigned, TxData.signedChain, TxData.chainID, h1, h2, h3, h4, h5, h6, h7, h8, h9]
    | _ => cases htype
  | blob tx =>
    cases tx' with
    | blob tx' =>
      have hmessage := Except.ok.inj (h.trans h'.symm)
      simp only [BlobTxData.getMessageToSign, List.cons.injEq, bigIntToUnpaddedBytes_inj,
        NestedUint8Array.bytes.injEq, toValue_inj, and_true] at hmessage
      obtain ⟨h1, h2, h3, h4, h5, h6, h7, h8, h9, h10, h11⟩ := hmessage
      simp [TxData.unsigned, TxData.signedChain, TxData.chainID, h1, h2, h3, h4, h5,
        Subtype.ext h6, h7, h8, h9, h10, h11]
    | _ => cases htype
  | setCode tx =>
    cases tx' with
    | setCode tx' =>
      obtain ⟨list, hlist, hmessage⟩ := bind_eq_ok.1 h
      obtain ⟨list', hlist', hmessage'⟩ := bind_eq_ok.1 h'
      have hmessage := Except.ok.inj (hmessage.trans hmessage'.symm)
      rw [AuthorizationList.toValue_eq_ok] at hlist hlist'
      simp only [List.cons.injEq, bigIntToUnpaddedBytes_inj, NestedUint8Array.bytes.injEq,
        and_true] at hmessage
      obtain ⟨h1, h2, h3, h4, h5, h6, h7, h8, h9, h10⟩ := hmessage
      simp [TxData.unsigned, TxData.signedChain, TxData.chainID, h1, h2, h3, h4, h5,
        Subtype.ext h6, h7, h8, h9, hlist, hlist', h10]
    | _ => cases htype

/-! ## The bytes tell the list -/

/-- The type that a first byte is of. -/
def typeOfFirst (first : UInt8) : TransactionType :=
  if first = 1 then .accessListEIP2930
  else if first = 2 then .feeMarketEIP1559
  else if first = 3 then .blobEIP4844
  else if first = 4 then .eoaCodeEIP7702
  else .legacy

/-- The first byte tells the type: of a legacy transaction it is the prefix of a list. -/
theorem typeOfFirst_envelope {values : List NestedUint8Array}
    (hlen : (tx.envelope values).length < arrayBound) :
    ∃ first rest, tx.envelope values = first :: rest ∧ typeOfFirst first = tx.type := by
  cases tx with
  | legacy tx =>
    have hlist : (Rlp.encode (.list values)).length < arrayBound := hlen
    obtain ⟨first, rest, heq, hle⟩ := encode_list_eq_cons hlist
    refine ⟨first, rest, heq, ?_⟩
    have hne {k : UInt8} (hk : k.toNat < 0xc0) : first ≠ k := by
      rintro rfl
      omega
    rw [typeOfFirst, if_neg (hne (by decide)), if_neg (hne (by decide)), if_neg (hne (by decide)),
      if_neg (hne (by decide))]
    rfl
  | _ tx => exact ⟨_, _, rfl, rfl⟩

/-- So envelopes that are equal are of one type, -/
theorem type_of_envelope {values values' : List NestedUint8Array}
    (hlen : (tx.envelope values).length < arrayBound)
    (h : tx.envelope values = tx'.envelope values') : tx.type = tx'.type := by
  obtain ⟨first, rest, heq, htype⟩ := typeOfFirst_envelope hlen
  have hlen' : (tx'.envelope values').length < arrayBound := h ▸ hlen
  obtain ⟨first', rest', heq', htype'⟩ := typeOfFirst_envelope hlen'
  obtain ⟨rfl, -⟩ := List.cons.inj (heq.symm.trans (h.trans heq'))
  exact htype.symm.trans htype'

/-- and **a preimage tells the transaction**, and the chain it is signed for. -/
theorem preimage_inj (h : tx.preimage chainId = .ok b) (h' : tx'.preimage chainId' = .ok b)
    (hlen : b.length < arrayBound) :
    tx.unsigned = tx'.unsigned ∧ tx.signedChain chainId = tx'.signedChain chainId' := by
  obtain ⟨message, hmessage, heq⟩ := bind_eq_ok.1 h
  obtain ⟨message', hmessage', heq'⟩ := bind_eq_ok.1 h'
  obtain rfl := Except.ok.inj heq
  have hb := (Except.ok.inj heq').symm
  have htype : tx.type = tx'.type := type_of_envelope hlen hb
  have henvelope : tx'.envelope message' = tx.envelope message' := by
    unfold TxData.envelope
    rw [htype]
  rw [henvelope] at hb
  obtain rfl := envelope_inj hlen hb
  exact unsigned_of_message htype hmessage hmessage'

/-! ## What the signers hash -/

/-- `chainID` of a signer: 0 is none. -/
def Signer.chainID : Signer → ℕ
  | .frontier => 0
  | .homestead => 0
  | .eip155 chainId => chainId
  | .eip2930 chainId => chainId
  | .london chainId => chainId
  | .cancun chainId => chainId
  | .prague chainId => chainId

/-- The chain that a signer hashes a transaction for: none if that is not protected. -/
def Signer.hashedFor (signer : Signer) (tx : TxData) : ℕ :=
  if tx.isProtected then signer.chainID else 0

variable {signer signer' : Signer} {input input' : CurveInput}

theorem msgHash_of_ecrecoverInput {msgHash : Bytes32} {v r s : ℕ} {chainId : Option ℕ}
    (h : ecrecoverInput msgHash v r s chainId = .ok input) : input.msgHash = msgHash := by
  rw [(ecrecoverInput_eq_ok.1 h).2]

theorem signingHash_eq_ok {hash : Bytes32} :
    signingHash keccak256 tx chainId = .ok hash ↔ tx.sigHash keccak256 chainId = .ok hash := by
  unfold signingHash
  cases tx.sigHash keccak256 chainId with
  | ok hash' => simp [Except.mapError]
  | error e => simp [Except.mapError]

theorem sigHash_of_homesteadInput (h : homesteadInput keccak256 tx = .ok input) :
    tx.sigHash keccak256 0 = .ok input.msgHash := by
  unfold homesteadInput at h
  obtain ⟨-, h⟩ := ite_error_eq_ok.1 h
  obtain ⟨⟨v, r, s⟩, -, h⟩ := bind_eq_ok.1 h
  obtain ⟨-, h⟩ := ite_error_eq_ok.1 h
  obtain ⟨hash, hhash, h⟩ := bind_eq_ok.1 h
  rw [msgHash_of_ecrecoverInput h]
  exact signingHash_eq_ok.1 hhash

theorem sigHash_of_eip155Input (h : eip155Input keccak256 chainId tx = .ok input) :
    tx.sigHash keccak256 (if tx.isProtected then chainId else 0) = .ok input.msgHash := by
  unfold eip155Input at h
  obtain ⟨-, h⟩ := ite_error_eq_ok.1 h
  cases hprotected : tx.isProtected with
  | false =>
    rw [if_pos hprotected] at h
    exact sigHash_of_homesteadInput h
  | true =>
    rw [if_neg (by simp [hprotected])] at h
    obtain ⟨-, h⟩ := ite_error_eq_ok.1 h
    obtain ⟨⟨v, r, s⟩, -, h⟩ := bind_eq_ok.1 h
    obtain ⟨-, h⟩ := ite_error_eq_ok.1 h
    obtain ⟨hash, hhash, h⟩ := bind_eq_ok.1 h
    rw [msgHash_of_ecrecoverInput h]
    exact signingHash_eq_ok.1 hhash

theorem sigHash_of_eip2930Input {supportsType : TransactionType → Bool}
    (h : eip2930Input keccak256 supportsType chainId tx = .ok input) :
    tx.sigHash keccak256 (if tx.isProtected then chainId else 0) = .ok input.msgHash := by
  unfold eip2930Input at h
  split at h
  · exact sigHash_of_eip155Input h
  · rename_i htype
    obtain ⟨-, h⟩ := ite_error_eq_ok.1 h
    obtain ⟨-, h⟩ := ite_error_eq_ok.1 h
    obtain ⟨⟨v, r, s⟩, -, h⟩ := bind_eq_ok.1 h
    obtain ⟨hash, hhash, h⟩ := bind_eq_ok.1 h
    rw [msgHash_of_ecrecoverInput h]
    -- a typed transaction is protected
    have hprotected : tx.isProtected = true := by
      cases tx with
      | legacy tx => exact absurd rfl htype
      | _ => rfl
    rw [if_pos hprotected]
    exact signingHash_eq_ok.1 hhash

theorem sigHash_of_input (h : signer.input keccak256 tx = .ok input) :
    tx.sigHash keccak256 (signer.hashedFor tx) = .ok input.msgHash := by
  unfold Signer.hashedFor
  cases signer with
  | frontier =>
    have h' : frontierInput keccak256 tx = .ok input := h
    unfold frontierInput at h'
    obtain ⟨-, h'⟩ := ite_error_eq_ok.1 h'
    obtain ⟨⟨v, r, s⟩, -, h'⟩ := bind_eq_ok.1 h'
    obtain ⟨hash, hhash, h'⟩ := bind_eq_ok.1 h'
    obtain ⟨-, h'⟩ := ite_error_eq_ok.1 h'
    rw [msgHash_of_ecrecoverInput h', show (if tx.isProtected then Signer.frontier.chainID else 0) = 0
      by split <;> rfl]
    exact signingHash_eq_ok.1 hhash
  | homestead =>
    rw [show (if tx.isProtected then Signer.homestead.chainID else 0) = 0 by split <;> rfl]
    exact sigHash_of_homesteadInput h
  | eip155 chainId => exact sigHash_of_eip155Input h
  | _ chainId => exact sigHash_of_eip2930Input h

/-- Two transactions are one, but for their signatures, and signed for one chain. -/
structure SignedAlike (tx tx' : TxData) (chainId chainId' : ℕ) : Prop where
  type : tx.type = tx'.type
  unsigned : tx.unsigned = tx'.unsigned
  signedChain : tx.signedChain chainId = tx'.signedChain chainId'

theorem signedAlike_of_preimage (h : tx.preimage chainId = .ok b)
    (h' : tx'.preimage chainId' = .ok b) (hlen : b.length < arrayBound) :
    SignedAlike tx tx' chainId chainId' := by
  obtain ⟨hunsigned, hchain⟩ := preimage_inj h h' hlen
  have htype (tx : TxData) : tx.unsigned.type = tx.type := by cases tx <;> rfl
  exact ⟨by rw [← htype tx, hunsigned, htype], hunsigned, hchain⟩

/-- **What is signed is signed once**: as far as the hash does not collide on what is hashed,
transactions with one signing hash are the same but for their signatures, so of one type, and they
are signed for the same chain; and so are those of which signers hand one hash to the curve. -/
theorem signing_preimages {preimages : Set Bytes} (hinj : preimages.InjOn keccak256)
    (hfits : ∀ b ∈ preimages, b.length < arrayBound) :
    (∀ tx tx' chainId chainId' b b', tx.preimage chainId = .ok b → b ∈ preimages →
      tx'.preimage chainId' = .ok b' → b' ∈ preimages →
      tx.sigHash keccak256 chainId = tx'.sigHash keccak256 chainId' →
        SignedAlike tx tx' chainId chainId') ∧
    ∀ (signer signer' : Signer) tx tx' input input' b b',
      tx.preimage (signer.hashedFor tx) = .ok b → b ∈ preimages →
      tx'.preimage (signer'.hashedFor tx') = .ok b' → b' ∈ preimages →
      signer.input keccak256 tx = .ok input → signer'.input keccak256 tx' = .ok input' →
      input.msgHash = input'.msgHash →
        SignedAlike tx tx' (signer.hashedFor tx) (signer'.hashedFor tx') := by
  have hsame : ∀ tx tx' chainId chainId' b b', tx.preimage chainId = .ok b → b ∈ preimages →
      tx'.preimage chainId' = .ok b' → b' ∈ preimages →
      tx.sigHash keccak256 chainId = tx'.sigHash keccak256 chainId' →
        SignedAlike tx tx' chainId chainId' := by
    intro tx tx' chainId chainId' b b' h hb h' hb' hhash
    have hkeccak : keccak256 b = keccak256 b' := by
      have hleft : tx.sigHash keccak256 chainId = .ok (keccak256 b) := sigHash_eq_ok.2 ⟨b, h, rfl⟩
      have hright : tx'.sigHash keccak256 chainId' = .ok (keccak256 b') :=
        sigHash_eq_ok.2 ⟨b', h', rfl⟩
      exact Except.ok.inj (hleft.symm.trans (hhash.trans hright))
    obtain rfl := hinj hb hb' hkeccak
    exact signedAlike_of_preimage h h' (hfits b hb)
  refine ⟨hsame, fun signer signer' tx tx' input input' b b' h hb h' hb' hin hin' hhash => ?_⟩
  refine hsame tx tx' _ _ b b' h hb h' hb' ?_
  rw [sigHash_of_input hin, sigHash_of_input hin', hhash]

/-- A transaction and the one its key signed. -/
theorem signing_preimages_sample :
    SignedAlike sampleTransaction (sampleTransaction.withSignature sampleSignature) 1 1 := by
  have hpreimage : sampleTransaction.preimage 1 =
      .ok (((sampleTransaction.preimage 1).toOption).getD []) := rfl
  refine (signing_preimages (Set.injOn_singleton sampleKeccak _) ?_).1 _ _ 1 1 _ _ hpreimage rfl
    hpreimage rfl rfl
  rintro b rfl
  decide +kernel

end Tx

end TsEthereum
