import TsEthereum.Tx.Signers

/-!
# Signature malleability

How many `v`, `r`, `s` a signer takes for one signature of a transaction. Two of
them are the same signature when the curve is handed the same input, or that input
flipped: the other parity and `n - s`.

From 33 bytes on only the last 32 of `r` reach the curve, so there are always more
(`exists_reencoding`). Of the values that fit in 32 bytes, what a signer takes is
unique for a protected legacy transaction alone: the others leave out the check on
`s`, or on `v`.
-/

namespace TsEthereum

namespace Tx

/-- The three values of a signature. -/
structure SignatureValues where
  v : ℕ
  r : ℕ
  s : ℕ
  deriving DecidableEq

namespace SignatureValues

/-- `r` and `s` are those of an ECDSA signature. -/
structure Valid (signature : SignatureValues) : Prop where
  r_pos : 0 < signature.r
  r_lt : signature.r < SECP256K1_ORDER
  s_pos : 0 < signature.s
  s_lt : signature.s < SECP256K1_ORDER

/-- `r` and `s` fit in 32 bytes. -/
def Fits (signature : SignatureValues) : Prop :=
  signature.r < 2 ^ 256 ∧ signature.s < 2 ^ 256

end SignatureValues

/-- A transaction with a signature. -/
def TxData.withSignature (tx : TxData) (signature : SignatureValues) : TxData :=
  tx.setSignatureValues signature.v signature.r signature.s

/-- The flipped form: the other parity, `r` and `n - s`. -/
def Flipped (input input' : CurveInput) : Prop :=
  input'.msgHash = input.msgHash ∧ input'.recovery = !input.recovery ∧
    ∃ r s, 0 < r ∧ r < SECP256K1_ORDER ∧ 0 < s ∧ s < SECP256K1_ORDER ∧
      input.signature = compactSignature r s ∧
      input'.signature = compactSignature r (SECP256K1_ORDER - s)

/-- One signature of one hash. -/
def SameSignature (input input' : CurveInput) : Prop := input' = input ∨ Flipped input input'

/-- **Both are accepted**, as one signature of the transaction and of one sender. -/
def Reencodes (keccak256 : Bytes → Bytes32) (recover : Curve) (signer : Signer) (tx : TxData)
    (signature signature' : SignatureValues) : Prop :=
  ∃ input input', signer.input keccak256 (tx.withSignature signature) = .ok input ∧
    signer.input keccak256 (tx.withSignature signature') = .ok input' ∧
    SameSignature input input' ∧
    ∃ sender, signer.sender keccak256 recover (tx.withSignature signature) = .ok sender ∧
      signer.sender keccak256 recover (tx.withSignature signature') = .ok sender

variable {keccak256 : Bytes → Bytes32} {recover : Curve} {signer : Signer} {tx : TxData}
  {signature signature' : SignatureValues} {input input' : CurveInput} {sender : Bytes20}
  {spec : ChainSpec} {hardfork : Hardfork} {chainId : ℕ}

/-! ## The 64 bytes -/

theorem compactSignature_eq_iff {r s r' s' : ℕ} :
    compactSignature r s = compactSignature r' s' ↔
      r % 2 ^ 256 = r' % 2 ^ 256 ∧ s % 2 ^ 256 = s' % 2 ^ 256 := by
  have hlen : (setLengthLeft (bigEndian r) 32).length = (setLengthLeft (bigEndian r') 32).length := by
    rw [length_setLengthLeft, length_setLengthLeft]
  have hpow : (256 : ℕ) ^ 32 = 2 ^ 256 := by norm_num
  rw [← hpow, ← setLengthLeft_bigEndian_eq_iff, ← setLengthLeft_bigEndian_eq_iff]
  constructor
  · intro h
    exact List.append_inj h hlen
  · rintro ⟨hr, hs⟩
    rw [compactSignature, compactSignature, hr, hs]

theorem compactSignature_inj {r s r' s' : ℕ} (hr : r < 2 ^ 256) (hs : s < 2 ^ 256)
    (hr' : r' < 2 ^ 256) (hs' : s' < 2 ^ 256) (h : compactSignature r s = compactSignature r' s') :
    r = r' ∧ s = s' := by
  have hmod := compactSignature_eq_iff.1 h
  rwa [Nat.mod_eq_of_lt hr, Nat.mod_eq_of_lt hr', Nat.mod_eq_of_lt hs, Nat.mod_eq_of_lt hs'] at hmod

theorem order_lt : SECP256K1_ORDER < 2 ^ 256 := by
  norm_num [SECP256K1_ORDER]

theorem SignatureValues.Valid.fits (h : signature.Valid) : signature.Fits :=
  ⟨h.r_lt.trans order_lt, h.s_lt.trans order_lt⟩

/-! ## Which inputs a signer takes -/

theorem input_typed (keccak256 : Bytes → Bytes32) (signer : Signer) (h : tx.type ≠ .legacy) :
    ∃ (supported : Prop) (chainId : ℕ), ∀ signature input,
      signer.input keccak256 (tx.withSignature signature) = .ok input ↔
        supported ∧ (signature.v = 0 ∨ signature.v = 1) ∧
          ∃ msgHash, signingHash keccak256 tx chainId = .ok msgHash ∧
            input = ⟨msgHash, compactSignature signature.r signature.s, signature.v = 1⟩ := by
  have hmodern : ∀ (supportsType : TransactionType → Bool) (chainId : ℕ) signature input,
      eip2930Input keccak256 supportsType chainId (tx.withSignature signature) = .ok input ↔
        (supportsType tx.type = true ∧ tx.chainID = chainId) ∧
          (signature.v = 0 ∨ signature.v = 1) ∧
          ∃ msgHash, signingHash keccak256 tx chainId = .ok msgHash ∧
            input = ⟨msgHash, compactSignature signature.r signature.s, signature.v = 1⟩ := by
    intro supportsType chainId signature input
    rw [TxData.withSignature, eip2930Input_eq_ok h, and_assoc]
  cases signer with
  | frontier =>
    exact ⟨False, 0, fun signature input => by
      simp [Signer.input, frontierInput, TxData.withSignature, h]⟩
  | homestead =>
    exact ⟨False, 0, fun signature input => by
      simp [Signer.input, homesteadInput, TxData.withSignature, h]⟩
  | eip155 chainId =>
    exact ⟨False, 0, fun signature input => by
      simp [Signer.input, eip155Input, TxData.withSignature, h]⟩
  | eip2930 chainId => exact ⟨_, chainId, hmodern _ chainId⟩
  | london chainId => exact ⟨_, chainId, hmodern _ chainId⟩
  | cancun chainId => exact ⟨_, chainId, hmodern _ chainId⟩
  | prague chainId => exact ⟨_, chainId, hmodern _ chainId⟩

/-- The values of `v` for a chain. -/
def ProtectedFor (chainId v : ℕ) : Prop := v = 35 + 2 * chainId ∨ v = 36 + 2 * chainId

/-- The values of `v` without one. -/
def Unprotected (v : ℕ) : Prop := v = 0 ∨ v = 1 ∨ v = 27 ∨ v = 28

/-- Of a legacy transaction a signer takes a low `s`, and `v` without a chain or, when it
knows its chain, for that. -/
theorem input_legacy (keccak256 : Bytes → Bytes32) (chainId : ℕ) (h : tx.type = .legacy)
    (hge : spec.hardforkGte hardfork .homestead = true) :
    ∃ knowsChain : Prop, ∀ signature input,
      (makeSigner spec hardfork chainId).input keccak256 (tx.withSignature signature) = .ok input ↔
        signature.s ≤ SECP256K1_ORDER_DIV_2 ∧
          ((Unprotected signature.v ∧ ∃ msgHash, signingHash keccak256 tx 0 = .ok msgHash ∧
            input = ⟨msgHash, compactSignature signature.r signature.s,
              signature.v = 1 ∨ signature.v = 28⟩) ∨
          (knowsChain ∧ ProtectedFor chainId signature.v ∧
            ∃ msgHash, signingHash keccak256 tx chainId = .ok msgHash ∧
              input = ⟨msgHash, compactSignature signature.r signature.s,
                signature.v = 36 + 2 * chainId⟩)) := by
  have hmodern : ∀ supportsType signature,
      eip2930Input keccak256 supportsType chainId (tx.withSignature signature) =
        eip155Input keccak256 chainId (tx.withSignature signature) := by
    intro supportsType signature
    rw [eip2930Input, if_pos (by rw [TxData.withSignature, type_setSignatureValues, h])]
  cases hsigner : makeSigner spec hardfork chainId with
  | frontier => exact absurd hsigner (makeSigner_ne_frontier hge)
  | homestead =>
    exact ⟨False, fun signature input => by
      simp only [Signer.input, TxData.withSignature, homesteadInput_eq_ok h, Unprotected, false_and,
        or_false]⟩
  | _ c =>
    obtain rfl : c = chainId := by
      unfold makeSigner at hsigner
      split_ifs at hsigner
      all_goals simp_all
    refine ⟨True, fun signature input => ?_⟩
    simp only [Signer.input, hmodern]
    simp only [TxData.withSignature, eip155Input_eq_ok h, Unprotected, ProtectedFor, true_and]

theorem sender_of_input (h : signer.input keccak256 tx = .ok input) :
    signer.sender keccak256 recover tx =
      recover input >>= fun publicKey => publicToAddress keccak256 publicKey := by
  rw [Signer.sender, h, ok_bind]

theorem recover_of_flipped (law : RecoveryLaw recover) (h : Flipped input input') :
    recover input' = recover input := by
  obtain ⟨hhash, hrecovery, r, s, hr, hr', hs, hs', hsignature, hsignature'⟩ := h
  obtain ⟨msgHash, compact, recovery⟩ := input
  obtain ⟨msgHash', compact', recovery'⟩ := input'
  dsimp only at hhash hrecovery hsignature hsignature'
  subst hhash hrecovery hsignature hsignature'
  exact law.flip _ r s recovery hr hr' hs hs'

theorem reencodes_of_input (law : RecoveryLaw recover)
    (haccepted : signer.sender keccak256 recover (tx.withSignature signature) = .ok sender)
    (h : signer.input keccak256 (tx.withSignature signature) = .ok input)
    (h' : signer.input keccak256 (tx.withSignature signature') = .ok input')
    (hsame : SameSignature input input') :
    Reencodes keccak256 recover signer tx signature signature' := by
  refine ⟨input, input', h, h', hsame, sender, haccepted, ?_⟩
  rw [sender_of_input h] at haccepted
  rw [sender_of_input h', ← haccepted]
  rcases hsame with rfl | hflipped
  · rfl
  · rw [recover_of_flipped law hflipped]

theorem exists_input_of_sender
    (h : signer.sender keccak256 recover tx = .ok sender) :
    ∃ input, signer.input keccak256 tx = .ok input := by
  obtain ⟨input, hinput, -⟩ := bind_eq_ok.1 h
  exact ⟨input, hinput⟩

/-! ## Other encodings -/

theorem exists_reencoding (law : RecoveryLaw recover)
    (hge : spec.hardforkGte hardfork .homestead = true)
    (haccepted : (makeSigner spec hardfork chainId).sender keccak256 recover
      (tx.withSignature signature) = .ok sender) :
    Reencodes keccak256 recover (makeSigner spec hardfork chainId) tx signature
      { signature with r := signature.r + 2 ^ 256 } := by
  obtain ⟨input, hinput⟩ := exists_input_of_sender haccepted
  have hcompact : compactSignature (signature.r + 2 ^ 256) signature.s =
      compactSignature signature.r signature.s :=
    compactSignature_eq_iff.2 ⟨Nat.add_mod_right _ _, rfl⟩
  refine reencodes_of_input law haccepted hinput ?_ (.inl rfl)
  by_cases h : tx.type = .legacy
  · obtain ⟨knowsChain, htakes⟩ := input_legacy keccak256 chainId h hge
    rw [htakes] at hinput ⊢
    rwa [hcompact]
  · obtain ⟨supported, c, htakes⟩ := input_typed keccak256 (makeSigner spec hardfork chainId) h
    rw [htakes] at hinput ⊢
    rwa [hcompact]

theorem reencodes_flip (law : RecoveryLaw recover) (h : tx.type ≠ .legacy)
    (hvalid : signature.Valid)
    (haccepted : signer.sender keccak256 recover (tx.withSignature signature) = .ok sender) :
    ∃ signature' ≠ signature, signature'.Fits ∧
      Reencodes keccak256 recover signer tx signature signature' := by
  obtain ⟨input, hinput⟩ := exists_input_of_sender haccepted
  obtain ⟨supported, c, htakes⟩ := input_typed keccak256 signer h
  obtain ⟨hsupported, hv, msgHash, hhash, rfl⟩ := (htakes _ _).1 hinput
  refine ⟨⟨1 - signature.v, signature.r, SECP256K1_ORDER - signature.s⟩, ?_, ⟨hvalid.fits.1, ?_⟩,
    reencodes_of_input law haccepted hinput
      ((htakes _ _).2 ⟨hsupported, by dsimp only; omega, msgHash, hhash, rfl⟩) (.inr ?_)⟩
  · intro heq
    have hv' := congrArg SignatureValues.v heq
    dsimp only at hv'
    omega
  · have := order_lt
    dsimp only
    omega
  · refine ⟨rfl, ?_, signature.r, signature.s, hvalid.r_pos, hvalid.r_lt, hvalid.s_pos,
      hvalid.s_lt, rfl, rfl⟩
    rcases hv with hv | hv <;> simp [hv]

/-- **A legacy transaction without a chain** has another `v`, and one for a chain whose
two signing hashes are the same. -/
theorem reencodes_unprotected (law : RecoveryLaw recover) (h : tx.type = .legacy)
    (hge : spec.hardforkGte hardfork .homestead = true) (hvalid : signature.Valid)
    (hv : signature.v < 37 ∨ signingHash keccak256 tx 0 = signingHash keccak256 tx chainId)
    (haccepted : (makeSigner spec hardfork chainId).sender keccak256 recover
      (tx.withSignature signature) = .ok sender) :
    ∃ signature' ≠ signature, signature'.Fits ∧
      Reencodes keccak256 recover (makeSigner spec hardfork chainId) tx signature signature' := by
  obtain ⟨input, hinput⟩ := exists_input_of_sender haccepted
  obtain ⟨knowsChain, htakes⟩ := input_legacy keccak256 chainId h hge
  -- `v` is replaced, by another of the same parity without a chain
  have hreplace : ∀ v, v ≠ signature.v → Unprotected v →
      (∃ msgHash, signingHash keccak256 tx 0 = .ok msgHash ∧
        input = ⟨msgHash, compactSignature signature.r signature.s, v = 1 ∨ v = 28⟩) →
      ∃ signature' ≠ signature, signature'.Fits ∧
        Reencodes keccak256 recover (makeSigner spec hardfork chainId) tx signature signature' := by
    intro v hne hunprotected hhash
    refine ⟨{ signature with v := v }, fun heq => hne (congrArg SignatureValues.v heq), hvalid.fits,
      reencodes_of_input law haccepted hinput ((htakes _ _).2 ⟨((htakes _ _).1 hinput).1,
        .inl ⟨hunprotected, hhash⟩⟩) (.inl rfl)⟩
  obtain ⟨hs, ⟨hunprotected, msgHash, hhash, rfl⟩ | ⟨hknows, hprotected, msgHash, hhash, rfl⟩⟩ :=
    (htakes _ _).1 hinput
  · rcases hunprotected with hv | hv | hv | hv
    · exact hreplace 27 (by omega) (by simp [Unprotected]) ⟨msgHash, hhash, by simp [hv]⟩
    · exact hreplace 28 (by omega) (by simp [Unprotected]) ⟨msgHash, hhash, by simp [hv]⟩
    · exact hreplace 0 (by omega) (by simp [Unprotected]) ⟨msgHash, hhash, by simp [hv]⟩
    · exact hreplace 1 (by omega) (by simp [Unprotected]) ⟨msgHash, hhash, by simp [hv]⟩
  · have hhash : signingHash keccak256 tx 0 = .ok msgHash := by
      rcases hv with hv | hv
      · obtain rfl : chainId = 0 := by
          rcases hprotected with hp | hp <;> omega
        exact hhash
      · rw [hv, hhash]
    rcases hprotected with hp | hp
    · refine hreplace 27 (by omega) (by simp [Unprotected]) ⟨msgHash, hhash, ?_⟩
      rw [hp]
      simp
    · refine hreplace 28 (by omega) (by simp [Unprotected]) ⟨msgHash, hhash, ?_⟩
      rw [hp]
      simp

theorem eq_of_reencodes (h : tx.type = .legacy)
    (hge : spec.hardforkGte hardfork .homestead = true) (hfits : signature.Fits)
    (hfits' : signature'.Fits) (hv : 37 ≤ signature.v)
    (hhash : signingHash keccak256 tx 0 ≠ signingHash keccak256 tx chainId)
    (hre : Reencodes keccak256 recover (makeSigner spec hardfork chainId) tx signature signature') :
    signature' = signature := by
  obtain ⟨input, input', hinput, hinput', hsame, -⟩ := hre
  obtain ⟨knowsChain, htakes⟩ := input_legacy keccak256 chainId h hge
  obtain ⟨hs, ⟨hunprotected, -⟩ | ⟨-, hprotected, msgHash, hmsg, rfl⟩⟩ := (htakes _ _).1 hinput
  · rcases hunprotected with h | h | h | h <;> omega
  obtain ⟨hs', ⟨-, msgHash', hmsg', rfl⟩ | ⟨-, hprotected', msgHash', hmsg', rfl⟩⟩ :=
    (htakes _ _).1 hinput'
  · -- the other has no chain, and signs another hash
    have heq : msgHash' = msgHash := by
      rcases hsame with heq | ⟨heq, -⟩
      · exact congrArg CurveInput.msgHash heq
      · exact heq
    exact absurd (by rw [hmsg, hmsg', heq]) hhash
  rcases hsame with heq | ⟨-, -, r, s, hr, hr', hspos, hslt, hsignature, hsignature'⟩
  · obtain ⟨hr, hs⟩ := compactSignature_inj hfits'.1 hfits'.2 hfits.1 hfits.2
      (congrArg CurveInput.signature heq)
    have hrecovery : (signature'.v = 36 + 2 * chainId) ↔ (signature.v = 36 + 2 * chainId) := by
      simpa using congrArg CurveInput.recovery heq
    have hv' : signature'.v = signature.v := by
      rcases hprotected with hp | hp <;> rcases hprotected' with hp' | hp' <;> omega
    cases signature
    cases signature'
    simp_all
  · -- one of `s` and `n - s` is high
    have hn := order_lt
    obtain ⟨-, hs₁⟩ := compactSignature_inj hfits.1 hfits.2 (hr'.trans hn) (hslt.trans hn) hsignature
    obtain ⟨-, hs₂⟩ := compactSignature_inj hfits'.1 hfits'.2 (hr'.trans hn) (by omega) hsignature'
    simp only [SECP256K1_ORDER_DIV_2, SECP256K1_ORDER] at hs hs' hs₂ hslt
    omega

/-- **How many encodings a signature has.** Whatever is accepted from Homestead on has
another encoding, with a longer `r`; among the values that fit in 32 bytes it is the only
one just when the transaction is a legacy one, with `v` for a chain, whose hash with
the chain is not that without. -/
theorem encodings_of_signature (law : RecoveryLaw recover)
    (hge : spec.hardforkGte hardfork .homestead = true) (hvalid : signature.Valid)
    (haccepted : (makeSigner spec hardfork chainId).sender keccak256 recover
      (tx.withSignature signature) = .ok sender) :
    (¬ ∀ signature', Reencodes keccak256 recover (makeSigner spec hardfork chainId) tx signature
        signature' → signature' = signature) ∧
      ((∀ signature', signature'.Fits → Reencodes keccak256 recover
          (makeSigner spec hardfork chainId) tx signature signature' → signature' = signature) ↔
        tx.type = .legacy ∧ 37 ≤ signature.v ∧
          signingHash keccak256 tx 0 ≠ signingHash keccak256 tx chainId) := by
  refine ⟨fun hunique => ?_, fun hunique => ?_, ?_⟩
  · have hr := congrArg SignatureValues.r (hunique _ (exists_reencoding law hge haccepted))
    dsimp only at hr
    omega
  · have hother : ¬ ∃ signature' ≠ signature, signature'.Fits ∧
        Reencodes keccak256 recover (makeSigner spec hardfork chainId) tx signature signature' := by
      rintro ⟨signature', hne, hfits, hre⟩
      exact hne (hunique signature' hfits hre)
    have htype : tx.type = .legacy := by
      by_contra htype
      exact hother (reencodes_flip law htype hvalid haccepted)
    refine ⟨htype, ?_, ?_⟩
    · by_contra hv
      exact hother (reencodes_unprotected law htype hge hvalid (.inl (by omega)) haccepted)
    · intro hhash
      exact hother (reencodes_unprotected law htype hge hvalid (.inr hhash) haccepted)
  · rintro ⟨htype, hv, hhash⟩ signature' hfits hre
    exact eq_of_reencodes htype hge hvalid.fits hfits hv hhash hre

/-! ## A signed transaction -/

/-- A public key. -/
def samplePublicKey : Bytes :=
  [0x4b, 0xc2, 0xa3, 0x12, 0x65, 0x15, 0x3f, 0x07, 0xe7, 0x0e, 0x0b, 0xab, 0x08, 0x72, 0x4e,
    0x6b, 0x85, 0xe2, 0x17, 0xf8, 0xcd, 0x62, 0x8c, 0xeb, 0x62, 0x97, 0x42, 0x47, 0xbb, 0x49,
    0x33, 0x82, 0xce, 0x28, 0xca, 0xb7, 0x9a, 0xd7, 0x11, 0x9e, 0xe1, 0xad, 0x3e, 0xbc, 0xdb,
    0x98, 0xa1, 0x68, 0x05, 0x21, 0x15, 0x30, 0xec, 0xc6, 0xcf, 0xef, 0xa1, 0xb8, 0x8e, 0x6d,
    0xff, 0x99, 0x23, 0x2a]

/-- Its hash, with the address in it. -/
def sampleKeyHash : Bytes32 := ⟨
  [0x9c, 0xea, 0xd8, 0x0a, 0x9d, 0x0a, 0x09, 0x51, 0xcd, 0xbf, 0x96, 0x6b, 0x9d, 0x8a, 0x62,
    0xf6, 0x56, 0xa8, 0xd1, 0x61, 0x5c, 0x12, 0x94, 0xfd, 0x71, 0xe9, 0xcf, 0xb3, 0xe4, 0x85,
    0x5a, 0x4f],
  by decide⟩

/-- The hash `sampleTransaction` is signed by. -/
def sampleMsgHash : Bytes32 := ⟨
  [0x43, 0x73, 0xef, 0xc1, 0xc8, 0x66, 0x99, 0x72, 0xa8, 0x02, 0xbe, 0x7f, 0x64, 0x0c, 0xd0,
    0xc0, 0xa1, 0x5b, 0xc1, 0x14, 0x95, 0x81, 0x9b, 0x84, 0xcd, 0xac, 0xa4, 0xea, 0x67, 0x2f,
    0xe5, 0x53],
  by decide⟩

/-- `keccak256` of these two. -/
def sampleKeccak (b : Bytes) : Bytes32 :=
  if b = samplePublicKey then sampleKeyHash else sampleMsgHash

/-- A fee market transaction of 1 wei. -/
def sampleTransaction : TxData :=
  .dynamicFee
    { chainId := 1
      nonce := 0
      maxPriorityFeePerGas := 1
      maxFeePerGas := 2
      gasLimit := 21000
      to_ := some (repeated 0x35)
      value := 1
      data := .bytes []
      accessList := .list []
      v := none
      r := none
      s := none }

/-- The key's signature of it. -/
def sampleSignature : SignatureValues where
  v := 0
  r := 10836421853841784190316887081386582682525740506210692426696285846461008161353
  s := 34937588562821953270495635297098677189537626569370598461960257185996619416984

/-- The curve, on this signature and flipped. -/
def sampleCurve : Curve := fun _ => .ok samplePublicKey

theorem sampleCurve_law : RecoveryLaw sampleCurve := ⟨fun _ _ _ _ _ _ _ _ => rfl⟩

theorem sampleSignature_valid : sampleSignature.Valid := by
  constructor <;> decide

theorem sample_accepted :
    (makeSigner .all .london 1).sender sampleKeccak sampleCurve
      (sampleTransaction.withSignature sampleSignature) =
        .ok ⟨sampleKeyHash.1.drop 12, by decide⟩ := by
  have hsigner : makeSigner .all .london 1 = .london 1 := by decide
  have htyped : sampleTransaction.type ≠ .legacy := by decide
  have hinput : (Signer.london 1).input sampleKeccak (sampleTransaction.withSignature sampleSignature) =
      .ok _ := (eip2930Input_eq_ok htyped).2 ⟨by decide, by decide, .inl rfl, _, rfl, rfl⟩
  rw [hsigner, sender_of_input hinput]
  rfl

/-- It is encoded in more ways than one. -/
theorem encodings_of_sample :
    (¬ ∀ signature', Reencodes sampleKeccak sampleCurve (makeSigner .all .london 1)
        sampleTransaction sampleSignature signature' → signature' = sampleSignature) ∧
      ((∀ signature', signature'.Fits → Reencodes sampleKeccak sampleCurve
          (makeSigner .all .london 1) sampleTransaction sampleSignature signature' →
          signature' = sampleSignature) ↔
        sampleTransaction.type = .legacy ∧ 37 ≤ sampleSignature.v ∧
          signingHash sampleKeccak sampleTransaction 0 ≠
            signingHash sampleKeccak sampleTransaction 1) :=
  encodings_of_signature sampleCurve_law (by decide) sampleSignature_valid sample_accepted

/-- Its flipped form is accepted as well. -/
theorem sample_flipped_accepted :
    ¬ ∀ signature', signature'.Fits → Reencodes sampleKeccak sampleCurve
      (makeSigner .all .london 1) sampleTransaction sampleSignature signature' →
      signature' = sampleSignature := by
  intro hunique
  obtain ⟨signature', hne, hfits, hre⟩ :=
    reencodes_flip sampleCurve_law (by decide) sampleSignature_valid sample_accepted
  exact hne (hunique signature' hfits hre)

end Tx

end TsEthereum
