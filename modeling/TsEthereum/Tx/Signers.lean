import TsEthereum.Common.Padding
import TsEthereum.Evm.Hardfork
import TsEthereum.Tx.Data

/-!
# Signers

The signers of the `tx` package and `makeSigner`, which chooses one by hardfork,
on them `sender`. A signer checks a transaction and its signature values and hands
the curve a message hash, a signature of 64 bytes and a recovery bit
(`CurveInput`); what the curve recovers is a parameter, and `RecoveryLaw` is all
that is asked of it. So which signatures are accepted is read off the inputs
(`homesteadInput_eq_ok`, `eip155Input_eq_ok`, `eip2930Input_eq_ok`).
-/

namespace TsEthereum

namespace Tx

/-- What is thrown. -/
inductive SignerError where
  /-- 'Transaction type not supported by HomesteadSigner', and so on. -/
  | typeNotSupported
  /-- 'Invalid chain ID: have 2, want 1' -/
  | invalidChainId (have_ want : ℕ)
  /-- 'Invalid signature: transaction is not signed' -/
  | notSigned
  /-- 'Invalid signature: s-values greater than secp256k1n/2 are invalid' -/
  | highS
  /-- 'Invalid signature v value' -/
  | invalidV
  /-- What `sigHash` throws. -/
  | sigHash (error : TxError)
  /-- What the curve throws. -/
  | curve
  /-- 'Expected pubKey to be of length 64' -/
  | publicKeyLength
  deriving DecidableEq

def SECP256K1_ORDER : ℕ :=
  115792089237316195423570985008687907852837564279074904382605163141518161494337

def SECP256K1_ORDER_DIV_2 : ℕ := SECP256K1_ORDER / 2

/-! ## Recovery -/

/-- What `ecrecover` hands to the curve. -/
structure CurveInput where
  msgHash : Bytes32
  signature : Bytes
  /-- The recovery bit is 1. -/
  recovery : Bool
  deriving DecidableEq

/-- `concatBytes(setLengthLeft(r, 32), setLengthLeft(s, 32))`. -/
def compactSignature (r s : ℕ) : Bytes :=
  setLengthLeft (bigEndian r) 32 ++ setLengthLeft (bigEndian s) 32

/-- **`calculateSigRecovery`.** -/
def calculateSigRecovery (v : ℕ) (chainId : Option ℕ) : ℤ :=
  if v = 0 ∨ v = 1 then v
  else
    match chainId with
    | none => v - 27
    | some chainId => v - (chainId * 2 + 35)

def isValidSigRecovery (recovery : ℤ) : Bool := recovery = 0 ∨ recovery = 1

/-- **`ecrecover`**, up to the curve. -/
def ecrecoverInput (msgHash : Bytes32) (v r s : ℕ) (chainId : Option ℕ) :
    Except SignerError CurveInput :=
  let recovery := calculateSigRecovery v chainId
  if isValidSigRecovery recovery = false then .error .invalidV
  else .ok ⟨msgHash, compactSignature r s, recovery = 1⟩

/-- The public key a curve recovers, without its first byte. -/
abbrev Curve : Type := CurveInput → Except SignerError Bytes

/-- **What is asked of a curve**: the other parity with `n - s` for `s` is a signature by
the same key. -/
structure RecoveryLaw (recover : Curve) : Prop where
  flip : ∀ msgHash r s recovery, 0 < r → r < SECP256K1_ORDER → 0 < s → s < SECP256K1_ORDER →
    recover ⟨msgHash, compactSignature r (SECP256K1_ORDER - s), !recovery⟩ =
      recover ⟨msgHash, compactSignature r s, recovery⟩

/-- `publicToAddress(publicKey, false)`. -/
def publicToAddress (keccak256 : Bytes → Bytes32) (publicKey : Bytes) :
    Except SignerError Bytes20 :=
  if publicKey.length ≠ 64 then .error .publicKeyLength
  else .ok ⟨(keccak256 publicKey).1.drop 12, by rw [List.length_drop, (keccak256 publicKey).2]⟩

/-! ## The signers -/

/-- The three values of a signature, which have to be there. -/
def signatureValues (tx : TxData) : Except SignerError (ℕ × ℕ × ℕ) :=
  match tx.rawSignatureValues with
  | (some v, some r, some s) => .ok (v, r, s)
  | _ => .error .notSigned

/-- `sigHash`, as the signers call it. -/
def signingHash (keccak256 : Bytes → Bytes32) (tx : TxData) (chainId : ℕ) :
    Except SignerError Bytes32 :=
  (tx.sigHash keccak256 chainId).mapError .sigHash

section

variable (keccak256 : Bytes → Bytes32)

/-- `FrontierSigner.sender`, up to the curve: `recoverPlain` refuses a `v` below 27. -/
def frontierInput (tx : TxData) : Except SignerError CurveInput :=
  if tx.type ≠ .legacy then .error .typeNotSupported
  else do
    let (v, r, s) ← signatureValues tx
    let sigHash ← signingHash keccak256 tx 0
    if v < 27 then .error .invalidV
    else ecrecoverInput sigHash v r s none

/-- **`HomesteadSigner.sender`**, up to the curve. -/
def homesteadInput (tx : TxData) : Except SignerError CurveInput :=
  if tx.type ≠ .legacy then .error .typeNotSupported
  else do
    let (v, r, s) ← signatureValues tx
    if s > SECP256K1_ORDER_DIV_2 then .error .highS
    else do
      let sigHash ← signingHash keccak256 tx 0
      ecrecoverInput sigHash v r s none

/-- **`EIP155Signer.sender`**, up to the curve. -/
def eip155Input (chainId : ℕ) (tx : TxData) : Except SignerError CurveInput :=
  if tx.type ≠ .legacy then .error .typeNotSupported
  else if tx.isProtected = false then homesteadInput keccak256 tx
  else if tx.chainID ≠ chainId then .error (.invalidChainId tx.chainID chainId)
  else do
    let (v, r, s) ← signatureValues tx
    if s > SECP256K1_ORDER_DIV_2 then .error .highS
    else do
      let sigHash ← signingHash keccak256 tx chainId
      ecrecoverInput sigHash v r s (some chainId)

/-- **`EIP2930Signer.sender`**, up to the curve, of the types a signer supports. -/
def eip2930Input (supportsType : TransactionType → Bool) (chainId : ℕ) (tx : TxData) :
    Except SignerError CurveInput :=
  if tx.type = .legacy then eip155Input keccak256 chainId tx
  else if supportsType tx.type = false then .error .typeNotSupported
  else if tx.chainID ≠ chainId then .error (.invalidChainId tx.chainID chainId)
  else do
    let (v, r, s) ← signatureValues tx
    let adjustedV := v + 27
    let sigHash ← signingHash keccak256 tx chainId
    ecrecoverInput sigHash adjustedV r s none

end

/-- `EIP2930Signer.supportsType`. -/
def eip2930SupportsType (type : TransactionType) : Bool :=
  type = .legacy ∨ type = .accessListEIP2930

/-- `LondonSigner.supportsType`. -/
def londonSupportsType (type : TransactionType) : Bool :=
  eip2930SupportsType type || type = .feeMarketEIP1559

/-- `CancunSigner.supportsType`. -/
def cancunSupportsType (type : TransactionType) : Bool :=
  londonSupportsType type || type = .blobEIP4844

/-- `PragueSigner.supportsType`. -/
def pragueSupportsType (type : TransactionType) : Bool :=
  cancunSupportsType type || type = .eoaCodeEIP7702

/-- A `Signer`. -/
inductive Signer where
  | frontier
  | homestead
  | eip155 (chainId : ℕ)
  | eip2930 (chainId : ℕ)
  | london (chainId : ℕ)
  | cancun (chainId : ℕ)
  | prague (chainId : ℕ)
  deriving DecidableEq

/-- **`makeSigner`**, at a hardfork. -/
def makeSigner (spec : ChainSpec) (hardfork : Hardfork) (chainId : ℕ) : Signer :=
  if spec.hardforkGte hardfork .prague then .prague chainId
  else if spec.hardforkGte hardfork .cancun then .cancun chainId
  else if spec.hardforkGte hardfork .london then .london chainId
  else if spec.hardforkGte hardfork .berlin then .eip2930 chainId
  else if spec.hardforkGte hardfork .spuriousDragon then .eip155 chainId
  else if spec.hardforkGte hardfork .homestead then .homestead
  else .frontier

/-- A signer's `sender`, up to the curve. -/
def Signer.input (keccak256 : Bytes → Bytes32) : Signer → TxData → Except SignerError CurveInput
  | .frontier => frontierInput keccak256
  | .homestead => homesteadInput keccak256
  | .eip155 chainId => eip155Input keccak256 chainId
  | .eip2930 chainId => eip2930Input keccak256 eip2930SupportsType chainId
  | .london chainId => eip2930Input keccak256 londonSupportsType chainId
  | .cancun chainId => eip2930Input keccak256 cancunSupportsType chainId
  | .prague chainId => eip2930Input keccak256 pragueSupportsType chainId

/-- **`sender`.** -/
def Signer.sender (keccak256 : Bytes → Bytes32) (recover : Curve) (signer : Signer) (tx : TxData) :
    Except SignerError Bytes20 := do
  let input ← signer.input keccak256 tx
  let publicKey ← recover input
  publicToAddress keccak256 publicKey

/-! ## What is accepted -/

variable {keccak256 : Bytes → Bytes32} {tx : TxData} {input : CurveInput} {v r s chainId : ℕ}

theorem makeSigner_ne_frontier {spec : ChainSpec} {hardfork : Hardfork}
    (h : spec.hardforkGte hardfork .homestead = true) :
    makeSigner spec hardfork chainId ≠ .frontier := by
  unfold makeSigner
  split_ifs <;> simp_all

@[simp] theorem type_setSignatureValues : (tx.setSignatureValues v r s).type = tx.type := by
  cases tx <;> rfl

@[simp] theorem signatureValues_setSignatureValues :
    signatureValues (tx.setSignatureValues v r s) = .ok (v, r, s) := by
  cases tx <;> rfl

@[simp] theorem sigHash_setSignatureValues :
    (tx.setSignatureValues v r s).sigHash keccak256 chainId = tx.sigHash keccak256 chainId := by
  cases tx <;> rfl

@[simp] theorem signingHash_setSignatureValues :
    signingHash keccak256 (tx.setSignatureValues v r s) chainId = signingHash keccak256 tx chainId := by
  rw [signingHash, signingHash, sigHash_setSignatureValues]

theorem chainID_setSignatureValues (h : tx.type ≠ .legacy) :
    (tx.setSignatureValues v r s).chainID = tx.chainID := by
  cases tx with
  | legacy tx => exact absurd rfl h
  | _ => rfl

theorem isProtected_setSignatureValues (h : tx.type = .legacy) :
    (tx.setSignatureValues v r s).isProtected = true ↔ v ≠ 27 ∧ v ≠ 28 ∧ v ≠ 1 ∧ v ≠ 0 := by
  cases tx with
  | legacy tx => simp [TxData.setSignatureValues, TxData.isProtected]
  | _ => cases h

theorem chainID_legacy (h : tx.type = .legacy) :
    (tx.setSignatureValues v r s).chainID = if v ≥ 37 then (v - 35) / 2 else 0 := by
  cases tx with
  | legacy tx => rfl
  | _ => cases h

theorem calculateSigRecovery_none :
    calculateSigRecovery v none = if v = 0 ∨ v = 1 then (v : ℤ) else v - 27 := rfl

theorem calculateSigRecovery_some :
    calculateSigRecovery v (some chainId) =
      if v = 0 ∨ v = 1 then (v : ℤ) else v - (chainId * 2 + 35) := rfl

theorem ecrecoverInput_eq_ok {msgHash : Bytes32} {chainId : Option ℕ} :
    ecrecoverInput msgHash v r s chainId = .ok input ↔
      (calculateSigRecovery v chainId = 0 ∨ calculateSigRecovery v chainId = 1) ∧
        input = ⟨msgHash, compactSignature r s, calculateSigRecovery v chainId = 1⟩ := by
  rw [ecrecoverInput, ite_error_eq_ok, Bool.not_eq_false, isValidSigRecovery, decide_eq_true_eq,
    Except.ok.injEq, eq_comm (a := input)]

theorem ecrecoverInput_none {msgHash : Bytes32} :
    ecrecoverInput msgHash v r s none = .ok input ↔
      (v = 0 ∨ v = 1 ∨ v = 27 ∨ v = 28) ∧
        input = ⟨msgHash, compactSignature r s, v = 1 ∨ v = 28⟩ := by
  have hvalid : (calculateSigRecovery v none = 0 ∨ calculateSigRecovery v none = 1) ↔
      v = 0 ∨ v = 1 ∨ v = 27 ∨ v = 28 := by
    rw [calculateSigRecovery_none]
    split_ifs <;> omega
  have hone : calculateSigRecovery v none = 1 ↔ v = 1 ∨ v = 28 := by
    rw [calculateSigRecovery_none]
    split_ifs <;> omega
  rw [ecrecoverInput_eq_ok, hvalid]
  simp only [hone]

theorem ecrecoverInput_some {msgHash : Bytes32} (hv : v ≠ 0 ∧ v ≠ 1) :
    ecrecoverInput msgHash v r s (some chainId) = .ok input ↔
      (v = 35 + 2 * chainId ∨ v = 36 + 2 * chainId) ∧
        input = ⟨msgHash, compactSignature r s, v = 36 + 2 * chainId⟩ := by
  have hvalid : (calculateSigRecovery v (some chainId) = 0 ∨
      calculateSigRecovery v (some chainId) = 1) ↔ v = 35 + 2 * chainId ∨ v = 36 + 2 * chainId := by
    rw [calculateSigRecovery_some, if_neg (by omega)]
    omega
  have hone : calculateSigRecovery v (some chainId) = 1 ↔ v = 36 + 2 * chainId := by
    rw [calculateSigRecovery_some, if_neg (by omega)]
    omega
  rw [ecrecoverInput_eq_ok, hvalid]
  simp only [hone]

theorem homesteadInput_eq_ok (h : tx.type = .legacy) :
    homesteadInput keccak256 (tx.setSignatureValues v r s) = .ok input ↔
      s ≤ SECP256K1_ORDER_DIV_2 ∧ (v = 0 ∨ v = 1 ∨ v = 27 ∨ v = 28) ∧
        ∃ msgHash, signingHash keccak256 tx 0 = .ok msgHash ∧
          input = ⟨msgHash, compactSignature r s, v = 1 ∨ v = 28⟩ := by
  simp only [homesteadInput, type_setSignatureValues, h, ne_eq, not_true_eq_false, if_false,
    signatureValues_setSignatureValues, ok_bind, ite_error_eq_ok, signingHash_setSignatureValues,
    bind_eq_ok, ecrecoverInput_none, not_lt]
  constructor
  · rintro ⟨hs, msgHash, hhash, hv, rfl⟩
    exact ⟨hs, hv, msgHash, hhash, rfl⟩
  · rintro ⟨hs, hv, msgHash, hhash, rfl⟩
    exact ⟨hs, msgHash, hhash, hv, rfl⟩

theorem eip155Input_eq_ok (h : tx.type = .legacy) :
    eip155Input keccak256 chainId (tx.setSignatureValues v r s) = .ok input ↔
      s ≤ SECP256K1_ORDER_DIV_2 ∧
        (((v = 0 ∨ v = 1 ∨ v = 27 ∨ v = 28) ∧
          ∃ msgHash, signingHash keccak256 tx 0 = .ok msgHash ∧
            input = ⟨msgHash, compactSignature r s, v = 1 ∨ v = 28⟩) ∨
        ((v = 35 + 2 * chainId ∨ v = 36 + 2 * chainId) ∧
          ∃ msgHash, signingHash keccak256 tx chainId = .ok msgHash ∧
            input = ⟨msgHash, compactSignature r s, v = 36 + 2 * chainId⟩)) := by
  by_cases hv : v ≠ 27 ∧ v ≠ 28 ∧ v ≠ 1 ∧ v ≠ 0
  · have hprotected := (isProtected_setSignatureValues (r := r) (s := s) h).2 hv
    have hnone : ¬ (v = 0 ∨ v = 1 ∨ v = 27 ∨ v = 28) := by omega
    simp only [eip155Input, type_setSignatureValues, h, ne_eq, not_true_eq_false, if_false,
      hprotected, Bool.true_eq_false, ite_error_eq_ok, signatureValues_setSignatureValues, ok_bind,
      signingHash_setSignatureValues, bind_eq_ok, ecrecoverInput_some ⟨hv.2.2.2, hv.2.2.1⟩, hnone,
      false_and, false_or, not_lt, not_not, chainID_legacy h]
    constructor
    · rintro ⟨-, hs, msgHash, hhash, hv, rfl⟩
      exact ⟨hs, hv, msgHash, hhash, rfl⟩
    · rintro ⟨hs, hv, msgHash, hhash, rfl⟩
      -- the chain ID read off `v` is the signer's
      exact ⟨by split_ifs <;> omega, hs, msgHash, hhash, hv, rfl⟩
  · have hprotected : (tx.setSignatureValues v r s).isProtected = false := by
      rw [← Bool.not_eq_true, isProtected_setSignatureValues h]
      exact hv
    have hnone : ¬ (v = 35 + 2 * chainId ∨ v = 36 + 2 * chainId) := by omega
    simp only [eip155Input, type_setSignatureValues, h, ne_eq, not_true_eq_false, if_false,
      hprotected, if_true, homesteadInput_eq_ok h, hnone, false_and, or_false]

/-- **`EIP2930Signer`** looks at neither of them: of a typed transaction it takes 0 and 1
for `v`, and any `s`. -/
theorem eip2930Input_eq_ok {supportsType : TransactionType → Bool} (h : tx.type ≠ .legacy) :
    eip2930Input keccak256 supportsType chainId (tx.setSignatureValues v r s) = .ok input ↔
      supportsType tx.type = true ∧ tx.chainID = chainId ∧ (v = 0 ∨ v = 1) ∧
        ∃ msgHash, signingHash keccak256 tx chainId = .ok msgHash ∧
          input = ⟨msgHash, compactSignature r s, v = 1⟩ := by
  simp only [eip2930Input, type_setSignatureValues, h, if_false, ite_error_eq_ok, Bool.not_eq_false,
    ne_eq, not_not, chainID_setSignatureValues h, signatureValues_setSignatureValues, ok_bind,
    signingHash_setSignatureValues, bind_eq_ok, ecrecoverInput_none]
  have hv : (v + 27 = 0 ∨ v + 27 = 1 ∨ v + 27 = 27 ∨ v + 27 = 28) ↔ v = 0 ∨ v = 1 := by omega
  have hone : (v + 27 = 1 ∨ v + 27 = 28) ↔ v = 1 := by omega
  simp only [hv, hone]
  constructor
  · rintro ⟨htype, hchain, msgHash, hhash, hv, rfl⟩
    exact ⟨htype, hchain, hv, msgHash, hhash, rfl⟩
  · rintro ⟨htype, hchain, hv, msgHash, hhash, rfl⟩
    exact ⟨htype, hchain, msgHash, hhash, hv, rfl⟩

end Tx

end TsEthereum
