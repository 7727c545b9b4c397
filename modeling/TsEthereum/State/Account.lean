import TsEthereum.Rlp.RoundTrip

/-!
# Accounts

The `Account` of the `utils` package and its RLP. The size and version of its
code are left out: `serialize` does not write them, so an account that is read
back has the defaults.
-/

namespace TsEthereum

/-- The bytes of an `Address`. -/
abbrev Bytes20 : Type := {b : Bytes // b.length = 20}

/-- An address of one byte, repeated. -/
def repeated (byte : UInt8) : Bytes20 := ⟨List.replicate 20 byte, List.length_replicate⟩

/-- What a hash is: 32 bytes. -/
abbrev Bytes32 : Type := {b : Bytes // b.length = 32}

def KECCAK256_NULL : Bytes32 :=
  ⟨[0xc5, 0xd2, 0x46, 0x01, 0x86, 0xf7, 0x23, 0x3c, 0x92, 0x7e, 0x7d, 0xb2, 0xdc, 0xc7, 0x03, 0xc0,
    0xe5, 0x00, 0xb6, 0x53, 0xca, 0x82, 0x27, 0x3b, 0x7b, 0xfa, 0xd8, 0x04, 0x5d, 0x85, 0xa4, 0x70],
    rfl⟩

/-- `KECCAK256_RLP`, the root of an empty trie. -/
def KECCAK256_RLP : Bytes32 :=
  ⟨[0x56, 0xe8, 0x1f, 0x17, 0x1b, 0xcc, 0x55, 0xa6, 0xff, 0x83, 0x45, 0xe6, 0x92, 0xc0, 0xf8, 0x6e,
    0x5b, 0x48, 0xe0, 0x1b, 0x99, 0x6c, 0xad, 0xc0, 0x01, 0x62, 0x2f, 0xb5, 0xe3, 0x63, 0xb4, 0x21],
    rfl⟩

/-- **An account.** Its numbers fit an array. -/
structure Account where
  nonce : ℕ
  balance : ℕ
  storageRoot : Bytes32
  codeHash : Bytes32
  length_lt : (bigEndian nonce).length + (bigEndian balance).length < 2 ^ 52

namespace Account

/-- `new Account()`. -/
def new : Account := ⟨0, 0, KECCAK256_RLP, KECCAK256_NULL, by decide⟩

variable (account : Account)

def raw : List NestedUint8Array :=
  [.bytes (bigEndian account.nonce), .bytes (bigEndian account.balance),
    .bytes account.storageRoot.1, .bytes account.codeHash.1]

/-- **`serialize`.** -/
def serialize : Bytes := Rlp.encode (.list account.raw)

def isContract : Bool := account.codeHash ≠ KECCAK256_NULL

end Account

/-- `createAccountFromBytesArray`; `none` where the constructor throws. -/
def createAccountFromBytesArray (nonce balance storageRoot codeHash : Bytes) : Option Account :=
  if h : storageRoot.length = 32 ∧ codeHash.length = 32 ∧
      (bigEndian (ofBigEndian nonce)).length + (bigEndian (ofBigEndian balance)).length < 2 ^ 52 then
    some ⟨ofBigEndian nonce, ofBigEndian balance, ⟨storageRoot, h.1⟩, ⟨codeHash, h.2.1⟩, h.2.2⟩
  else none

/-- **`createAccountFromRLP`**; `none` where it throws. A root or a hash that is
left out is the default of the constructor. -/
def createAccountFromRLP (serialized : Bytes) : Option Account :=
  match Rlp.decode serialized false with
  | .ok (.data (.list [.bytes nonce, .bytes balance])) =>
    createAccountFromBytesArray nonce balance KECCAK256_RLP.1 KECCAK256_NULL.1
  | .ok (.data (.list [.bytes nonce, .bytes balance, .bytes storageRoot])) =>
    createAccountFromBytesArray nonce balance storageRoot KECCAK256_NULL.1
  | .ok (.data (.list (.bytes nonce :: .bytes balance :: .bytes storageRoot ::
      .bytes codeHash :: _))) =>
    createAccountFromBytesArray nonce balance storageRoot codeHash
  | _ => none

namespace Account

theorem length_encodeLength_le (len offset : ℕ) (h : len < 256 ^ 8) (hoff : offset + 63 < 256) :
    (Rlp.encodeLength len offset).length ≤ 9 := by
  rcases Nat.lt_or_ge len 56 with hshort | hlong
  · rw [Rlp.encodeLength_short hshort]
    exact Nat.le_add_left ..
  · have hle := length_bigEndian_le h
    rw [Rlp.encodeLength_long hlong h hoff, List.length_cons]
    omega

theorem length_encodeBytes_le {b : Bytes} (h : b.length < 256 ^ 8) :
    (Rlp.encodeBytes b).length ≤ 9 + b.length := by
  have hlength := length_encodeLength_le _ 128 h (by omega)
  unfold Rlp.encodeBytes
  split
  · split
    · omega
    · rw [List.length_append]
      omega
  · rw [List.length_append]
    omega

theorem length_serialize_lt (account : Account) : account.serialize.length < 256 ^ 8 := by
  have hlt := account.length_lt
  have hroot := account.storageRoot.2
  have hhash := account.codeHash.2
  have h₁ := length_encodeBytes_le (b := bigEndian account.nonce) (by omega)
  have h₂ := length_encodeBytes_le (b := bigEndian account.balance) (by omega)
  have h₃ := length_encodeBytes_le (b := account.storageRoot.1) (by omega)
  have h₄ := length_encodeBytes_le (b := account.codeHash.1) (by omega)
  have hall : (Rlp.encodeAll account.raw).length < 2 ^ 52 + 200 := by
    simp only [raw, Rlp.encodeAll, Rlp.encode, List.length_append, List.length_nil]
    omega
  have hprefix := length_encodeLength_le (Rlp.encodeAll account.raw).length 192 (by omega)
    (by omega)
  rw [serialize, Rlp.encode, List.length_append]
  omega

@[simp] theorem createAccountFromRLP_serialize (account : Account) :
    createAccountFromRLP account.serialize = some account := by
  have hlt := account.length_lt
  unfold createAccountFromRLP
  rw [serialize, Rlp.decode_encode account.length_serialize_lt]
  simp only [raw, createAccountFromBytesArray, ofBigEndian_bigEndian]
  rw [dif_pos ⟨account.storageRoot.2, account.codeHash.2, hlt⟩]

end Account

end TsEthereum
