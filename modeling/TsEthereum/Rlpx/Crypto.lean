import TsEthereum.Blockchain.Chain
import TsEthereum.Blockchain.Keys
import TsEthereum.Common.KeyStream
import TsEthereum.Common.Padding
import TsEthereum.Rlp.RoundTrip

/-!
# What the handshake is made of

The primitives under `ecies.ts` and `eccies-encrypter.ts`: key agreement and
signatures over secp256k1, the hashes, AES in counter mode as its key stream, and one block of it.
`Crypto.Correct` is what is taken from them. On these stand the messages of the
handshake, which are sealed for a public key (`encryptMessage`) and opened with
the private one (`decryptMessage_encryptMessage`).
-/

namespace TsEthereum

namespace Rlpx

open Blockchain (bytesToHex bigIntToBytes)

/-- A signature, as `secp256k1.sign` returns it. -/
structure Signature where
  r : ℕ
  s : ℕ
  recovery : ℕ

/-- **The primitives.** A counter mode is the stream of bytes for a key and an initial vector;
`ecdhX` and `ecdsaRecover` throw at what is no point or no signature. -/
structure Crypto where
  PrivateKey : Type
  getPublicKey : PrivateKey → Bytes
  ecdhX : Bytes → PrivateKey → Except String Bytes
  ecsign : Bytes → PrivateKey → Signature
  ecdsaRecover : Bytes → ℕ → Bytes → Except String Bytes
  keccak256 : Bytes → Bytes
  sha256 : Bytes → Bytes
  hmacSha256 : Bytes → Bytes → Bytes
  aes128Ctr : Bytes → Bytes → ℕ → UInt8
  aes256Ctr : Bytes → Bytes → ℕ → UInt8
  aes256Ecb : Bytes → Bytes → Bytes

/-- **What is taken from them**: public keys are written in 65 bytes, the first of which is 4;
both sides of a key agreement get the same; a signature is of two numbers below `2 ^ 256`, and
the key it was made with is recovered from it; hashes have 32 bytes. -/
structure Crypto.Correct (C : Crypto) : Prop where
  length_getPublicKey : ∀ key, (C.getPublicKey key).length = 65
  head_getPublicKey : ∀ key, (C.getPublicKey key).take 1 = [4]
  exists_ecdhX : ∀ a b, ∃ x, C.ecdhX (C.getPublicKey a) b = .ok x ∧
    C.ecdhX (C.getPublicKey b) a = .ok x
  r_lt : ∀ hash key, (C.ecsign hash key).r < 2 ^ 256
  s_lt : ∀ hash key, (C.ecsign hash key).s < 2 ^ 256
  recovery_lt : ∀ hash key, (C.ecsign hash key).recovery < 4
  ecdsaRecover_ecsign : ∀ hash key, C.ecdsaRecover
    (setLengthLeft (bigIntToBytes (C.ecsign hash key).r) 32 ++
      setLengthLeft (bigIntToBytes (C.ecsign hash key).s) 32)
    (C.ecsign hash key).recovery hash = .ok (C.getPublicKey key)
  length_keccak256 : ∀ data, (C.keccak256 data).length = 32
  length_hmacSha256 : ∀ key data, (C.hmacSha256 key data).length = 32

/-! ## Bytes -/

/-- `pk2id`, of a public key in its long form. -/
def pk2id (pk : Bytes) : Bytes := pk.drop 1

def id2pk (id : Bytes) : Bytes := 4 :: id

/-- `intToBytes`: the digits in base 16, two in a byte. -/
def intToBytes (i : ℕ) : Bytes := bigIntToBytes i

def bytesToInt (bytes : Bytes) : ℕ := ofBigEndian bytes

def zfill (bytes : Bytes) (size : ℕ) (leftpad : Bool) : Bytes :=
  if size ≤ bytes.length then bytes
  else
    let pad := List.replicate (size - bytes.length) 0
    if leftpad then pad ++ bytes else bytes ++ pad

/-- `assertEq`, of byte strings. -/
def assertBytesEq (expected actual : Bytes) (msg : String) : Except String Unit :=
  if expected = actual then .ok ()
  else .error (msg ++ ": " ++ bytesToHex expected ++ " / " ++ bytesToHex actual)

/-- `assertEq`, of numbers. -/
def assertNumberEq (expected actual : ℕ) (msg : String) : Except String Unit :=
  if expected = actual then .ok ()
  else .error (msg ++ ": " ++ toString expected ++ " / " ++ toString actual)

/-- What the engine throws at a field that is missing, or not bytes. -/
def typeError : String := "TypeError"

/-- `unstrictDecode`: the item, whatever follows it. -/
def unstrictDecode (value : Bytes) : Except String NestedUint8Array :=
  match Rlp.decode value true with
  | .ok (.stream decoded) => .ok decoded.data
  | .ok (.data _) => .error typeError
  | .error e => .error e.message

/-- A field of a decoded list, that is to be bytes. -/
def field (decoded : NestedUint8Array) (index : ℕ) : Except String Bytes :=
  match decoded with
  | .bytes _ => .error typeError
  | .list xs =>
    match xs[index]? with
    | some (.bytes b) => .ok b
    | _ => .error typeError

theorem assertBytesEq_self (b : Bytes) (msg : String) : assertBytesEq b b msg = .ok () := if_pos rfl

theorem assertNumberEq_self (n : ℕ) (msg : String) : assertNumberEq n n msg = .ok () := if_pos rfl

theorem unstrictDecode_encode {x : NestedUint8Array} (hx : (Rlp.encode x).length < 256 ^ 8)
    (rest : Bytes) : unstrictDecode (Rlp.encode x ++ rest) = .ok x := by
  rw [unstrictDecode, Rlp.decode_stream_encode hx rest]

/-! ## Sealed messages -/

section

variable (C : Crypto)

/-- `concatKDF`: the first bytes of the hashes of the key material behind a counter. -/
def concatKDF (keyMaterial : Bytes) (keyLength : ℕ) : Bytes :=
  let reps := (keyLength + 7) / 64
  ((List.range (reps + 1)).flatMap fun counter =>
    C.sha256 (setLengthLeft (bigEndian (counter + 1)) 4 ++ keyMaterial)).take keyLength

/-- What `_encryptMessage` draws: a key of its own, and the initial vector. -/
structure Seal where
  privateKey : C.PrivateKey
  iv : Bytes
  length_iv : iv.length = 16

/-- **`_encryptMessage`** of `ECIES`, `eccieEncryptMessage`. -/
def encryptMessage (own : Seal C) (data remotePublicKey : Bytes) (sharedMacData : Option Bytes) :
    Except String Bytes := do
  let x ← C.ecdhX remotePublicKey own.privateKey
  let key := concatKDF C x 32
  let ekey := key.take 16
  let mKey := C.sha256 ((key.take 32).drop 16)
  let encryptedData := applyStream (C.aes128Ctr ekey own.iv) 0 data
  let dataIV := own.iv ++ encryptedData
  let tag := C.hmacSha256 mKey (dataIV ++ sharedMacData.getD [])
  .ok (C.getPublicKey own.privateKey ++ dataIV ++ tag)

/-- **`_decryptMessage`** of `ECIES`, `decryptMessage`, which differ in the text for a wrong
header. -/
def decryptMessage (header : String) (data : Bytes) (privateKey : C.PrivateKey)
    (sharedMacData : Option Bytes) : Except String Bytes := do
  assertBytesEq (data.take 1) [4] header
  let publicKey := data.take 65
  let dataIV := (data.take (data.length - 32)).drop 65
  let tag := data.drop (data.length - 32)
  let x ← C.ecdhX publicKey privateKey
  let key := concatKDF C x 32
  let ekey := key.take 16
  let mKey := C.sha256 ((key.take 32).drop 16)
  assertBytesEq (C.hmacSha256 mKey (dataIV ++ sharedMacData.getD [])) tag "should have valid tag"
  let iv := dataIV.take 16
  let encryptedData := dataIV.drop 16
  .ok (applyStream (C.aes128Ctr ekey iv) 0 encryptedData)

variable {C}

theorem Crypto.Correct.exists_encryptMessage (h : C.Correct) (own : Seal C) (data : Bytes)
    (receiver : C.PrivateKey) (sharedMacData : Option Bytes) (header : String) :
    ∃ message, encryptMessage C own data (C.getPublicKey receiver) sharedMacData = .ok message ∧
      message.length = data.length + 113 ∧ message.take 1 = [4] ∧
      decryptMessage C header message receiver sharedMacData = .ok data := by
  obtain ⟨x, hseal, hopen⟩ := h.exists_ecdhX receiver own.privateKey
  have hkey := h.length_getPublicKey own.privateKey
  have hhead := h.head_getPublicKey own.privateKey
  have hiv := own.length_iv
  generalize hcipher : applyStream (C.aes128Ctr ((concatKDF C x 32).take 16) own.iv) 0 data = cipher
  have hlength : cipher.length = data.length := by rw [← hcipher, length_applyStream]
  generalize htag : C.hmacSha256 (C.sha256 (((concatKDF C x 32).take 32).drop 16))
    (own.iv ++ cipher ++ sharedMacData.getD []) = tag
  have htagLength : tag.length = 32 := by rw [← htag, h.length_hmacSha256]
  refine ⟨C.getPublicKey own.privateKey ++ (own.iv ++ cipher) ++ tag, ?_, ?_, ?_, ?_⟩
  · simp only [encryptMessage, hseal, ok_bind, hcipher, htag]
  · simp only [List.length_append]
    omega
  · rw [List.append_assoc, List.take_append_of_le_length (by omega), hhead]
  · have hsize : (C.getPublicKey own.privateKey ++ (own.iv ++ cipher) ++ tag).length - 32 =
        (C.getPublicKey own.privateKey ++ (own.iv ++ cipher)).length := by
      rw [List.length_append]
      omega
    have htake : (C.getPublicKey own.privateKey ++ (own.iv ++ cipher) ++ tag).take 1 = [4] := by
      rw [List.append_assoc, List.take_append_of_le_length (by omega), hhead]
    have hpublic : (C.getPublicKey own.privateKey ++ (own.iv ++ cipher) ++ tag).take 65 =
        C.getPublicKey own.privateKey := by
      rw [List.append_assoc, List.take_left' hkey]
    have hbody : (C.getPublicKey own.privateKey ++ (own.iv ++ cipher)).drop 65 =
        own.iv ++ cipher := List.drop_left' hkey
    simp only [decryptMessage, htake, assertBytesEq_self, ok_bind, hpublic, hopen, hsize,
      List.take_left', List.drop_left', hbody, htag, List.take_left' hiv, List.drop_left' hiv]
    rw [← hcipher, applyStream_applyStream]

end

end Rlpx

end TsEthereum
