import TsEthereum.Rlpx.Frames

/-!
# The messages of the handshake

Auth and ack, as `ecies.ts` makes and reads them, and the functions of `utils/auth.ts`
and `utils/ack.ts`, each in two forms: an RLP list with padding behind it and a size
before it (EIP-8), and fields of fixed width. In the second form `ecies.ts` does not
pad the numbers of the signature, so the receiver has the right length of it only
where both take all their 32 bytes (`FullWidth`).
-/

namespace TsEthereum

namespace Rlpx

open Blockchain (bigIntToBytes)

def subarray (bytes : Bytes) (start stop : ℕ) : Bytes := (bytes.take stop).drop start

/-- The texts in which both implementations of the handshake differ. -/
structure Texts where
  header : String
  ephemeralHash : String
  authLength : ℕ → ℕ → String
  ackLength : ℕ → ℕ → String

/-- What is read from an auth message. -/
structure AuthResult where
  remoteInitMsg : Bytes
  remotePublicKey : Bytes
  remoteNonce : Bytes
  ephemeralSharedSecret : Bytes
  remoteEphemeralPublicKey : Bytes
  deriving DecidableEq

/-- What is read from an ack message. -/
structure AckResult where
  remoteEphemeralPublicKey : Bytes
  remoteNonce : Bytes
  ephemeralSharedSecret : Bytes
  deriving DecidableEq

/-- The padding of a message: 100 to 250 bytes. -/
abbrev Pad : Type := {pad : Bytes // 100 ≤ pad.length ∧ pad.length ≤ 250}

section

variable (C : Crypto)

/-! ## Auth -/

/-- **`createAuthEIP8`.** -/
def createAuthEIP8 (own : Seal C) (pad : Pad) (remotePubKey : Bytes) (privateKey : C.PrivateKey)
    (nonce : Bytes) (ephemeralPrivateKey : C.PrivateKey) (publicKey : Bytes) :
    Except String Bytes := do
  let x ← C.ecdhX remotePubKey privateKey
  let sig := C.ecsign (xor x nonce) ephemeralPrivateKey
  let data : NestedUint8Array := .list [
    .bytes (setLengthLeft (bigIntToBytes sig.r) 32 ++ setLengthLeft (bigIntToBytes sig.s) 32 ++
      [UInt8.ofNat sig.recovery]),
    .bytes (pk2id publicKey), .bytes nonce, .bytes [4]]
  let authMsg := Rlp.encode data ++ pad.1
  let sharedMacData := intToBytes (authMsg.length + 113)
  let encryptedMsg ← encryptMessage C own authMsg remotePubKey (some sharedMacData)
  .ok (sharedMacData ++ encryptedMsg)

/-- **`createAuthNonEIP8`** of `ECIES`. -/
def createAuthNonEIP8 (own : Seal C) (remotePubKey : Bytes) (privateKey : C.PrivateKey)
    (nonce : Bytes) (ephemeralPrivateKey : C.PrivateKey) (ephemeralPublicKey publicKey : Bytes) :
    Except String Bytes := do
  let x ← C.ecdhX remotePubKey privateKey
  let sig := C.ecsign (xor x nonce) ephemeralPrivateKey
  let data := bigIntToBytes sig.r ++ bigIntToBytes sig.s ++ [UInt8.ofNat sig.recovery] ++
    C.keccak256 (pk2id ephemeralPublicKey) ++ pk2id publicKey ++ nonce ++ [0]
  encryptMessage C own data remotePubKey none

/-- The fields of an auth message: signature, recovery id, hash of the ephemeral key where there
is one, public key and nonce. -/
structure AuthFields where
  signature : Bytes
  recoveryId : ℕ
  heId : Option Bytes
  remotePublicKey : Bytes
  remoteNonce : Bytes

/-- A byte of a field. -/
def byteAt (bytes : Bytes) (index : ℕ) : Except String ℕ :=
  match bytes[index]? with
  | some byte => .ok byte.toNat
  | none => .error typeError

/-- The fields at their places. -/
def plainAuthFields (decrypted : Bytes) : Except String AuthFields := do
  assertNumberEq decrypted.length 194 "invalid packet length"
  let recoveryId ← byteAt decrypted 64
  .ok { signature := subarray decrypted 0 64, recoveryId := recoveryId
        heId := some (subarray decrypted 65 97)
        remotePublicKey := id2pk (subarray decrypted 97 161)
        remoteNonce := subarray decrypted 161 193 }

/-- The fields of the list. -/
def listAuthFields (decrypted : Bytes) : Except String AuthFields := do
  let decoded ← unstrictDecode decrypted
  let signature ← field decoded 0
  let recoveryId ← byteAt signature 64
  let id ← field decoded 1
  let remoteNonce ← field decoded 2
  .ok { signature := subarray signature 0 64, recoveryId := recoveryId, heId := none
        remotePublicKey := id2pk id, remoteNonce := remoteNonce }

/-- The fields, in either form. -/
def readAuthFields (gotEIP8Auth : Bool) (decrypted : Bytes) : Except String AuthFields :=
  if gotEIP8Auth then listAuthFields decrypted else plainAuthFields decrypted

/-- The check of the ephemeral key, where the message has its hash. -/
def checkEphemeral (heId : Option Bytes) (remoteEphemeralPublicKey : Bytes) (msg : String) :
    Except String Unit :=
  match heId with
  | none => .ok ()
  | some heId => assertBytesEq (C.keccak256 (pk2id remoteEphemeralPublicKey)) heId msg

/-- **`parseAuthPlain`.** -/
def parseAuthPlain (texts : Texts) (data : Bytes) (privateKey ephemeralPrivateKey : C.PrivateKey)
    (gotEIP8Auth : Bool) (sharedMacData : Option Bytes) : Except String AuthResult := do
  let remoteInitMsg := sharedMacData.getD [] ++ data
  let decrypted ← decryptMessage C texts.header data privateKey sharedMacData
  let fields ← readAuthFields gotEIP8Auth decrypted
  let x ← C.ecdhX fields.remotePublicKey privateKey
  let remoteEphemeralPublicKey ←
    C.ecdsaRecover fields.signature fields.recoveryId (xor x fields.remoteNonce)
  let ephemeralSharedSecret ← C.ecdhX remoteEphemeralPublicKey ephemeralPrivateKey
  checkEphemeral C fields.heId remoteEphemeralPublicKey texts.ephemeralHash
  .ok ⟨remoteInitMsg, fields.remotePublicKey, fields.remoteNonce, ephemeralSharedSecret,
    remoteEphemeralPublicKey⟩

/-- **`parseAuthEIP8`.** -/
def parseAuthEIP8 (texts : Texts) (data : Bytes) (privateKey ephemeralPrivateKey : C.PrivateKey)
    (gotEIP8Auth : Bool) : Except String AuthResult := do
  let size := bytesToInt (data.take 2) + 2
  assertNumberEq data.length size (texts.authLength size data.length)
  parseAuthPlain C texts (data.drop 2) privateKey ephemeralPrivateKey gotEIP8Auth
    (some (data.take 2))

/-! ## Ack -/

/-- **`createAckEIP8`.** -/
def createAckEIP8 (own : Seal C) (pad : Pad) (ephemeralPublicKey remotePublicKey nonce : Bytes) :
    Except String Bytes := do
  let data : NestedUint8Array := .list [.bytes (pk2id ephemeralPublicKey), .bytes nonce, .bytes [4]]
  let ackMsg := Rlp.encode data ++ pad.1
  let sharedMacData := intToBytes (ackMsg.length + 113)
  let encryptedMsg ← encryptMessage C own ackMsg remotePublicKey (some sharedMacData)
  .ok (sharedMacData ++ encryptedMsg)

/-- **`createAckOld`.** -/
def createAckOld (own : Seal C) (ephemeralPublicKey remotePublicKey nonce : Bytes) :
    Except String Bytes :=
  encryptMessage C own (pk2id ephemeralPublicKey ++ nonce ++ [0]) remotePublicKey none

/-- The fields at their places. -/
def plainAckFields (decrypted : Bytes) : Except String (Bytes × Bytes) := do
  assertNumberEq decrypted.length 97 "invalid packet length"
  let postfix_ ← byteAt decrypted 96
  assertNumberEq postfix_ 0 "invalid postfix"
  .ok (id2pk (subarray decrypted 0 64), subarray decrypted 64 96)

/-- The fields of the list. -/
def listAckFields (decrypted : Bytes) : Except String (Bytes × Bytes) := do
  let decoded ← unstrictDecode decrypted
  let id ← field decoded 0
  let remoteNonce ← field decoded 1
  .ok (id2pk id, remoteNonce)

/-- The fields, in either form. -/
def readAckFields (gotEIP8Ack : Bool) (decrypted : Bytes) : Except String (Bytes × Bytes) :=
  if gotEIP8Ack then listAckFields decrypted else plainAckFields decrypted

/-- **`parseAckPlain`.** -/
def parseAckPlain (texts : Texts) (data : Bytes) (privateKey ephemeralPrivateKey : C.PrivateKey)
    (gotEIP8Ack : Bool) (sharedMacData : Option Bytes) : Except String AckResult := do
  let decrypted ← decryptMessage C texts.header data privateKey sharedMacData
  let fields ← readAckFields gotEIP8Ack decrypted
  let ephemeralSharedSecret ← C.ecdhX fields.1 ephemeralPrivateKey
  .ok ⟨fields.1, fields.2, ephemeralSharedSecret⟩

/-- **`parseAckEIP8`.** -/
def parseAckEIP8 (texts : Texts) (data : Bytes) (privateKey ephemeralPrivateKey : C.PrivateKey)
    (gotEIP8Ack : Bool) : Except String AckResult := do
  let size := bytesToInt (data.take 2) + 2
  assertNumberEq data.length size (texts.ackLength size data.length)
  parseAckPlain C texts (data.drop 2) privateKey ephemeralPrivateKey gotEIP8Ack (some (data.take 2))

end

end Rlpx

end TsEthereum
