import TsEthereum.Rlpx.Crypto

/-!
# Frames

`MAC` (`mac.ts`), the cipher of a direction, and what is written with both: a header
of 32 bytes with the size of a body, and the body, in whole blocks, with its tag.
A direction has one cipher and one MAC at each end (`Half`); whoever reads a frame
with the cipher and the MAC it was written with gets what was written, and both
ends go on from the same ones (`parseHeader_createHeader`, `parseBody_createBody`).
-/

namespace TsEthereum

namespace Rlpx

/-- **`MAC`**: its secret, and what was hashed so far. -/
structure MAC where
  secret : Bytes
  hash : Bytes
  deriving DecidableEq

namespace MAC

variable (C : Crypto)

/-- `new MAC`. -/
def new (secret : Bytes) : MAC := ⟨secret, []⟩

def update (mac : MAC) (data : Bytes) : MAC := { mac with hash := mac.hash ++ data }

def digest (mac : MAC) : Bytes := (C.keccak256 mac.hash).take 16

/-- **`updateHeader`.** -/
def updateHeader (mac : MAC) (data : Bytes) : MAC :=
  mac.update (xor (C.aes256Ecb mac.secret (mac.digest C)) data)

/-- **`updateBody`.** -/
def updateBody (mac : MAC) (data : Bytes) : MAC :=
  let mac := mac.update data
  let prev := mac.digest C
  mac.update (xor (C.aes256Ecb mac.secret prev) prev)

end MAC

/-- A cipher in counter mode, and how far it is. -/
structure Decipher where
  key : Bytes
  iv : Bytes
  offset : ℕ
  deriving DecidableEq

def Decipher.update (C : Crypto) (aes : Decipher) (data : Bytes) : Bytes × Decipher :=
  (applyStream (C.aes256Ctr aes.key aes.iv) aes.offset data,
    { aes with offset := aes.offset + data.length })

/-- **One end of a direction.** -/
structure Half where
  aes : Decipher
  mac : MAC
  deriving DecidableEq

section

variable (C : Crypto)

/-! ## The two ends of a session -/

/-- The four ciphers and MACs. -/
structure Session where
  ingress : Half
  egress : Half
  deriving DecidableEq

/-- **`setupFrame`**, where what it needs is there: `_setupFrame` of `ECIES`, and `setupFrame`. -/
def setupFrame (remoteData nonce remoteNonce initMsg ephemeralSharedSecret : Bytes)
    (incoming : Bool) : Session :=
  let nonceMaterial := if incoming then nonce ++ remoteNonce else remoteNonce ++ nonce
  let hNonce := C.keccak256 nonceMaterial
  let iv := List.replicate 16 0
  let sharedSecret := C.keccak256 (ephemeralSharedSecret ++ hNonce)
  let aesSecret := C.keccak256 (ephemeralSharedSecret ++ sharedSecret)
  let macSecret := C.keccak256 (ephemeralSharedSecret ++ aesSecret)
  { ingress := ⟨⟨aesSecret, iv, 0⟩, (MAC.new macSecret).update (xor macSecret nonce ++ remoteData)⟩
    egress := ⟨⟨aesSecret, iv, 0⟩, (MAC.new macSecret).update (xor macSecret remoteNonce ++ initMsg)⟩ }

/-! ## Writing and reading -/

/-- **`createBlockHeader`**, `createHeader`. -/
def createHeader (size : ℕ) (half : Half) : Bytes × Half :=
  let bufSize := zfill (intToBytes size) 3 true
  let headerData := Rlp.encode (.list [.bytes [], .bytes []])
  let header := zfill (bufSize ++ headerData) 16 false
  let (header, aes) := half.aes.update C header
  let mac := half.mac.updateHeader C header
  (header ++ mac.digest C, ⟨aes, mac⟩)

/-- **`parseHeader`.** -/
def parseHeader (data : Bytes) (half : Half) : Except String (ℕ × Half) := do
  let header := data.take 16
  let tag := (data.take 32).drop 16
  let mac := half.mac.updateHeader C header
  assertBytesEq (mac.digest C) tag "Invalid MAC"
  let (header, aes) := half.aes.update C header
  .ok (bytesToInt (header.take 3), ⟨aes, mac⟩)

/-- **`createBody`.** -/
def createBody (data : Bytes) (half : Half) : Bytes × Half :=
  let data := zfill data ((data.length + 15) / 16 * 16) false
  let (encryptedData, aes) := half.aes.update C data
  let mac := half.mac.updateBody C encryptedData
  (encryptedData ++ mac.digest C, ⟨aes, mac⟩)

/-- **`parseBody`.** -/
def parseBody (data : Bytes) (size : ℕ) (half : Half) : Except String (Bytes × Half) := do
  let body := data.take (data.length - 16)
  let tag := data.drop (data.length - 16)
  let mac := half.mac.updateBody C body
  assertBytesEq (mac.digest C) tag "Invalid MAC"
  let (body, aes) := half.aes.update C body
  .ok (body.take size, ⟨aes, mac⟩)

/-- **A frame**: the header and the body of a message. -/
def createFrame (data : Bytes) (half : Half) : (Bytes × Bytes) × Half :=
  let (header, half) := createHeader C data.length half
  let (body, half) := createBody C data half
  ((header, body), half)

/-- A frame is read. -/
def parseFrame (frame : Bytes × Bytes) (half : Half) : Except String (Bytes × Half) := do
  let (size, half) ← parseHeader C frame.1 half
  parseBody C frame.2 size half

variable {C}

theorem length_zfill (bytes : Bytes) (size : ℕ) (leftpad : Bool) :
    (zfill bytes size leftpad).length = max bytes.length size := by
  rw [zfill]
  split
  · rename_i h
    rw [Nat.max_eq_left h]
  · rename_i h
    cases leftpad
    · simp only [Bool.false_eq_true, if_false, List.length_append, List.length_replicate]
      omega
    · simp only [if_true, List.length_append, List.length_replicate]
      omega

theorem take_zfill (bytes : Bytes) (size : ℕ) :
    (zfill bytes size false).take bytes.length = bytes := by
  rw [zfill]
  split
  · exact List.take_length
  · exact List.take_left

theorem length_intToBytes_le {n k : ℕ} (hk : 0 < k) (h : n < 256 ^ k) :
    (intToBytes n).length ≤ k := by
  rw [intToBytes, Blockchain.bigIntToBytes]
  split
  · exact hk
  · exact length_bigEndian_le h

theorem bytesToInt_intToBytes (n : ℕ) : bytesToInt (intToBytes n) = n :=
  Blockchain.ofBigEndian_bigIntToBytes n

theorem bytesToInt_zfill {n : ℕ} (h : n < 2 ^ 24) :
    (zfill (intToBytes n) 3 true).length = 3 ∧ bytesToInt (zfill (intToBytes n) 3 true) = n := by
  have hle := length_intToBytes_le (k := 3) (by omega) (show n < 256 ^ 3 by omega)
  refine ⟨by rw [length_zfill, Nat.max_eq_right hle], ?_⟩
  rw [zfill]
  split
  · exact bytesToInt_intToBytes n
  · rw [if_pos rfl, bytesToInt, ofBigEndian_replicate_append]
    exact bytesToInt_intToBytes n

theorem Crypto.Correct.length_digest (h : C.Correct) (mac : MAC) : (mac.digest C).length = 16 := by
  rw [MAC.digest, List.length_take, h.length_keccak256]
  rfl

theorem Crypto.Correct.parseHeader_createHeader (h : C.Correct) {size : ℕ} (hsize : size < 2 ^ 24)
    (half : Half) : parseHeader C (createHeader C size half).1 half =
      .ok (size, (createHeader C size half).2) := by
  obtain ⟨hlength, hvalue⟩ := bytesToInt_zfill hsize
  have hdata : (Rlp.encode (.list [.bytes [], .bytes []])).length = 3 := by decide
  generalize hplain : zfill (zfill (intToBytes size) 3 true ++
    Rlp.encode (.list [.bytes [], .bytes []])) 16 false = plain
  have hplainLength : plain.length = 16 := by
    rw [← hplain, length_zfill, List.length_append]
    omega
  have htake : plain.take 3 = zfill (intToBytes size) 3 true := by
    have hshort := take_zfill (zfill (intToBytes size) 3 true ++
      Rlp.encode (.list [.bytes [], .bytes []])) 16
    rw [hplain, List.length_append, hlength, hdata] at hshort
    have htwice : plain.take 3 = (plain.take (3 + 3)).take 3 := by
      rw [List.take_take]
      rfl
    rw [htwice, hshort, List.take_left' hlength]
  generalize hcipher : applyStream (C.aes256Ctr half.aes.key half.aes.iv) half.aes.offset plain =
    cipher
  have hcipherLength : cipher.length = 16 := by rw [← hcipher, length_applyStream, hplainLength]
  have htag := h.length_digest (half.mac.updateHeader C cipher)
  have hcreate : createHeader C size half = (cipher ++ (half.mac.updateHeader C cipher).digest C,
      ⟨{ half.aes with offset := half.aes.offset + 16 }, half.mac.updateHeader C cipher⟩) := by
    simp only [createHeader, Decipher.update, hplain, hcipher, hplainLength]
  rw [hcreate]
  have hwhole : (cipher ++ (half.mac.updateHeader C cipher).digest C).take 32 =
      cipher ++ (half.mac.updateHeader C cipher).digest C :=
    List.take_of_length_le (by rw [List.length_append]; omega)
  simp only [parseHeader, List.take_left' hcipherLength, hwhole, List.drop_left' hcipherLength,
    assertBytesEq_self, ok_bind, Decipher.update, hcipherLength]
  rw [← hcipher, applyStream_applyStream, htake, hvalue]

theorem Crypto.Correct.parseBody_createBody (h : C.Correct) (data : Bytes) (half : Half) :
    parseBody C (createBody C data half).1 data.length half =
      .ok (data, (createBody C data half).2) := by
  generalize hplain : zfill data ((data.length + 15) / 16 * 16) false = plain
  have htake : plain.take data.length = data := by rw [← hplain, take_zfill]
  generalize hcipher : applyStream (C.aes256Ctr half.aes.key half.aes.iv) half.aes.offset plain =
    cipher
  have hcipherLength : cipher.length = plain.length := by rw [← hcipher, length_applyStream]
  have htag := h.length_digest (half.mac.updateBody C cipher)
  have hcreate : createBody C data half = (cipher ++ (half.mac.updateBody C cipher).digest C,
      ⟨{ half.aes with offset := half.aes.offset + plain.length }, half.mac.updateBody C cipher⟩) := by
    simp only [createBody, Decipher.update, hplain, hcipher]
  rw [hcreate]
  have hsize : (cipher ++ (half.mac.updateBody C cipher).digest C).length - 16 = cipher.length := by
    rw [List.length_append]
    omega
  simp only [parseBody, hsize, List.take_left', List.drop_left', assertBytesEq_self, ok_bind,
    Decipher.update, hcipherLength]
  rw [← hcipher, applyStream_applyStream, htake]

theorem Crypto.Correct.parseFrame_createFrame (h : C.Correct) {data : Bytes}
    (hdata : data.length < 2 ^ 24) (half : Half) :
    parseFrame C (createFrame C data half).1 half = .ok (data, (createFrame C data half).2) := by
  rw [parseFrame, createFrame]
  dsimp only
  rw [h.parseHeader_createHeader hdata half, ok_bind]
  exact h.parseBody_createBody data _

end

end Rlpx

end TsEthereum
