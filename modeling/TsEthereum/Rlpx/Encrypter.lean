import TsEthereum.Rlpx.Ecies

/-!
# `EcciesEncrypter`

The handshake of `eccies-encrypter.ts`, over sockets: each side collects chunks
until a message is there (`BufferAccumulator`), whose size it takes from the first
two bytes unless they begin an uncompressed key. The initiator sets up its frames
with the size of a list ack before the ack, which has its size in it already; and
what a chunk has behind the ack stays in the accumulator. So both sides agree and
nothing is lost only in the plain form, with an ack that ends a chunk
(`handshake_agrees_iff`).
-/

namespace TsEthereum

namespace Rlpx

open Blockchain (bigIntToBytes)

/-! ## Chunks -/

/-- **`BufferAccumulator`.** -/
structure BufferAccumulator where
  buffer : Bytes
  expectedSize : ℕ
  gotEIP8 : Bool
  deriving DecidableEq

namespace BufferAccumulator

/-- A new one. -/
def new (initialExpectedSize : ℕ) : BufferAccumulator := ⟨[], initialExpectedSize, false⟩

/-- The size is taken from the first bytes, once they are there. -/
def checkEIP8 (acc : BufferAccumulator) : BufferAccumulator :=
  if acc.gotEIP8 = false ∧ 2 ≤ acc.buffer.length ∧ acc.buffer.take 1 ≠ [4] then
    { acc with gotEIP8 := true, expectedSize := bytesToInt (acc.buffer.take 2) + 2 }
  else acc

/-- **`onData`**, with the packet if it is complete, and its form. -/
def onData (acc : BufferAccumulator) (chunk : Bytes) : BufferAccumulator × Option (Bytes × Bool) :=
  let acc := { acc with buffer := acc.buffer ++ chunk }.checkEIP8
  if acc.expectedSize ≤ acc.buffer.length then
    ({ acc with buffer := acc.buffer.drop acc.expectedSize },
      some (acc.buffer.take acc.expectedSize, acc.gotEIP8))
  else (acc, none)

/-- **Chunks arrive** until the packet is complete: no chunk after that is listened to. -/
def receive (acc : BufferAccumulator) :
    List Bytes → Option ((Bytes × Bool) × BufferAccumulator × List Bytes)
  | [] => none
  | chunk :: chunks =>
    match acc.onData chunk with
    | (acc, some packet) => some (packet, acc, chunks)
    | (acc, none) => acc.receive chunks

end BufferAccumulator

/-- **What follows a message comes in chunks of its own.** -/
def Separate (chunks : List Bytes) (extra : Bytes) : Prop :=
  ∃ pre rest, chunks = pre ++ rest ∧ rest.flatten = extra

/-- **A message an accumulator can tell**: in the list form it begins with its size, and in the
plain form it has the size that is expected. -/
structure Told (expectedSize : ℕ) (message : Bytes) (eip8 : Bool) : Prop where
  two_le_expected : 2 ≤ expectedSize
  two_le : 2 ≤ message.length
  list : eip8 = true → message.take 1 ≠ [4] ∧ bytesToInt (message.take 2) + 2 = message.length
  plain : eip8 = false → message.take 1 = [4] ∧ expectedSize = message.length

theorem told_list {expectedSize : ℕ} {message : Bytes} (hexpected : 2 ≤ expectedSize)
    (htwo : 2 ≤ message.length) (hfour : message.take 1 ≠ [4])
    (hsize : bytesToInt (message.take 2) + 2 = message.length) :
    Told expectedSize message true :=
  ⟨hexpected, htwo, fun _ => ⟨hfour, hsize⟩, fun hc => absurd hc.symm Bool.false_ne_true⟩

theorem told_plain {message : Bytes} (htwo : 2 ≤ message.length) (hfour : message.take 1 = [4]) :
    Told message.length message false :=
  ⟨htwo, htwo, fun hc => absurd hc Bool.false_ne_true, fun _ => ⟨hfour, rfl⟩⟩

namespace BufferAccumulator

variable {expectedSize : ℕ} {message extra chunk rest : Bytes} {eip8 : Bool}
  {acc : BufferAccumulator}

/-- **What an accumulator knows** of the message it collects: nothing before it has two bytes, and
its form and its size from then on. -/
def Knows (acc : BufferAccumulator) (expectedSize : ℕ) (message : Bytes) (eip8 : Bool) : Prop :=
  (acc.buffer.length < 2 ∧ acc.gotEIP8 = false ∧ acc.expectedSize = expectedSize) ∨
    (2 ≤ acc.buffer.length ∧ acc.gotEIP8 = eip8 ∧ acc.expectedSize = message.length)

theorem Knows.checkEIP8 (htold : Told expectedSize message eip8)
    (h : acc.Knows expectedSize message eip8)
    (hstream : acc.buffer ++ chunk ++ rest = message ++ extra) :
    ({ acc with buffer := acc.buffer ++ chunk }.checkEIP8).Knows expectedSize message eip8 ∧
      ({ acc with buffer := acc.buffer ++ chunk }.checkEIP8).buffer = acc.buffer ++ chunk := by
  have hlength : acc.buffer.length ≤ (acc.buffer ++ chunk).length := by
    rw [List.length_append]
    exact Nat.le_add_right _ _
  by_cases htwo : 2 ≤ (acc.buffer ++ chunk).length
  · -- the first two bytes there are those of the message
    have hfirst (n : ℕ) (hn : n ≤ 2) : (acc.buffer ++ chunk).take n = message.take n := by
      have hmany := htold.two_le
      have hleft : (acc.buffer ++ chunk ++ rest).take n = (acc.buffer ++ chunk).take n :=
        List.take_append_of_le_length (by omega)
      have hright : (message ++ extra).take n = message.take n :=
        List.take_append_of_le_length (by omega)
      rw [← hleft, hstream, hright]
    have hone := hfirst 1 (by omega)
    have hboth := hfirst 2 le_rfl
    rcases h with ⟨-, hgot, hexpected⟩ | ⟨-, hgot, hexpected⟩
    · cases eip8 with
      | true =>
        obtain ⟨hfour, hsize⟩ := htold.list rfl
        rw [BufferAccumulator.checkEIP8, if_pos ⟨hgot, htwo, by rw [hone]; exact hfour⟩]
        exact ⟨.inr ⟨htwo, rfl, by rw [hboth]; exact hsize⟩, rfl⟩
      | false =>
        obtain ⟨hfour, hsize⟩ := htold.plain rfl
        rw [BufferAccumulator.checkEIP8, if_neg (fun hc => hc.2.2 (hone.trans hfour))]
        exact ⟨.inr ⟨htwo, hgot, hexpected.trans hsize⟩, rfl⟩
    · have hkept : { acc with buffer := acc.buffer ++ chunk }.checkEIP8 =
          { acc with buffer := acc.buffer ++ chunk } := by
        rw [BufferAccumulator.checkEIP8, if_neg]
        rintro ⟨hfalse, -, hfour⟩
        cases eip8 with
        | true => exact Bool.noConfusion (hgot.symm.trans hfalse)
        | false => exact hfour (hone.trans (htold.plain rfl).1)
      rw [hkept]
      exact ⟨.inr ⟨htwo, hgot, hexpected⟩, rfl⟩
  · have hkept : { acc with buffer := acc.buffer ++ chunk }.checkEIP8 =
        { acc with buffer := acc.buffer ++ chunk } :=
      if_neg fun hc => htwo hc.2.1
    rw [hkept]
    rcases h with ⟨-, hgot, hexpected⟩ | ⟨hmany, -, -⟩
    · exact ⟨.inl ⟨Nat.not_le.1 htwo, hgot, hexpected⟩, rfl⟩
    · exact absurd (hmany.trans hlength) htwo

theorem exists_cons_of_lt {chunks : List Bytes} (hshort : acc.buffer.length < message.length) :
    (∃ pre rest, chunk :: chunks = pre ++ rest ∧ acc.buffer ++ pre.flatten = message) ↔
      ∃ pre rest, chunks = pre ++ rest ∧ acc.buffer ++ chunk ++ pre.flatten = message := by
  constructor
  · rintro ⟨pre, rest, hchunks, hpre⟩
    cases pre with
    | nil =>
      rw [← hpre, List.flatten_nil, List.append_nil] at hshort
      omega
    | cons first pre =>
      obtain ⟨rfl, hrest⟩ := List.cons.inj hchunks
      exact ⟨pre, rest, hrest, by rw [← hpre, List.flatten_cons, List.append_assoc]⟩
  · rintro ⟨pre, rest, rfl, hpre⟩
    exact ⟨chunk :: pre, rest, rfl, by rw [← hpre, List.flatten_cons, List.append_assoc]⟩

/-- **The message is received, however it is cut**; nothing stays in the accumulator exactly if the
message ends a chunk. -/
theorem Knows.receive (htold : Told expectedSize message eip8) {chunks : List Bytes}
    (h : acc.Knows expectedSize message eip8)
    (hshort : acc.buffer.length < message.length)
    (hstream : acc.buffer ++ chunks.flatten = message ++ extra) :
    ∃ acc' rest, acc.receive chunks = some ((message, eip8), acc', rest) ∧
      acc'.buffer ++ rest.flatten = extra ∧
      (acc'.buffer = [] ↔
        ∃ pre rest, chunks = pre ++ rest ∧ acc.buffer ++ pre.flatten = message) := by
  induction chunks generalizing acc with
  | nil =>
    rw [List.flatten_nil, List.append_nil] at hstream
    rw [hstream, List.length_append] at hshort
    omega
  | cons chunk chunks ih =>
    rw [exists_cons_of_lt hshort]
    rw [List.flatten_cons, ← List.append_assoc] at hstream
    obtain ⟨hknows, hbuffer⟩ := h.checkEIP8 htold hstream
    rw [BufferAccumulator.receive, onData]
    generalize { acc with buffer := acc.buffer ++ chunk }.checkEIP8 = next at hknows hbuffer
    rw [← hbuffer] at hstream ⊢
    by_cases hfull : message.length ≤ next.buffer.length
    · -- the chunk completes the message
      have htwo := htold.two_le
      obtain ⟨-, hgot, hexpected⟩ := hknows.resolve_left fun hfew => by omega
      have htake : next.buffer.take message.length = message := by
        have htake := congrArg (List.take message.length) hstream
        rwa [List.take_append_of_le_length hfull, List.take_left] at htake
      have hdrop : next.buffer.drop message.length ++ chunks.flatten = extra := by
        have hdrop := congrArg (List.drop message.length) hstream
        rwa [List.drop_append_of_le_length hfull, List.drop_left] at hdrop
      rw [if_pos (by rw [hexpected]; exact hfull), hexpected, htake, hgot]
      refine ⟨_, _, rfl, hdrop, List.drop_eq_nil_iff.trans ⟨fun hle => ?_, ?_⟩⟩
      · refine ⟨[], chunks, rfl, ?_⟩
        rw [List.flatten_nil, List.append_nil, ← htake, List.take_of_length_le hle]
      · rintro ⟨pre, rest, -, hpre⟩
        rw [← hpre, List.length_append]
        exact Nat.le_add_right _ _
    · have hwait : ¬ next.expectedSize ≤ next.buffer.length := by
        rcases hknows with ⟨hfew, -, hexpected⟩ | ⟨-, -, hexpected⟩
        · have htwo := htold.two_le_expected
          omega
        · rw [hexpected]
          exact hfull
      rw [if_neg hwait]
      exact ih hknows (by omega) hstream

/-- **A new accumulator receives the message**, and keeps what is behind it in its chunk. -/
theorem receive_new (htold : Told expectedSize message eip8) {chunks : List Bytes}
    (hstream : chunks.flatten = message ++ extra) :
    ∃ acc' rest, (new expectedSize).receive chunks = some ((message, eip8), acc', rest) ∧
      (rest.flatten = extra ↔ Separate chunks extra) := by
  have hknows : (new expectedSize).Knows expectedSize message eip8 :=
    .inl ⟨(by omega : 0 < 2), rfl, rfl⟩
  have hshort : (new expectedSize).buffer.length < message.length := by
    have htwo := htold.two_le
    exact (by omega : 0 < message.length)
  obtain ⟨acc', rest, hreceive, hextra, hempty⟩ := hknows.receive htold hshort hstream
  refine ⟨acc', rest, hreceive, ?_⟩
  have hkept : rest.flatten = extra ↔ acc'.buffer = [] := by
    rw [← hextra, List.self_eq_append_left]
  rw [hkept, hempty]
  constructor
  · rintro ⟨pre, suf, rfl, hpre⟩
    refine ⟨pre, suf, rfl, ?_⟩
    rw [List.flatten_append, show pre.flatten = message from hpre] at hstream
    exact List.append_cancel_left hstream
  · rintro ⟨pre, suf, rfl, rfl⟩
    refine ⟨pre, suf, rfl, ?_⟩
    rw [List.flatten_append] at hstream
    exact List.append_cancel_right hstream

end BufferAccumulator

/-! ## The functions under `utils` -/

/-- The texts of these functions. -/
def encrypterTexts : Texts where
  header := "wrong ecies header"
  ephemeralHash := "hash mismatch"
  authLength := fun size length =>
    "message length mismatch: expected " ++ toString size ++ ", got " ++ toString length
  ackLength := fun size length =>
    "message length mismatch: expected " ++ toString size ++ ", got " ++ toString length

namespace EcciesEncrypter

variable {C : Crypto}

/-- **`createAuthNonEIP8`**, where the numbers of the signature are padded. -/
def createAuthNonEIP8 (own : Seal C) (remotePubKey : Bytes) (privateKey : C.PrivateKey)
    (nonce : Bytes) (ephemeralPrivateKey : C.PrivateKey) (ephemeralPublicKey publicKey : Bytes) :
    Except String Bytes := do
  let x ← C.ecdhX remotePubKey privateKey
  let sig := C.ecsign (xor x nonce) ephemeralPrivateKey
  let data := setLengthLeft (bigIntToBytes sig.r) 32 ++ setLengthLeft (bigIntToBytes sig.s) 32 ++
    [UInt8.ofNat sig.recovery] ++ C.keccak256 (pk2id ephemeralPublicKey) ++ pk2id publicKey ++
    nonce ++ [0]
  encryptMessage C own data remotePubKey none

/-- **`parseAuthPlain`**: at an error there is no result. -/
def parseAuthPlain (data : Bytes) (privateKey ephemeralPrivateKey : C.PrivateKey)
    (gotEIP8Auth : Bool) (sharedMacData : Option Bytes) : Option AuthResult :=
  (Rlpx.parseAuthPlain C encrypterTexts data privateKey ephemeralPrivateKey gotEIP8Auth
    sharedMacData).toOption

/-- **`parseAuthEIP8`**: it throws at a wrong length only. -/
def parseAuthEIP8 (data : Bytes) (privateKey ephemeralPrivateKey : C.PrivateKey)
    (gotEIP8Auth : Bool) : Except String (Option AuthResult) := do
  let size := bytesToInt (data.take 2) + 2
  assertNumberEq data.length size (encrypterTexts.authLength size data.length)
  .ok (parseAuthPlain (data.drop 2) privateKey ephemeralPrivateKey gotEIP8Auth
    (some (data.take 2)))

theorem exists_auth (h : C.Correct) (own : Seal C) (a b : Party C) {secret : Bytes}
    (hsecret : C.ecdhX a.ephemeralPublicKey b.ephemeralPrivateKey = .ok secret) :
    ∃ auth, createAuthNonEIP8 own b.publicKey a.privateKey a.nonce a.ephemeralPrivateKey
        a.ephemeralPublicKey a.publicKey = .ok auth ∧ Told 307 auth false ∧
      parseAuthPlain auth b.privateKey b.ephemeralPrivateKey false none =
        some (authResult a auth secret) := by
  obtain ⟨x, hx, hx'⟩ := h.exists_ecdhX a.privateKey b.privateKey
  obtain ⟨auth, hseal, hlength, hfour, hopen⟩ := h.exists_encryptMessage own
    ((authSignature a x).bytes ++ [UInt8.ofNat (authSignature a x).recovery] ++
      C.keccak256 (pk2id a.ephemeralPublicKey) ++ pk2id a.publicKey ++ a.nonce ++ [0])
    b.privateKey none encrypterTexts.header
  have hwhole : auth.length = 307 := by
    simp only [List.length_append, Signature.length_bytes, List.length_singleton,
      h.length_keccak256, Party.publicKey, h.length_pk2id, a.length_nonce] at hlength
    omega
  refine ⟨auth, ?_, hwhole ▸ told_plain (by omega) hfour, ?_⟩
  · simp only [authSignature, Signature.bytes] at hseal
    simp only [createAuthNonEIP8, Party.publicKey, hx', ok_bind] at hseal ⊢
    exact hseal
  · have hread : Rlpx.parseAuthPlain C encrypterTexts auth b.privateKey b.ephemeralPrivateKey false
        none = .ok (authResult a auth secret) :=
      h.parseAuthPlain_of_fields encrypterTexts hopen (h.plainAuthFields_append a x)
        (fun hash hhash => (Option.some.inj hhash).symm) hx hsecret
    rw [parseAuthPlain, hread]
    rfl

theorem exists_authEIP8 (h : C.Correct) (own : Seal C) (pad : Pad) (a b : Party C) {secret : Bytes}
    (hsecret : C.ecdhX a.ephemeralPublicKey b.ephemeralPrivateKey = .ok secret) :
    ∃ auth, createAuthEIP8 C own pad b.publicKey a.privateKey a.nonce a.ephemeralPrivateKey
        a.publicKey = .ok auth ∧ Told 307 auth true ∧
      parseAuthEIP8 auth b.privateKey b.ephemeralPrivateKey true =
        .ok (some (authResult a auth secret)) := by
  obtain ⟨auth, hauth, hsize, hlength, hfour, hread⟩ :=
    h.exists_authEIP8 encrypterTexts own pad a b hsecret
  refine ⟨auth, hauth, told_list (by omega) (by omega) hfour hsize, ?_⟩
  rw [Rlpx.parseAuthEIP8] at hread
  obtain ⟨⟨⟩, hassert, hread⟩ := bind_eq_ok.1 hread
  rw [parseAuthEIP8, hassert, ok_bind, parseAuthPlain, hread]
  rfl

end EcciesEncrypter

/-! ## The encrypter -/

/-- **`EcciesEncrypter`.** Its ciphers and MACs are set up together, and stand here in pairs. -/
structure EcciesEncrypter (C : Crypto) where
  requireEip8 : Bool
  nonce : Bytes
  privateKey : C.PrivateKey
  publicKey : Bytes
  remotePublicKey : Option Bytes
  remoteNonce : Option Bytes
  remoteInitMsg : Option Bytes
  ephemeralPrivateKey : C.PrivateKey
  ephemeralPublicKey : Bytes
  ephemeralSharedSecret : Option Bytes
  remoteEphemeralPublicKey : Option Bytes
  ingress : Option Half
  egress : Option Half
  initMsg : Option Bytes
  buffer : Bytes

/-- **What `secureInBound` and `secureOutBound` resolve to**, with the encrypter, and the chunks
that are still to come from the socket. -/
structure Secured (C : Crypto) where
  encrypter : EcciesEncrypter C
  socket : List Bytes
  remotePeer : Bytes

namespace EcciesEncrypter

variable {C : Crypto}

/-- **`new EcciesEncrypter`**, with the nonce and the ephemeral key it draws. -/
def new (party : Party C) (requireEip8 : Bool) (id : Bytes) (remoteId : Option Bytes) :
    EcciesEncrypter C where
  requireEip8 := requireEip8
  nonce := party.nonce
  privateKey := party.privateKey
  publicKey := id2pk id
  remotePublicKey := remoteId.map id2pk
  remoteNonce := none
  remoteInitMsg := none
  ephemeralPrivateKey := party.ephemeralPrivateKey
  ephemeralPublicKey := party.ephemeralPublicKey
  ephemeralSharedSecret := none
  remoteEphemeralPublicKey := none
  ingress := none
  egress := none
  initMsg := none
  buffer := []

/-- **`createAuthMessage`.** -/
def createAuthMessage (self : EcciesEncrypter C) (own : Seal C) (pad : Pad) :
    Except String Bytes :=
  match self.remotePublicKey with
  | none => .error "Failed to create AUTH message"
  | some remotePublicKey =>
    if self.requireEip8 then
      createAuthEIP8 C own pad remotePublicKey self.privateKey self.nonce
        self.ephemeralPrivateKey self.publicKey
    else
      createAuthNonEIP8 own remotePublicKey self.privateKey self.nonce self.ephemeralPrivateKey
        self.ephemeralPublicKey self.publicKey

/-- The ack in its form. -/
def readAck (self : EcciesEncrypter C) (ackPacket : Bytes) (isEIP8 : Bool) :
    Except String AckResult :=
  if isEIP8 then
    parseAckEIP8 C encrypterTexts ackPacket self.privateKey self.ephemeralPrivateKey true
  else
    parseAckPlain C encrypterTexts ackPacket self.privateKey self.ephemeralPrivateKey false none

/-- What `sendAuthGetAck` resolves to. -/
structure SendAuthGetAckResult where
  authMsg : Bytes
  ackMsg : Bytes
  ackResult : AckResult
  gotEIP8Ack : Bool

/-- **`sendAuthGetAck`**, with the chunks it does not listen to. -/
def sendAuthGetAck (self : EcciesEncrypter C) (own : Seal C) (pad : Pad) (socket : List Bytes) :
    Except String (SendAuthGetAckResult × List Bytes) := do
  let authMsg ← self.createAuthMessage own pad
  match (BufferAccumulator.new 210).receive socket with
  | none => .error "AUTH→ACK timeout after 10000ms"
  | some ((ackPacket, isEIP8), _, socket) =>
    let ackResult ← self.readAck ackPacket isEIP8
    .ok (⟨authMsg, ackPacket, ackResult, isEIP8⟩, socket)

/-- The auth message in its form. -/
def readAuth (self : EcciesEncrypter C) (authPacket : Bytes) (isEIP8 : Bool) :
    Except String (Option AuthResult) :=
  if isEIP8 then parseAuthEIP8 authPacket self.privateKey self.ephemeralPrivateKey true
  else .ok (parseAuthPlain authPacket self.privateKey self.ephemeralPrivateKey false none)

/-- **`createAckMessage`.** -/
def createAckMessage (self : EcciesEncrypter C) (own : Seal C) (pad : Pad)
    (remotePublicKey : Bytes) (gotEIP8Auth : Bool) : Except String Bytes :=
  if gotEIP8Auth then
    createAckEIP8 C own pad self.ephemeralPublicKey remotePublicKey self.nonce
  else createAckOld C own self.ephemeralPublicKey remotePublicKey self.nonce

/-- What `waitAuthSendAck` resolves to. -/
structure WaitAuthSendAckResult where
  authMsg : Bytes
  authResult : AuthResult
  ackMsg : Bytes
  gotEIP8Auth : Bool

/-- **`waitAuthSendAck`**, with the chunks it does not listen to. -/
def waitAuthSendAck (self : EcciesEncrypter C) (own : Seal C) (pad : Pad) (socket : List Bytes) :
    Except String (WaitAuthSendAckResult × List Bytes) :=
  match (BufferAccumulator.new 307).receive socket with
  | none => .error "Waiting for AUTH timeout after 10000ms"
  | some ((authPacket, isEIP8), _, socket) => do
    match ← self.readAuth authPacket isEIP8 with
    | none => .error "Failed to parse AUTH"
    | some authResult =>
      let ackMsg ← self.createAckMessage own pad authResult.remotePublicKey isEIP8
      .ok (⟨authPacket, authResult, ackMsg, isEIP8⟩, socket)

/-- **`setupFrameEncryption`.** -/
def setupFrameEncryption (self : EcciesEncrypter C) (remoteData : Bytes) (incoming : Bool) :
    Except String (EcciesEncrypter C) :=
  match self.remoteNonce, self.ephemeralSharedSecret, self.initMsg with
  | some remoteNonce, some secret, some initMsg =>
    let result := setupFrame C remoteData self.nonce remoteNonce initMsg secret incoming
    .ok { self with ingress := some result.ingress, egress := some result.egress }
  | _, _, _ => .error "Cannot setup frame: missing required data"

/-- **`createResult`.** -/
def createResult (self : EcciesEncrypter C) (socket : List Bytes) : Secured C where
  encrypter := self
  socket := socket
  remotePeer :=
    match self.remotePublicKey with
    | none => List.replicate 64 0
    | some key => if key.length = 65 then key.drop 1 else key

/-- **`secureInBound`.** -/
def secureInBound (self : EcciesEncrypter C) (own : Seal C) (pad : Pad) (socket : List Bytes) :
    Except String (Secured C) := do
  let (result, socket) ← self.waitAuthSendAck own pad socket
  let self ← { self with
    initMsg := some result.ackMsg
    remoteInitMsg := some result.authResult.remoteInitMsg
    remotePublicKey := some result.authResult.remotePublicKey
    remoteNonce := some result.authResult.remoteNonce
    remoteEphemeralPublicKey := some result.authResult.remoteEphemeralPublicKey
    ephemeralSharedSecret := some result.authResult.ephemeralSharedSecret
    }.setupFrameEncryption result.authResult.remoteInitMsg true
  .ok (self.createResult socket)

/-- **`secureOutBound`**, which takes the size of a list ack for more than is in it. -/
def secureOutBound (self : EcciesEncrypter C) (own : Seal C) (pad : Pad) (socket : List Bytes)
    (remotePeerId : Bytes) : Except String (Secured C) := do
  let self := { self with remotePublicKey := some (id2pk remotePeerId) }
  let (result, socket) ← self.sendAuthGetAck own pad socket
  let sharedMacData :=
    if result.gotEIP8Ack then result.ackMsg.take 2 ++ result.ackMsg else result.ackMsg
  let self ← { self with
    initMsg := some result.authMsg
    remoteInitMsg := some result.ackMsg
    remoteNonce := some result.ackResult.remoteNonce
    remoteEphemeralPublicKey := some result.ackResult.remoteEphemeralPublicKey
    ephemeralSharedSecret := some result.ackResult.ephemeralSharedSecret
    }.setupFrameEncryption sharedMacData false
  .ok (self.createResult socket)

end EcciesEncrypter

/-! ## Both sides of a connection -/

/-- **A connection**: `a` dials `b`. Each side has its options and what it draws, and receives the
bytes of the other in chunks; `extra` is what `b` writes behind its ack. -/
structure Connection (C : Crypto) where
  a : Party C
  b : Party C
  requireEip8 : Bool × Bool
  remoteId : Option Bytes × Option Bytes
  own : Seal C × Seal C
  pad : Pad × Pad
  toA : List Bytes
  toB : List Bytes
  extra : Bytes

namespace Connection

variable {C : Crypto} (conn : Connection C)

/-- The encrypter of `a`. -/
def outBound : EcciesEncrypter C :=
  .new conn.a conn.requireEip8.1 (pk2id conn.a.publicKey) conn.remoteId.1

/-- The encrypter of `b`. -/
def inBound : EcciesEncrypter C :=
  .new conn.b conn.requireEip8.2 (pk2id conn.b.publicKey) conn.remoteId.2

/-- `a` secures the connection to `b`. -/
def secureOutBound : Except String (Secured C) :=
  conn.outBound.secureOutBound conn.own.1 conn.pad.1 conn.toA (pk2id conn.b.publicKey)

/-- `b` secures it. -/
def secureInBound : Except String (Secured C) :=
  conn.inBound.secureInBound conn.own.2 conn.pad.2 conn.toB

/-- The auth message that `a` writes. -/
def authMsg : Except String Bytes :=
  { conn.outBound with
    remotePublicKey := some (id2pk (pk2id conn.b.publicKey)) }.createAuthMessage conn.own.1
    conn.pad.1

/-- **Both sides resolve**: `b` receives what `a` writes, its auth message, and `a` what `b` writes,
the ack it keeps and what is behind. -/
structure Resolves (a b : Secured C) : Prop where
  sent : conn.authMsg = .ok conn.toB.flatten
  inBound : conn.secureInBound = .ok b
  answered : ∃ ack, b.encrypter.initMsg = some ack ∧ conn.toA.flatten = ack ++ conn.extra
  outBound : conn.secureOutBound = .ok a

/-- **The handshake agrees**: the ciphers and the MACs match crosswise, each side reports the other,
and what was received behind the ack is there. -/
structure Agrees (a b : Secured C) : Prop where
  toB : ∃ half, a.encrypter.egress = some half ∧ b.encrypter.ingress = some half
  toA : ∃ half, b.encrypter.egress = some half ∧ a.encrypter.ingress = some half
  remoteOfA : a.remotePeer = pk2id conn.b.publicKey
  remoteOfB : b.remotePeer = pk2id conn.a.publicKey
  receivedByA : a.encrypter.buffer ++ a.socket.flatten = conn.extra
  receivedByB : b.encrypter.buffer ++ b.socket.flatten = []

variable {conn}

theorem exists_authMsg (h : C.Correct) {secret : Bytes}
    (hsecret : C.ecdhX conn.a.ephemeralPublicKey conn.b.ephemeralPrivateKey = .ok secret) :
    ∃ auth, conn.authMsg = .ok auth ∧ Told 307 auth conn.requireEip8.1 ∧
      conn.inBound.readAuth auth conn.requireEip8.1 = .ok (some (authResult conn.a auth secret)) := by
  have hpk : id2pk (pk2id conn.a.publicKey) = conn.a.publicKey := h.id2pk_pk2id conn.a.privateKey
  have hpk' : id2pk (pk2id conn.b.publicKey) = conn.b.publicKey := h.id2pk_pk2id conn.b.privateKey
  cases heip8 : conn.requireEip8.1 with
  | true =>
    obtain ⟨auth, hauth, htold, hread⟩ :=
      EcciesEncrypter.exists_authEIP8 h conn.own.1 conn.pad.1 conn.a conn.b hsecret
    refine ⟨auth, ?_, htold, hread⟩
    simp only [authMsg, EcciesEncrypter.createAuthMessage, outBound, EcciesEncrypter.new, heip8,
      if_true, hpk, hpk', hauth]
  | false =>
    obtain ⟨auth, hauth, htold, hread⟩ :=
      EcciesEncrypter.exists_auth h conn.own.1 conn.a conn.b hsecret
    refine ⟨auth, ?_, htold, congrArg Except.ok hread⟩
    simp only [authMsg, EcciesEncrypter.createAuthMessage, outBound, EcciesEncrypter.new, heip8,
      Bool.false_eq_true, if_false, hpk, hpk', hauth]

theorem exists_ackMsg (h : C.Correct) (eip8 : Bool) {secret : Bytes}
    (hsecret : C.ecdhX conn.b.ephemeralPublicKey conn.a.ephemeralPrivateKey = .ok secret) :
    ∃ ack, conn.inBound.createAckMessage conn.own.2 conn.pad.2 conn.a.publicKey eip8 = .ok ack ∧
      Told 210 ack eip8 ∧ conn.outBound.readAck ack eip8 = .ok (ackResult conn.b secret) := by
  cases eip8 with
  | true =>
    obtain ⟨ack, hack, hsize, hlength, hfour, hread⟩ :=
      h.exists_ackEIP8 encrypterTexts conn.own.2 conn.pad.2 conn.a conn.b hsecret
    exact ⟨ack, hack, told_list (by omega) (by omega) hfour hsize, hread⟩
  | false =>
    obtain ⟨ack, hack, hfour, hlength, hread⟩ :=
      h.exists_ackPlain encrypterTexts conn.own.2 conn.a conn.b hsecret
    exact ⟨ack, hack, hlength ▸ told_plain (by omega) hfour, hread⟩

/-- `b` at its end. -/
def endOfB (conn : Connection C) (auth ack secret : Bytes) (socket : List Bytes) : Secured C :=
  let session := setupFrame C auth conn.b.nonce conn.a.nonce ack secret true
  { encrypter := { conn.inBound with
      initMsg := some ack
      remoteInitMsg := some auth
      remotePublicKey := some conn.a.publicKey
      remoteNonce := some conn.a.nonce
      remoteEphemeralPublicKey := some conn.a.ephemeralPublicKey
      ephemeralSharedSecret := some secret
      ingress := some session.ingress
      egress := some session.egress }
    socket := socket
    remotePeer := pk2id conn.a.publicKey }

/-- `a` at its end: what it hashes for the ack is `sharedMacData`. -/
def endOfA (conn : Connection C) (auth ack sharedMacData secret : Bytes) (socket : List Bytes) :
    Secured C :=
  let session := setupFrame C sharedMacData conn.a.nonce conn.b.nonce auth secret false
  { encrypter := { conn.outBound with
      initMsg := some auth
      remoteInitMsg := some ack
      remotePublicKey := some conn.b.publicKey
      remoteNonce := some conn.b.nonce
      remoteEphemeralPublicKey := some conn.b.ephemeralPublicKey
      ephemeralSharedSecret := some secret
      ingress := some session.ingress
      egress := some session.egress }
    socket := socket
    remotePeer := pk2id conn.b.publicKey }

/-- What `a` hashes for an ack. -/
def sharedMacData (eip8 : Bool) (ack : Bytes) : Bytes := if eip8 then ack.take 2 ++ ack else ack

variable {auth ack secret : Bytes} {eip8 : Bool} {acc : BufferAccumulator} {rest : List Bytes}

theorem secureInBound_eq (h : C.Correct)
    (hreceive : (BufferAccumulator.new 307).receive conn.toB = some ((auth, eip8), acc, rest))
    (hread : conn.inBound.readAuth auth eip8 = .ok (some (authResult conn.a auth secret)))
    (hack : conn.inBound.createAckMessage conn.own.2 conn.pad.2 conn.a.publicKey eip8 = .ok ack) :
    conn.secureInBound = .ok (conn.endOfB auth ack secret rest) := by
  have hwait : conn.inBound.waitAuthSendAck conn.own.2 conn.pad.2 conn.toB =
      .ok (⟨auth, authResult conn.a auth secret, ack, eip8⟩, rest) := by
    simp only [EcciesEncrypter.waitAuthSendAck, hreceive, hread, ok_bind, authResult, hack]
  have hkey : conn.a.publicKey.length = 65 := h.length_getPublicKey conn.a.privateKey
  rw [secureInBound, EcciesEncrypter.secureInBound, hwait]
  simp only [ok_bind, authResult, EcciesEncrypter.setupFrameEncryption,
    EcciesEncrypter.createResult, hkey, if_true]
  rfl

theorem secureOutBound_eq (h : C.Correct) (hauth : conn.authMsg = .ok auth)
    (hreceive : (BufferAccumulator.new 210).receive conn.toA = some ((ack, eip8), acc, rest))
    (hread : conn.outBound.readAck ack eip8 = .ok (ackResult conn.b secret)) :
    conn.secureOutBound =
      .ok (conn.endOfA auth ack (sharedMacData eip8 ack) secret rest) := by
  have hpk : id2pk (pk2id conn.b.publicKey) = conn.b.publicKey := h.id2pk_pk2id conn.b.privateKey
  have hwait : { conn.outBound with
      remotePublicKey := some (id2pk (pk2id conn.b.publicKey)) }.sendAuthGetAck conn.own.1
        conn.pad.1 conn.toA = .ok (⟨auth, ack, ackResult conn.b secret, eip8⟩, rest) := by
    rw [authMsg] at hauth
    simp only [EcciesEncrypter.readAck] at hread
    simp only [EcciesEncrypter.sendAuthGetAck, hauth, ok_bind, hreceive, EcciesEncrypter.readAck,
      hread]
  have hkey : conn.b.publicKey.length = 65 := h.length_getPublicKey conn.b.privateKey
  rw [secureOutBound, EcciesEncrypter.secureOutBound]
  dsimp only
  rw [hwait]
  simp only [ok_bind, ackResult, EcciesEncrypter.setupFrameEncryption,
    EcciesEncrypter.createResult, hpk, hkey, if_true]
  rfl

theorem sharedMacData_eq_iff (htold : Told 210 ack eip8) :
    sharedMacData eip8 ack = ack ↔ eip8 = false := by
  cases eip8 with
  | false => exact iff_of_true rfl rfl
  | true =>
    refine iff_of_false (fun heq => ?_) Bool.noConfusion
    have hlength := congrArg List.length heq
    have htwo := htold.two_le
    rw [sharedMacData, if_pos rfl, List.length_append, List.length_take] at hlength
    omega

/-- Both ends agree exactly if they hash the same for the ack, and nothing is lost behind it. -/
theorem agrees_ends_iff (hnothing : rest.flatten = []) (sharedMacData : Bytes)
    (rest' : List Bytes) :
    conn.Agrees (conn.endOfA auth ack sharedMacData secret rest')
        (conn.endOfB auth ack secret rest) ↔
      sharedMacData = ack ∧ rest'.flatten = conn.extra := by
  constructor
  · rintro ⟨-, ⟨half, hegress, hingress⟩, -, -, hkept, -⟩
    refine ⟨?_, hkept⟩
    have hhash := congrArg (fun half => half.mac.hash)
      (Option.some.inj (hingress.trans hegress.symm))
    exact List.append_cancel_left hhash
  · rintro ⟨rfl, hkept⟩
    exact ⟨⟨_, rfl, rfl⟩, ⟨_, rfl, rfl⟩, rfl, rfl, hkept, hnothing⟩

/-- **Both sides resolve, however the streams are cut**; they agree exactly in the plain form, with
what follows the ack in chunks of its own. -/
theorem exists_ends (h : C.Correct) (hsent : conn.authMsg = .ok conn.toB.flatten) :
    ∃ b ack, conn.secureInBound = .ok b ∧ b.encrypter.initMsg = some ack ∧
      (conn.toA.flatten = ack ++ conn.extra → ∃ a, conn.secureOutBound = .ok a ∧
        (conn.Agrees a b ↔ conn.requireEip8.1 = false ∧ Separate conn.toA conn.extra)) := by
  obtain ⟨secret, hsecret, hsecret'⟩ :=
    h.exists_ecdhX conn.a.ephemeralPrivateKey conn.b.ephemeralPrivateKey
  obtain ⟨auth, hauth, htold, hread⟩ := exists_authMsg h hsecret
  obtain ⟨ack, hack, htoldAck, hreadAck⟩ := exists_ackMsg h conn.requireEip8.1 hsecret'
  have hstream : conn.toB.flatten = auth ++ [] := by
    rw [List.append_nil]
    exact Except.ok.inj (hsent.symm.trans hauth)
  obtain ⟨acc, rest, hreceive, hrest⟩ := BufferAccumulator.receive_new htold hstream
  refine ⟨_, ack, secureInBound_eq h hreceive hread hack, rfl, fun hanswer => ?_⟩
  obtain ⟨acc', rest', hreceive', hrest'⟩ := BufferAccumulator.receive_new htoldAck hanswer
  refine ⟨_, secureOutBound_eq h hauth hreceive' hreadAck, ?_⟩
  -- nothing is behind the auth message: `a` waits for the ack
  have hnothing : rest.flatten = [] := hrest.2 ⟨conn.toB, [], by rw [List.append_nil], rfl⟩
  rw [agrees_ends_iff hnothing, sharedMacData_eq_iff htoldAck, hrest']

/-- **Where both sides resolve, the handshake agrees exactly in the plain form**, with what follows
the ack in chunks of its own. -/
theorem handshake_agrees_iff (h : C.Correct) {a b : Secured C} (hresolves : conn.Resolves a b) :
    conn.Agrees a b ↔ conn.requireEip8.1 = false ∧ Separate conn.toA conn.extra := by
  obtain ⟨b', ack, hinBound, hack, hends⟩ := exists_ends h hresolves.sent
  obtain rfl := Except.ok.inj (hinBound.symm.trans hresolves.inBound)
  obtain ⟨ack', hack', hanswer⟩ := hresolves.answered
  obtain rfl := Option.some.inj (hack.symm.trans hack')
  obtain ⟨a', houtBound, hagrees⟩ := hends hanswer
  obtain rfl := Except.ok.inj (houtBound.symm.trans hresolves.outBound)
  exact hagrees

/-- The connection where the auth message comes in one chunk, and the ack with what is behind it. -/
def whole (conn : Connection C) : Connection C :=
  let auth := match conn.authMsg with
    | .ok auth => auth
    | .error _ => []
  let conn := { conn with toB := [auth] }
  let ack := match conn.secureInBound with
    | .ok b => b.encrypter.initMsg.getD []
    | .error _ => []
  { conn with toA := [ack ++ conn.extra] }

theorem exists_resolves_whole (h : C.Correct) (conn : Connection C) :
    ∃ a b, conn.whole.Resolves a b ∧ (conn.whole.Agrees a b ↔
      conn.requireEip8.1 = false ∧ Separate conn.whole.toA conn.extra) := by
  obtain ⟨secret, hsecret, -⟩ :=
    h.exists_ecdhX conn.a.ephemeralPrivateKey conn.b.ephemeralPrivateKey
  obtain ⟨auth, hauth, -, -⟩ := exists_authMsg h hsecret
  have hsent : conn.whole.authMsg = .ok conn.whole.toB.flatten := by
    refine Eq.trans (b := conn.authMsg) rfl ?_
    simp only [whole, hauth, List.flatten_singleton]
  obtain ⟨b, ack, hinBound, hack, hends⟩ := exists_ends h hsent
  have hanswer : conn.whole.toA.flatten = ack ++ conn.whole.extra := by
    have hinBound' : { conn with toB := conn.whole.toB }.secureInBound = .ok b := hinBound
    simp only [whole] at hinBound' ⊢
    simp only [hinBound', hack, Option.getD_some, List.flatten_singleton]
  obtain ⟨a, houtBound, hagrees⟩ := hends hanswer
  exact ⟨a, b, ⟨hsent, hinBound, ⟨ack, hack, hanswer⟩, houtBound⟩, hagrees⟩

end Connection

/-! ## Handshakes that do not agree -/

/-- Two parties connect, in one form or the other, and so many bytes follow the ack. -/
def sampleConnection (requireEip8 : Bool) (extra : Bytes) : Connection sampleCrypto where
  a := sampleParty 3
  b := sampleParty 4
  requireEip8 := (requireEip8, requireEip8)
  remoteId := (none, none)
  own := (sampleSeal 1, sampleSeal 2)
  pad := (samplePad, samplePad)
  toA := []
  toB := []
  extra := extra

/-- **In the list form** the handshake does not agree, and in the plain form not with a byte behind
the ack in its chunk. -/
theorem sample_not_agrees :
    (∃ a b, (sampleConnection true []).whole.Resolves a b ∧
      ¬ (sampleConnection true []).whole.Agrees a b) ∧
    ∃ a b, (sampleConnection false [7]).whole.Resolves a b ∧
      ¬ (sampleConnection false [7]).whole.Agrees a b := by
  constructor
  · obtain ⟨a, b, hresolves, hagrees⟩ :=
      Connection.exists_resolves_whole sampleCrypto_correct (sampleConnection true [])
    exact ⟨a, b, hresolves, fun hc => Bool.noConfusion (hagrees.1 hc).1⟩
  · obtain ⟨a, b, hresolves, hagrees⟩ :=
      Connection.exists_resolves_whole sampleCrypto_correct (sampleConnection false [7])
    refine ⟨a, b, hresolves, fun hc => ?_⟩
    obtain ⟨pre, rest, hchunks, hrest⟩ := (hagrees.1 hc).2
    have hlength : (sampleConnection false [7]).whole.toA.map List.length = [211] := by
      decide +kernel
    rw [hchunks, List.map_append] at hlength
    have hextra : rest.flatten.length = 1 := congrArg List.length hrest
    rw [List.length_flatten] at hextra
    rcases List.append_eq_singleton_iff.1 hlength with ⟨-, hrest'⟩ | ⟨-, hrest'⟩
    · rw [hrest'] at hextra
      cases hextra
    · rw [hrest'] at hextra
      cases hextra

/-- In the plain form it does with nothing behind the ack. -/
theorem handshake_agrees_iff_sample :
    ∃ a b, (sampleConnection false []).whole.Resolves a b ∧
      ((sampleConnection false []).whole.Agrees a b ↔
        (sampleConnection false []).whole.requireEip8.1 = false ∧
          Separate (sampleConnection false []).whole.toA []) := by
  obtain ⟨a, b, hresolves, -⟩ :=
    Connection.exists_resolves_whole sampleCrypto_correct (sampleConnection false [])
  exact ⟨a, b, hresolves, Connection.handshake_agrees_iff sampleCrypto_correct hresolves⟩

end Rlpx

end TsEthereum
