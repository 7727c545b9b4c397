import TsEthereum.Common.Runs
import TsEthereum.Rlpx.Agreement

/-!
# `ECIES`

The session of `ecies.ts`: an initiator makes an auth message, the responder reads
it and makes an ack, the initiator reads that, and then both write and read frames.
After a handshake in the list form, or in the plain form with a signature of full
width, what one writes with is what the other reads with (`Agree`), and so every
message comes through (`Link`); else there is no session (`sessionAgrees_iff`).
-/

namespace TsEthereum

namespace Rlpx

/-- The texts of `ecies.ts`. -/
def eciesTexts : Texts where
  header := "wrong ecies header (possible cause: EIP8 upgrade)"
  ephemeralHash := "the hash of the ephemeral key should match"
  authLength := fun _ _ => "message length different from specified size (EIP8) "
  ackLength := fun _ _ => "message length different from specified size (EIP8) parseAckEIP8"

/-- **A session.** Its ciphers and MACs are set up together, and stand here in pairs. -/
structure ECIES (C : Crypto) where
  privateKey : C.PrivateKey
  publicKey : Bytes
  remotePublicKey : Option Bytes
  nonce : Bytes
  remoteNonce : Option Bytes
  initMsg : Option Bytes
  remoteInitMsg : Option Bytes
  gotEIP8Auth : Bool
  gotEIP8Ack : Bool
  ingress : Option Half
  egress : Option Half
  ephemeralPrivateKey : C.PrivateKey
  ephemeralPublicKey : Bytes
  remoteEphemeralPublicKey : Option Bytes
  ephemeralSharedSecret : Option Bytes
  bodySize : Option ℕ

namespace ECIES

variable {C : Crypto}

/-- **`new ECIES`**, with the nonce and the ephemeral key it draws. -/
def new (party : Party C) (id : Bytes) (remoteId : Option Bytes) : ECIES C where
  privateKey := party.privateKey
  publicKey := id2pk id
  remotePublicKey := remoteId.map id2pk
  nonce := party.nonce
  remoteNonce := none
  initMsg := none
  remoteInitMsg := none
  gotEIP8Auth := false
  gotEIP8Ack := false
  ingress := none
  egress := none
  ephemeralPrivateKey := party.ephemeralPrivateKey
  ephemeralPublicKey := party.ephemeralPublicKey
  remoteEphemeralPublicKey := none
  ephemeralSharedSecret := none
  bodySize := none

/-- **`_setupFrame`.** -/
def setupFrame (self : ECIES C) (remoteData : Bytes) (incoming : Bool) : ECIES C :=
  match self.remoteNonce, self.ephemeralSharedSecret with
  | some remoteNonce, some secret =>
    let session := Rlpx.setupFrame C remoteData self.nonce remoteNonce (self.initMsg.getD []) secret
      incoming
    match self.initMsg with
    | some _ => { self with ingress := some session.ingress, egress := some session.egress }
    | none =>
      { self with
        ingress := some session.ingress
        egress := some { session.egress with mac := MAC.new session.egress.mac.secret } }
  | _, _ => self

/-! ## The handshake -/

/-- What `createAuthEIP8` and `createAuthNonEIP8` have in common: nothing is made without the key
of the other side. -/
def withInitMsg (self : ECIES C) (create : Bytes → Except String Bytes) :
    Except String (Option Bytes × ECIES C) :=
  match self.remotePublicKey with
  | none => .ok (none, self)
  | some remotePublicKey => do
    let initMsg ← create remotePublicKey
    .ok (some initMsg, { self with initMsg := some initMsg })

/-- **`createAuthEIP8`.** -/
def createAuthEIP8 (self : ECIES C) (own : Seal C) (pad : Pad) :
    Except String (Option Bytes × ECIES C) :=
  self.withInitMsg fun remotePublicKey => Rlpx.createAuthEIP8 C own pad remotePublicKey
    self.privateKey self.nonce self.ephemeralPrivateKey self.publicKey

/-- **`createAuthNonEIP8`.** -/
def createAuthNonEIP8 (self : ECIES C) (own : Seal C) : Except String (Option Bytes × ECIES C) :=
  self.withInitMsg fun remotePublicKey => Rlpx.createAuthNonEIP8 C own remotePublicKey
    self.privateKey self.nonce self.ephemeralPrivateKey self.ephemeralPublicKey self.publicKey

/-- What was read from an auth message is kept. -/
def keepAuth (self : ECIES C) (result : AuthResult) : ECIES C :=
  { self with
    remoteInitMsg := some result.remoteInitMsg
    remotePublicKey := some result.remotePublicKey
    remoteNonce := some result.remoteNonce
    remoteEphemeralPublicKey := some result.remoteEphemeralPublicKey
    ephemeralSharedSecret := some result.ephemeralSharedSecret }

/-- **`parseAuthPlain`.** -/
def parseAuthPlain (self : ECIES C) (data : Bytes) : Except String (ECIES C) := do
  let result ← Rlpx.parseAuthPlain C eciesTexts data self.privateKey self.ephemeralPrivateKey
    self.gotEIP8Auth none
  .ok (self.keepAuth result)

/-- **`parseAuthEIP8`.** -/
def parseAuthEIP8 (self : ECIES C) (data : Bytes) : Except String (ECIES C) := do
  let result ← Rlpx.parseAuthEIP8 C eciesTexts data self.privateKey self.ephemeralPrivateKey
    self.gotEIP8Auth
  .ok (self.keepAuth result)

/-- What `createAckEIP8` and `createAckOld` have in common: the frames are set up with the ack. -/
def withAck (self : ECIES C) (create : Bytes → Except String Bytes) :
    Except String (Option Bytes × ECIES C) := do
  let (initMsg, self) ← self.withInitMsg create
  match initMsg, self.remoteInitMsg with
  | some initMsg, some remoteInitMsg => .ok (some initMsg, self.setupFrame remoteInitMsg true)
  | _, _ => .ok (none, self)

/-- **`createAckEIP8`.** -/
def createAckEIP8 (self : ECIES C) (own : Seal C) (pad : Pad) :
    Except String (Option Bytes × ECIES C) :=
  self.withAck fun remotePublicKey =>
    Rlpx.createAckEIP8 C own pad self.ephemeralPublicKey remotePublicKey self.nonce

/-- **`createAckOld`**, which `_encryptMessage` gives nothing without the key of the other side. -/
def createAckOld (self : ECIES C) (own : Seal C) : Except String (Option Bytes × ECIES C) :=
  self.withAck fun remotePublicKey =>
    Rlpx.createAckOld C own self.ephemeralPublicKey remotePublicKey self.nonce

/-- What was read from an ack is kept, and the frames are set up with it. -/
def keepAck (self : ECIES C) (ack : Bytes) (result : AckResult) : ECIES C :=
  { self with
    remoteEphemeralPublicKey := some result.remoteEphemeralPublicKey
    remoteNonce := some result.remoteNonce
    ephemeralSharedSecret := some result.ephemeralSharedSecret }.setupFrame ack false

/-- **`parseAckPlain`.** -/
def parseAckPlain (self : ECIES C) (data : Bytes) : Except String (ECIES C) := do
  let result ← Rlpx.parseAckPlain C eciesTexts data self.privateKey self.ephemeralPrivateKey
    self.gotEIP8Ack none
  .ok (self.keepAck data result)

/-- **`parseAckEIP8`.** -/
def parseAckEIP8 (self : ECIES C) (data : Bytes) : Except String (ECIES C) := do
  let result ← Rlpx.parseAckEIP8 C eciesTexts data self.privateKey self.ephemeralPrivateKey
    self.gotEIP8Ack
  -- the size and the rest of the message together
  .ok (self.keepAck (data.take 2 ++ data.drop 2) result)

/-! ## Frames -/

/-- **`createBlockHeader`.** -/
def createBlockHeader (self : ECIES C) (size : ℕ) : Option (Bytes × ECIES C) :=
  self.egress.map fun half =>
    let (header, half) := createHeader C size half
    (header, { self with egress := some half })

/-- **`parseHeader`.** -/
def parseHeader (self : ECIES C) (data : Bytes) : Except String (Option ℕ × ECIES C) :=
  match self.ingress with
  | none => .ok (none, self)
  | some half => do
    let (size, half) ← Rlpx.parseHeader C data half
    .ok (some size, { self with ingress := some half, bodySize := some size })

/-- **`createBody`.** -/
def createBody (self : ECIES C) (data : Bytes) : Option (Bytes × ECIES C) :=
  self.egress.map fun half =>
    let (body, half) := Rlpx.createBody C data half
    (body, { self with egress := some half })

/-- **`parseBody`.** -/
def parseBody (self : ECIES C) (data : Bytes) : Except String (Option Bytes × ECIES C) :=
  match self.bodySize, self.ingress with
  | none, _ => .error "need to parse header first"
  | some _, none => .ok (none, self)
  | some size, some half => do
    let (body, half) ← Rlpx.parseBody C data size half
    .ok (some body, { self with ingress := some half, bodySize := none })

/-- **A message is written**: its header, and its body. -/
def write (self : ECIES C) (message : Bytes) : Option ((Bytes × Bytes) × ECIES C) := do
  let (header, self) ← self.createBlockHeader message.length
  let (body, self) ← self.createBody message
  some ((header, body), self)

/-- **A message is read.** -/
def read (self : ECIES C) (frame : Bytes × Bytes) : Except String (Option Bytes × ECIES C) := do
  let (_, self) ← self.parseHeader frame.1
  self.parseBody frame.2

variable {self : ECIES C} {half half' : Half} {message : Bytes} {frame : Bytes × Bytes}

theorem write_eq (h : self.egress = some half) (message : Bytes) :
    self.write message = some ((createFrame C message half).1,
      { self with egress := some (createFrame C message half).2 }) := by
  simp only [write, createBlockHeader, h, Option.map_some, Option.bind_eq_bind, Option.bind_some,
    createBody, createFrame]

theorem read_eq (h : self.ingress = some half)
    (hframe : parseFrame C frame half = .ok (message, half')) :
    self.read frame = .ok (some message, { self with ingress := some half', bodySize := none }) := by
  obtain ⟨⟨size, mid⟩, hheader, hbody⟩ := bind_eq_ok.1 hframe
  simp only [read, parseHeader, h, hheader, ok_bind, parseBody, hbody]

end ECIES

/-! ## A session of two -/

variable {C : Crypto}

/-- **Both ends agree**: on the secret, and on what each direction is written and read with. -/
structure Agree (a b : ECIES C) : Prop where
  secret : ∃ x, a.ephemeralSharedSecret = some x ∧ b.ephemeralSharedSecret = some x
  toResponder : ∃ half, a.egress = some half ∧ b.ingress = some half
  toInitiator : ∃ half, b.egress = some half ∧ a.ingress = some half

/-- What was made, if it was made. -/
def made (r : Option Bytes × ECIES C) : Except String (Bytes × ECIES C) :=
  match r with
  | (some message, self) => .ok (message, self)
  | (none, _) => .error "nothing was made"

/-- The auth message, in either form. -/
def authOf (eip8 : Bool) (own : Seal C) (pad : Pad) (a : ECIES C) :
    Except String (Option Bytes × ECIES C) :=
  if eip8 then a.createAuthEIP8 own pad else a.createAuthNonEIP8 own

/-- It is read: the responder was told its form before. -/
def readAuth (eip8 : Bool) (auth : Bytes) (b : ECIES C) : Except String (ECIES C) :=
  if eip8 then { b with gotEIP8Auth := true }.parseAuthEIP8 auth else b.parseAuthPlain auth

/-- The ack, in the form of the auth. -/
def ackOf (eip8 : Bool) (own : Seal C) (pad : Pad) (b : ECIES C) :
    Except String (Option Bytes × ECIES C) :=
  if eip8 then b.createAckEIP8 own pad else b.createAckOld own

/-- It is read. -/
def readAck (eip8 : Bool) (ack : Bytes) (a : ECIES C) : Except String (ECIES C) :=
  if eip8 then { a with gotEIP8Ack := true }.parseAckEIP8 ack else a.parseAckPlain ack

/-- **The handshake** of an initiator and a responder. -/
def handshake (eip8 : Bool) (own own' : Seal C) (pad pad' : Pad) (a b : ECIES C) :
    Except String (ECIES C × ECIES C) := do
  let (auth, a) ← made (← authOf eip8 own pad a)
  let b ← readAuth eip8 auth b
  let (ack, b) ← made (← ackOf eip8 own' pad' b)
  let a ← readAck eip8 ack a
  .ok (a, b)

/-- The initiator `a` as it begins with `b`. -/
def initiator (a b : Party C) : ECIES C := .new a (pk2id a.publicKey) (some (pk2id b.publicKey))

/-- The responder `b` as it begins. -/
def responder (b : Party C) : ECIES C := .new b (pk2id b.publicKey) none

/-- The initiator after its auth message and the ack. -/
def initiatorEnd (eip8 : Bool) (a b : Party C) (auth ack secret : Bytes) : ECIES C :=
  { initiator a b with initMsg := some auth, gotEIP8Ack := eip8 }.keepAck ack (ackResult b secret)

/-- The responder after the auth message and its ack. -/
def responderEnd (eip8 : Bool) (a b : Party C) (auth ack secret : Bytes) : ECIES C :=
  { { responder b with gotEIP8Auth := eip8 }.keepAuth (authResult a auth secret) with
    initMsg := some ack }.setupFrame auth true

/-- **They agree**: each sets up with the other's message and nonce what the other sets up with
its own. -/
theorem agree_ends (eip8 : Bool) (a b : Party C) (auth ack secret : Bytes) :
    Agree (initiatorEnd eip8 a b auth ack secret) (responderEnd eip8 a b auth ack secret) where
  secret := ⟨secret, rfl, rfl⟩
  toResponder := ⟨_, rfl, rfl⟩
  toInitiator := ⟨_, rfl, rfl⟩

theorem Crypto.Correct.handshake_eip8 (h : C.Correct) (own own' : Seal C) (pad pad' : Pad)
    (a b : Party C) : ∃ a' b',
      handshake true own own' pad pad' (initiator a b) (responder b) = .ok (a', b') ∧
        Agree a' b' := by
  obtain ⟨secret, hsecret, hsecret'⟩ := h.exists_ecdhX a.ephemeralPrivateKey b.ephemeralPrivateKey
  obtain ⟨auth, hauth, -, -, -, hreadAuth⟩ := h.exists_authEIP8 eciesTexts own pad a b hsecret
  obtain ⟨ack, hack, -, -, -, hreadAck⟩ := h.exists_ackEIP8 eciesTexts own' pad' a b hsecret'
  have hpk : id2pk (pk2id a.publicKey) = a.publicKey := h.id2pk_pk2id a.privateKey
  have hpk' : id2pk (pk2id b.publicKey) = b.publicKey := h.id2pk_pk2id b.privateKey
  refine ⟨initiatorEnd true a b auth ack secret, responderEnd true a b auth ack secret, ?_,
    agree_ends true a b auth ack secret⟩
  simp only [handshake, authOf, if_true, ECIES.createAuthEIP8, ECIES.withInitMsg, initiator,
    responder, ECIES.new, Option.map_some, hpk, hpk', hauth, ok_bind, made, readAuth,
    ECIES.parseAuthEIP8, hreadAuth, ECIES.keepAuth, authResult, ackOf, ECIES.createAckEIP8,
    ECIES.withAck, hack, readAck, ECIES.parseAckEIP8, hreadAck, List.take_append_drop,
    initiatorEnd, responderEnd]

/-- **After the plain form both ends agree** if the signature has its full width; else there is no
session. -/
theorem Crypto.Correct.handshake_plain (h : C.Correct) (own own' : Seal C) (pad pad' : Pad)
    (a b : Party C) :
    (FullWidth a b → ∃ a' b', handshake false own own' pad pad' (initiator a b) (responder b) =
      .ok (a', b') ∧ Agree a' b') ∧
    (¬ FullWidth a b → ∀ ends,
      handshake false own own' pad pad' (initiator a b) (responder b) ≠ .ok ends) := by
  obtain ⟨secret, hsecret, hsecret'⟩ := h.exists_ecdhX a.ephemeralPrivateKey b.ephemeralPrivateKey
  obtain ⟨auth, hauth, -, -, hwide, hnarrow⟩ := h.exists_authPlain eciesTexts own a b hsecret
  obtain ⟨ack, hack, -, -, hreadAck⟩ := h.exists_ackPlain eciesTexts own' a b hsecret'
  have hpk : id2pk (pk2id a.publicKey) = a.publicKey := h.id2pk_pk2id a.privateKey
  have hpk' : id2pk (pk2id b.publicKey) = b.publicKey := h.id2pk_pk2id b.privateKey
  refine ⟨fun hfull => ?_, fun hshort ends hends => ?_⟩
  · obtain ⟨-, hreadAuth⟩ := hwide hfull
    refine ⟨initiatorEnd false a b auth ack secret, responderEnd false a b auth ack secret, ?_,
      agree_ends false a b auth ack secret⟩
    simp only [handshake, authOf, Bool.false_eq_true, if_false, ECIES.createAuthNonEIP8,
      ECIES.withInitMsg, initiator, responder, ECIES.new, Option.map_some, hpk, hpk', hauth, ok_bind,
      made, readAuth, ECIES.parseAuthPlain, hreadAuth, ECIES.keepAuth, authResult, ackOf,
      ECIES.createAckOld, ECIES.withAck, hack, readAck, ECIES.parseAckPlain, hreadAck,
      initiatorEnd, responderEnd]
  · obtain ⟨-, hreadAuth⟩ := hnarrow hshort
    cases hresult : Rlpx.parseAuthPlain C eciesTexts auth b.privateKey b.ephemeralPrivateKey false
      none with
    | ok result => exact hreadAuth result hresult
    | error e =>
      simp only [handshake, authOf, Bool.false_eq_true, if_false, ECIES.createAuthNonEIP8,
        ECIES.withInitMsg, initiator, responder, ECIES.new, Option.map_some, hpk, hpk', hauth,
        ok_bind, made, readAuth, ECIES.parseAuthPlain, hresult, error_bind] at hends
      cases hends

/-! ## Messages between both ends -/

/-- A message that fits in a frame. -/
abbrev Message : Type := {message : Bytes // message.length < 2 ^ 24}

/-- Frames of messages, one after the other. -/
def createFrames (C : Crypto) (half : Half) : List Message → List (Bytes × Bytes) × Half
  | [] => ([], half)
  | message :: messages =>
    let (frame, half) := createFrame C message.1 half
    let (frames, half) := createFrames C half messages
    (frame :: frames, half)

theorem createFrames_concat (half : Half) (messages : List Message) (message : Message) :
    createFrames C half (messages ++ [message]) =
      ((createFrames C half messages).1 ++
        [(createFrame C message.1 (createFrames C half messages).2).1],
        (createFrame C message.1 (createFrames C half messages).2).2) := by
  induction messages generalizing half with
  | nil => rfl
  | cons first messages ih => simp only [List.cons_append, createFrames, ih]

/-- **Both ends of a session**, by side, with the frames under way to a side, and the messages
written to it and read by it. -/
structure Link (C : Crypto) where
  ends : Bool → ECIES C
  flight : Bool → List (Bytes × Bytes)
  written : Bool → List Bytes
  read : Bool → List Bytes

/-- A message is written to a side, or a frame is read by one. -/
inductive LinkEvent
  | write (side : Bool) (message : Message)
  | read (side : Bool)

namespace Link

/-- The link after a handshake. -/
def new (a b : ECIES C) : Link C where
  ends := fun side => if side then b else a
  flight := fun _ => []
  written := fun _ => []
  read := fun _ => []

/-- The link after a message is written to a side. -/
def afterWrite (link : Link C) (side : Bool) (message : Message) (frame : Bytes × Bytes)
    (self : ECIES C) : Link C :=
  { link with
    ends := Function.update link.ends (!side) self
    flight := Function.update link.flight side (link.flight side ++ [frame])
    written := Function.update link.written side (link.written side ++ [message.1]) }

/-- The link after a message is read by a side. -/
def afterRead (link : Link C) (side : Bool) (message : Bytes) (frames : List (Bytes × Bytes))
    (self : ECIES C) : Link C :=
  { link with
    ends := Function.update link.ends side self
    flight := Function.update link.flight side frames
    read := Function.update link.read side (link.read side ++ [message]) }

/-- **A step of either end.** -/
def step (link : Link C) : LinkEvent → Except String (Link C)
  | .write side message =>
    match (link.ends (!side)).write message.1 with
    | none => .error "no session"
    | some (frame, self) => .ok (link.afterWrite side message frame self)
  | .read side =>
    match link.flight side with
    | [] => .ok link
    | frame :: frames =>
      match (link.ends side).read frame with
      | .ok (some message, self) => .ok (link.afterRead side message frames self)
      | .ok (none, _) => .error "no session"
      | .error e => .error e

/-- **The way to a side is sound**: its end reads with what the frames under way were written with,
and they are those of the messages it has not read. -/
def Sound (link : Link C) (side : Bool) : Prop :=
  ∃ half messages, (link.ends side).ingress = some half ∧
    (link.ends (!side)).egress = some (createFrames C half messages).2 ∧
    link.flight side = (createFrames C half messages).1 ∧
    link.written side = link.read side ++ messages.map Subtype.val

theorem sound_new {a b : ECIES C} (h : Agree a b) (side : Bool) : (new a b).Sound side := by
  cases side with
  | false =>
    obtain ⟨half, hegress, hingress⟩ := h.toInitiator
    exact ⟨half, [], hingress, hegress, rfl, rfl⟩
  | true =>
    obtain ⟨half, hegress, hingress⟩ := h.toResponder
    exact ⟨half, [], hingress, hegress, rfl, rfl⟩

variable {link : Link C}

theorem eq_or_eq_not (other side : Bool) : other = side ∨ other = !side := by
  cases other
  · cases side
    · exact .inl rfl
    · exact .inr rfl
  · cases side
    · exact .inr rfl
    · exact .inl rfl

theorem Sound.afterWrite (h : ∀ side, link.Sound side) {side : Bool} {half : Half}
    (hegress : (link.ends (!side)).egress = some half) (message : Message) (other : Bool) :
    (link.afterWrite side message (createFrame C message.1 half).1
      { link.ends (!side) with egress := some (createFrame C message.1 half).2 }).Sound other := by
  rcases eq_or_eq_not other side with rfl | rfl
  · obtain ⟨first, messages, hfirst, hlast, hflight, hmessages⟩ := h other
    rw [hegress] at hlast
    obtain rfl := Option.some.inj hlast
    refine ⟨first, messages ++ [message], ?_, ?_, ?_, ?_⟩
    · simp only [Link.afterWrite, Function.update_of_ne (Bool.not_ne_self other).symm, hfirst]
    · simp only [Link.afterWrite, Function.update_self, createFrames_concat]
    · simp only [Link.afterWrite, Function.update_self, hflight, createFrames_concat]
    · simp only [Link.afterWrite, Function.update_self, hmessages, List.append_assoc,
        List.map_append, List.map_singleton]
  · -- the other way has the ingress of this end, and the egress of that one
    obtain ⟨first, messages, hfirst, hlast, hflight, hmessages⟩ := h (!side)
    have hne : (!side) ≠ side := Bool.not_ne_self side
    rw [Bool.not_not] at hlast
    refine ⟨first, messages, ?_, ?_, ?_, ?_⟩
    · simp only [Link.afterWrite, Function.update_self, hfirst]
    · simp only [Link.afterWrite, Bool.not_not, Function.update_of_ne hne.symm, hlast]
    · simp only [Link.afterWrite, Function.update_of_ne hne, hflight]
    · simp only [Link.afterWrite, Function.update_of_ne hne, hmessages]

theorem Sound.afterRead (h : ∀ side, link.Sound side) {side : Bool} {half : Half}
    {message : Message} {messages : List Message}
    (hegress : (link.ends (!side)).egress = some (createFrames C half (message :: messages)).2)
    (hmessages : link.written side =
      link.read side ++ (message :: messages).map Subtype.val) (other : Bool) :
    (link.afterRead side message.1 (createFrames C (createFrame C message.1 half).2 messages).1
      { link.ends side with
        ingress := some (createFrame C message.1 half).2, bodySize := none }).Sound other := by
  rcases eq_or_eq_not other side with rfl | rfl
  · refine ⟨(createFrame C message.1 half).2, messages, ?_, ?_, ?_, ?_⟩
    · simp only [Link.afterRead, Function.update_self]
    · simp only [Link.afterRead, Function.update_of_ne (Bool.not_ne_self other), hegress,
        createFrames]
    · simp only [Link.afterRead, Function.update_self]
    · simp only [Link.afterRead, Function.update_self, hmessages, List.append_assoc,
        List.map_cons, List.singleton_append]
  · obtain ⟨first, messages', hfirst, hlast, hflight, hmessages'⟩ := h (!side)
    have hne : (!side) ≠ side := Bool.not_ne_self side
    rw [Bool.not_not] at hlast
    refine ⟨first, messages', ?_, ?_, ?_, ?_⟩
    · simp only [Link.afterRead, Function.update_of_ne hne, hfirst]
    · simp only [Link.afterRead, Bool.not_not, Function.update_self, hlast]
    · simp only [Link.afterRead, Function.update_of_ne hne, hflight]
    · simp only [Link.afterRead, Function.update_of_ne hne, hmessages']

theorem Sound.exists_step (hC : C.Correct) (h : ∀ side, link.Sound side) (event : LinkEvent) :
    ∃ link', link.step event = .ok link' ∧ ∀ side, link'.Sound side := by
  cases event with
  | write side message =>
    obtain ⟨half, messages, -, hegress, -, -⟩ := h side
    refine ⟨_, ?_, Sound.afterWrite h hegress message⟩
    rw [step, ECIES.write_eq hegress message.1]
  | read side =>
    obtain ⟨half, messages, hingress, hegress, hflight, hmessages⟩ := h side
    cases messages with
    | nil => exact ⟨link, by simp only [step, hflight, createFrames], h⟩
    | cons message messages =>
      have hread := ECIES.read_eq hingress (hC.parseFrame_createFrame message.2 half)
      refine ⟨_, ?_, Sound.afterRead h hegress hmessages⟩
      simp only [step, hflight, createFrames, hread]

theorem Sound.exists_run (hC : C.Correct) (events : List LinkEvent)
    (h : ∀ side, link.Sound side) :
    ∃ link', run step link events = .ok link' ∧ ∀ side, link'.Sound side := by
  induction events generalizing link with
  | nil => exact ⟨link, rfl, h⟩
  | cons event events ih =>
    obtain ⟨next, hstep, hnext⟩ := Sound.exists_step hC h event
    obtain ⟨last, hrun, hlast⟩ := ih hnext
    refine ⟨last, ?_, hlast⟩
    rw [run_cons, hstep]
    exact hrun

/-- **What is read is what was written**, in order, and all of it when nothing is under way. -/
def Faithful (link : Link C) : Prop :=
  ∀ side, link.read side <+: link.written side ∧
    (link.flight side = [] → link.read side = link.written side)

theorem Sound.faithful (h : ∀ side, link.Sound side) : link.Faithful := by
  intro side
  obtain ⟨half, messages, -, -, hflight, hmessages⟩ := h side
  refine ⟨hmessages ▸ List.prefix_append _ _, fun hempty => ?_⟩
  cases messages with
  | nil => rw [hmessages, List.map_nil, List.append_nil]
  | cons message messages =>
    rw [hflight] at hempty
    cases hempty

end Link

/-- **The session of two parties agrees**: the handshake is done, both ends agree, and in every run
messages come through both ways. -/
def SessionAgrees (eip8 : Bool) (own own' : Seal C) (pad pad' : Pad) (a b : Party C) : Prop :=
  ∃ a' b', handshake eip8 own own' pad pad' (initiator a b) (responder b) = .ok (a', b') ∧
    Agree a' b' ∧ ∀ events, ∃ link, run Link.step (Link.new a' b') events = .ok link ∧ link.Faithful

theorem Crypto.Correct.faithful_of_agree (h : C.Correct) {a b : ECIES C} (hagree : Agree a b)
    (events : List LinkEvent) :
    ∃ link, run Link.step (Link.new a b) events = .ok link ∧ link.Faithful := by
  obtain ⟨link, hrun, hsound⟩ := Link.Sound.exists_run h events (Link.sound_new hagree)
  exact ⟨link, hrun, Link.Sound.faithful hsound⟩

theorem Crypto.Correct.sessionAgrees_eip8 (h : C.Correct) (own own' : Seal C) (pad pad' : Pad)
    (a b : Party C) : SessionAgrees true own own' pad pad' a b := by
  obtain ⟨a', b', hdone, hagree⟩ := h.handshake_eip8 own own' pad pad' a b
  exact ⟨a', b', hdone, hagree, h.faithful_of_agree hagree⟩

theorem Crypto.Correct.sessionAgrees_plain_iff (h : C.Correct) (own own' : Seal C) (pad pad' : Pad)
    (a b : Party C) : SessionAgrees false own own' pad pad' a b ↔ FullWidth a b := by
  obtain ⟨hwide, hnarrow⟩ := h.handshake_plain own own' pad pad' a b
  constructor
  · rintro ⟨a', b', hdone, -⟩
    by_contra hshort
    exact hnarrow hshort (a', b') hdone
  · intro hfull
    obtain ⟨a', b', hdone, hagree⟩ := hwide hfull
    exact ⟨a', b', hdone, hagree, h.faithful_of_agree hagree⟩

/-- **A session agrees exactly in the list form, or with a signature of full width.** -/
theorem sessionAgrees_iff (h : C.Correct) (eip8 : Bool) (own own' : Seal C) (pad pad' : Pad)
    (a b : Party C) :
    SessionAgrees eip8 own own' pad pad' a b ↔ eip8 = true ∨ FullWidth a b := by
  cases eip8 with
  | true => exact iff_of_true (h.sessionAgrees_eip8 own own' pad pad' a b) (.inl rfl)
  | false =>
    rw [h.sessionAgrees_plain_iff own own' pad pad' a b]
    exact ⟨.inr, fun hor => hor.resolve_left Bool.false_ne_true⟩

/-! ## A session that does not agree -/

/-- Primitives that are correct: keys are read off public keys and off signatures. -/
def sampleCrypto : Crypto where
  PrivateKey := {key : Bytes // key.length = 32}
  getPublicKey := fun key => 4 :: (key.1 ++ List.replicate 32 0)
  ecdhX := fun publicKey key => .ok (xor ((publicKey.drop 1).take 32) key.1)
  ecsign := fun _ key => ⟨ofBigEndian key.1, 2 ^ 248, 0⟩
  ecdsaRecover := fun signature _ _ => .ok (4 :: (signature.take 32 ++ List.replicate 32 0))
  keccak256 := fun data => setLengthLeft data 32
  sha256 := fun data => setLengthLeft data 32
  hmacSha256 := fun key data => setLengthLeft (key ++ data) 32
  aes128Ctr := fun _ _ _ => 0
  aes256Ctr := fun _ _ _ => 0
  aes256Ecb := fun _ data => data

theorem sampleCrypto_correct : sampleCrypto.Correct where
  length_getPublicKey := by
    intro key
    simp [sampleCrypto, key.2]
  head_getPublicKey := fun _ => rfl
  exists_ecdhX := by
    intro a b
    have hkey (key : sampleCrypto.PrivateKey) :
        ((sampleCrypto.getPublicKey key).drop 1).take 32 = key.1 := List.take_left' key.2
    refine ⟨xor a.1 b.1, ?_, ?_⟩
    · exact congrArg (fun k => Except.ok (xor k b.1)) (hkey a)
    · refine (congrArg (fun k => Except.ok (xor k a.1)) (hkey b)).trans ?_
      exact congrArg Except.ok (List.zipWith_comm_of_comm UInt8.xor_comm)
  r_lt := by
    intro hash key
    have hlt := ofBigEndian_lt key.1
    rw [key.2] at hlt
    exact hlt.trans_eq (by norm_num)
  s_lt := by
    intro hash key
    exact Nat.pow_lt_pow_right (by omega) (by omega)
  recovery_lt := fun _ _ => (by omega : 0 < 4)
  ecdsaRecover_ecsign := by
    intro hash key
    have hread : setLengthLeft (Blockchain.bigIntToBytes (ofBigEndian key.1)) 32 = key.1 := by
      refine eq_of_ofBigEndian_eq (by rw [length_setLengthLeft, key.2]) ?_
      rw [ofBigEndian_setLengthLeft, Blockchain.ofBigEndian_bigIntToBytes]
      have hlt := ofBigEndian_lt key.1
      rw [key.2] at hlt
      exact Nat.mod_eq_of_lt hlt
    simp only [sampleCrypto, hread, List.take_left' key.2]
  length_keccak256 := fun data => length_setLengthLeft data 32
  length_hmacSha256 := fun key data => length_setLengthLeft (key ++ data) 32

/-- Bytes for a key that begins with `first`. -/
def sampleBytes (first byte : UInt8) : Bytes := first :: List.replicate 31 byte

theorem length_sampleBytes (first byte : UInt8) : (sampleBytes first byte).length = 32 := by
  rw [sampleBytes, List.length_cons, List.length_replicate]

/-- A private key of one byte, over and over. -/
def sampleKey (byte : UInt8) : sampleCrypto.PrivateKey :=
  ⟨sampleBytes byte byte, length_sampleBytes byte byte⟩

/-- A party with such keys, and an ephemeral key that begins with a zero. -/
def sampleParty (byte : UInt8) : Party sampleCrypto where
  privateKey := sampleKey byte
  ephemeralPrivateKey := ⟨sampleBytes 0 byte, length_sampleBytes 0 byte⟩
  nonce := sampleBytes byte byte
  length_nonce := length_sampleBytes byte byte

def sampleSeal (byte : UInt8) : Seal sampleCrypto where
  privateKey := sampleKey byte
  iv := List.replicate 16 byte
  length_iv := List.length_replicate

def samplePad : Pad := ⟨List.replicate 100 0, by rw [List.length_replicate]; omega⟩

/-- **A signature with a short number** has no session in the plain form. -/
theorem sample_not_sessionAgrees : ¬ SessionAgrees false (sampleSeal 1) (sampleSeal 2) samplePad
    samplePad (sampleParty 3) (sampleParty 4) := by
  rw [sampleCrypto_correct.sessionAgrees_plain_iff]
  intro hfull
  obtain ⟨hr, -⟩ := hfull _ rfl
  exact absurd hr (by decide +kernel)

/-- In the list form the same parties have one. -/
theorem sessionAgrees_iff_sample : SessionAgrees true (sampleSeal 1) (sampleSeal 2) samplePad
    samplePad (sampleParty 3) (sampleParty 4) ↔
      true = true ∨ FullWidth (sampleParty 3) (sampleParty 4) :=
  sessionAgrees_iff sampleCrypto_correct true (sampleSeal 1) (sampleSeal 2) samplePad samplePad
    (sampleParty 3) (sampleParty 4)

end Rlpx

end TsEthereum
