import TsEthereum.Rlpx.Handshake

/-!
# The messages of the handshake are read as they were made

Of two parties, one makes an auth message for the other, and the other an ack. In
the list form each is read with the fields it was made of, whatever the signature
and the padding are (`exists_authEIP8`, `exists_ackEIP8`). In the plain form the
ack is; the auth is if its signature takes its full width (`exists_authPlain`),
and else its length is wrong (`authPlain_short`).
-/

namespace TsEthereum

namespace Rlpx

open Blockchain (bigIntToBytes)

/-! ## Lengths -/

theorem length_encodeLength_short {len offset : ℕ} (h : len < 56) :
    (Rlp.encodeLength len offset).length = 1 := by
  rw [Rlp.encodeLength_short h, List.length_singleton]

theorem length_encodeLength_long {len offset : ℕ} (h : 56 ≤ len) (hlen : len < 256)
    (hoffset : offset ≤ 192) : (Rlp.encodeLength len offset).length = 2 := by
  rw [Rlp.encodeLength_long h (by omega) (by omega), Rlp.bigEndian_of_lt (by omega) hlen]
  rfl

theorem length_encodeBytes_short {b : Bytes} (h : 2 ≤ b.length) (hb : b.length < 56) :
    (Rlp.encodeBytes b).length = b.length + 1 := by
  rw [Rlp.encodeBytes_eq, List.length_append, length_encodeLength_short hb, Nat.add_comm]
  rintro x rfl
  rw [List.length_singleton] at h
  omega

theorem length_encodeBytes_long {b : Bytes} (h : 56 ≤ b.length) (hb : b.length < 256) :
    (Rlp.encodeBytes b).length = b.length + 2 := by
  rw [Rlp.encodeBytes_eq, List.length_append, length_encodeLength_long h hb (by omega),
    Nat.add_comm]
  rintro x rfl
  rw [List.length_singleton] at h
  omega

theorem length_encode_auth {signature id nonce : Bytes} (hsignature : signature.length = 65)
    (hid : id.length = 64) (hnonce : nonce.length = 32) :
    (Rlp.encode (.list [.bytes signature, .bytes id, .bytes nonce, .bytes [4]])).length = 169 := by
  have hall : (Rlp.encodeAll [.bytes signature, .bytes id, .bytes nonce, .bytes [4]]).length =
      167 := by
    simp only [Rlp.encodeAll, Rlp.encode, List.length_append,
      length_encodeBytes_long (b := signature) (by omega) (by omega),
      length_encodeBytes_long (b := id) (by omega) (by omega),
      length_encodeBytes_short (b := nonce) (by omega) (by omega)]
    rw [hsignature, hid, hnonce]
    rfl
  rw [Rlp.encode, List.length_append, hall, length_encodeLength_long (by omega) (by omega) le_rfl]

theorem length_encode_ack {id nonce : Bytes} (hid : id.length = 64) (hnonce : nonce.length = 32) :
    (Rlp.encode (.list [.bytes id, .bytes nonce, .bytes [4]])).length = 102 := by
  have hall : (Rlp.encodeAll [.bytes id, .bytes nonce, .bytes [4]]).length = 100 := by
    simp only [Rlp.encodeAll, Rlp.encode, List.length_append,
      length_encodeBytes_long (b := id) (by omega) (by omega),
      length_encodeBytes_short (b := nonce) (by omega) (by omega)]
    rw [hid, hnonce]
    rfl
  rw [Rlp.encode, List.length_append, hall, length_encodeLength_long (by omega) (by omega) le_rfl]

theorem length_bigIntToBytes_eq_iff {n k : ℕ} (hk : 0 < k) (h : n < 256 ^ (k + 1)) :
    (bigIntToBytes n).length = k + 1 ↔ 256 ^ k ≤ n := by
  constructor
  · intro hlength
    by_contra hlt
    have hle := length_intToBytes_le hk (Nat.not_le.1 hlt)
    rw [intToBytes, hlength] at hle
    omega
  · intro hle
    have hupper := length_intToBytes_le (Nat.succ_pos k) h
    have hvalue := ofBigEndian_lt (bigIntToBytes n)
    rw [Blockchain.ofBigEndian_bigIntToBytes] at hvalue
    have hlower : k < (bigIntToBytes n).length :=
      (Nat.pow_lt_pow_iff_right (by omega : 1 < 256)).1 (hle.trans_lt hvalue)
    rw [intToBytes] at hupper
    omega

theorem setLengthLeft_of_length {b : Bytes} {length : ℕ} (h : b.length = length) :
    setLengthLeft b length = b := by
  rw [setLengthLeft, if_neg (by omega), h, Nat.sub_self, List.drop_zero]

theorem size_bytes {n : ℕ} (h : 256 ≤ n) (hn : n < 1024) :
    (intToBytes n).length = 2 ∧ bytesToInt (intToBytes n) = n ∧ (intToBytes n).take 1 ≠ [4] := by
  have hlength : (intToBytes n).length = 2 :=
    (length_bigIntToBytes_eq_iff (k := 1) (by omega) (by omega)).2 (by omega)
  refine ⟨hlength, bytesToInt_intToBytes n, fun hfour => ?_⟩
  have hvalue := bytesToInt_intToBytes n
  match hbytes : intToBytes n, hlength with
  | [a, b], _ =>
    rw [hbytes] at hfour hvalue
    have ha : a = 4 := (List.cons.inj hfour).1
    subst ha
    have hsum : bytesToInt [4, b] = b.toNat + 256 * 4 := rfl
    omega

/-! ## The parties -/

/-- **A party**: its keys, and its nonce. -/
structure Party (C : Crypto) where
  privateKey : C.PrivateKey
  ephemeralPrivateKey : C.PrivateKey
  nonce : Bytes
  length_nonce : nonce.length = 32

variable {C : Crypto}

namespace Party

/-- Its public keys. -/
def publicKey (party : Party C) : Bytes := C.getPublicKey party.privateKey

def ephemeralPublicKey (party : Party C) : Bytes := C.getPublicKey party.ephemeralPrivateKey

end Party

/-- What `a` signs for `b`, where `x` is the secret of their static keys. -/
def authSignature (a : Party C) (x : Bytes) : Signature :=
  C.ecsign (xor x a.nonce) a.ephemeralPrivateKey

/-- **The signature of an auth message takes its full width**, whatever the static secret. -/
def FullWidth (a b : Party C) : Prop :=
  ∀ x, C.ecdhX b.publicKey a.privateKey = .ok x →
    2 ^ 248 ≤ (authSignature a x).r ∧ 2 ^ 248 ≤ (authSignature a x).s

theorem Crypto.Correct.id2pk_pk2id (h : C.Correct) (key : C.PrivateKey) :
    id2pk (pk2id (C.getPublicKey key)) = C.getPublicKey key := by
  have hhead := h.head_getPublicKey key
  cases hkey : C.getPublicKey key with
  | nil =>
    rw [hkey] at hhead
    cases hhead
  | cons byte id =>
    rw [hkey] at hhead
    rw [pk2id, id2pk, List.drop_one, List.tail_cons, (List.cons.inj hhead).1]

theorem Crypto.Correct.length_pk2id (h : C.Correct) (key : C.PrivateKey) :
    (pk2id (C.getPublicKey key)).length = 64 := by
  rw [pk2id, List.length_drop, h.length_getPublicKey]

theorem Crypto.Correct.recovery_toNat (h : C.Correct) (hash : Bytes) (key : C.PrivateKey) :
    (UInt8.ofNat (C.ecsign hash key).recovery).toNat = (C.ecsign hash key).recovery :=
  toNat_ofNat (by have := h.recovery_lt hash key; omega)

/-! ## Fields -/

/-- The bytes of a signature, each number in 32. -/
def Signature.bytes (sig : Signature) : Bytes :=
  setLengthLeft (bigIntToBytes sig.r) 32 ++ setLengthLeft (bigIntToBytes sig.s) 32

theorem Signature.length_bytes (sig : Signature) : sig.bytes.length = 64 := by
  rw [bytes, List.length_append, length_setLengthLeft, length_setLengthLeft]

/-- What `a` writes into an auth message, with the hash of its ephemeral key or without. -/
def authFields (a : Party C) (x : Bytes) (heId : Option Bytes) : AuthFields :=
  { signature := (authSignature a x).bytes, recoveryId := (authSignature a x).recovery
    heId := heId, remotePublicKey := a.publicKey, remoteNonce := a.nonce }

theorem Crypto.Correct.length_authList (h : C.Correct) (a : Party C) (x : Bytes) :
    (Rlp.encode (.list [
      .bytes ((authSignature a x).bytes ++ [UInt8.ofNat (authSignature a x).recovery]),
      .bytes (pk2id a.publicKey), .bytes a.nonce, .bytes [4]])).length = 169 := by
  refine length_encode_auth ?_ (h.length_pk2id a.privateKey) a.length_nonce
  rw [List.length_append, (authSignature a x).length_bytes, List.length_singleton]

theorem Crypto.Correct.listAuthFields_encode (h : C.Correct) (a : Party C) (x pad : Bytes) :
    listAuthFields (Rlp.encode (.list [
      .bytes ((authSignature a x).bytes ++ [UInt8.ofNat (authSignature a x).recovery]),
      .bytes (pk2id a.publicKey), .bytes a.nonce, .bytes [4]]) ++ pad) =
      .ok (authFields a x none) := by
  have hsignature := (authSignature a x).length_bytes
  have hlength := h.length_authList a x
  have hrecovery : byteAt
      ((authSignature a x).bytes ++ [UInt8.ofNat (authSignature a x).recovery]) 64 =
        .ok (authSignature a x).recovery := by
    rw [byteAt, List.getElem?_append_right (by omega), hsignature]
    exact congrArg Except.ok (h.recovery_toNat _ _)
  rw [listAuthFields, unstrictDecode_encode (by rw [hlength]; omega)]
  simp only [ok_bind, field, List.getElem?_cons_zero, List.getElem?_cons_succ, hrecovery, subarray,
    List.take_left' hsignature, List.drop_zero, authFields]
  rw [Party.publicKey, h.id2pk_pk2id]

theorem Crypto.Correct.plainAuthFields_append (h : C.Correct) (a : Party C) (x : Bytes) :
    plainAuthFields ((authSignature a x).bytes ++ [UInt8.ofNat (authSignature a x).recovery] ++
      C.keccak256 (pk2id a.ephemeralPublicKey) ++ pk2id a.publicKey ++ a.nonce ++ [0]) =
      .ok (authFields a x (some (C.keccak256 (pk2id a.ephemeralPublicKey)))) := by
  have hsignature := (authSignature a x).length_bytes
  have hhash := h.length_keccak256 (pk2id a.ephemeralPublicKey)
  have hid : (pk2id a.publicKey).length = 64 := h.length_pk2id a.privateKey
  have hnonce := a.length_nonce
  have hrecovery := h.recovery_toNat (xor x a.nonce) a.ephemeralPrivateKey
  have hpk : id2pk (pk2id a.publicKey) = a.publicKey := h.id2pk_pk2id a.privateKey
  simp only [authFields, authSignature] at *
  generalize (C.ecsign (xor x a.nonce) a.ephemeralPrivateKey).bytes = signature at *
  generalize UInt8.ofNat (C.ecsign (xor x a.nonce) a.ephemeralPrivateKey).recovery = recovery at *
  generalize C.keccak256 (pk2id a.ephemeralPublicKey) = hash at *
  generalize pk2id a.publicKey = id at *
  generalize a.nonce = nonce at *
  -- each field begins where those before it end
  have hplaces : ∀ (front mid back : Bytes) (i j : ℕ), front.length = i →
      front.length + mid.length = j → subarray (front ++ mid ++ back) i j = mid := by
    rintro front mid back i j rfl rfl
    rw [subarray, ← List.length_append, List.take_left, List.drop_left]
  have hlength : (signature ++ [recovery] ++ hash ++ id ++ nonce ++ [0]).length = 194 := by
    simp only [List.length_append, List.length_singleton]
    omega
  have hbyte : byteAt (signature ++ [recovery] ++ hash ++ id ++ nonce ++ [0]) 64 =
      .ok recovery.toNat := by
    simp only [byteAt, List.append_assoc]
    rw [List.getElem?_append_right (by omega), hsignature]
    rfl
  rw [plainAuthFields, hlength, assertNumberEq_self, ok_bind, hbyte, ok_bind, hrecovery]
  have hsig := hplaces [] signature ([recovery] ++ hash ++ id ++ nonce ++ [0]) 0 64 rfl (by simpa)
  have hhe := hplaces (signature ++ [recovery]) hash (id ++ nonce ++ [0]) 65 97
    (by simp [hsignature]) (by simp [hsignature, hhash])
  have hidAt := hplaces (signature ++ [recovery] ++ hash) id (nonce ++ [0]) 97 161
    (by simp [hsignature, hhash]) (by simp [hsignature, hhash, hid])
  have hnonceAt := hplaces (signature ++ [recovery] ++ hash ++ id) nonce [0] 161 193
    (by simp [hsignature, hhash, hid]) (by simp [hsignature, hhash, hid, hnonce])
  simp only [List.nil_append, List.append_assoc] at hsig hhe hidAt hnonceAt ⊢
  rw [hsig, hhe, hidAt, hnonceAt, hpk]

/-! ## Auth -/

/-- What `b` reads of `a`, where `secret` is that of their ephemeral keys. -/
def authResult (a : Party C) (auth secret : Bytes) : AuthResult :=
  ⟨auth, a.publicKey, a.nonce, secret, a.ephemeralPublicKey⟩

theorem Crypto.Correct.parseAuthPlain_of_fields (h : C.Correct) (texts : Texts) {a b : Party C}
    {x secret data decrypted : Bytes} {gotEIP8Auth : Bool} {sharedMacData heId : Option Bytes}
    (hopen : decryptMessage C texts.header data b.privateKey sharedMacData = .ok decrypted)
    (hfields : readAuthFields gotEIP8Auth decrypted = .ok (authFields a x heId))
    (hheId : ∀ hash, heId = some hash → hash = C.keccak256 (pk2id a.ephemeralPublicKey))
    (hx : C.ecdhX a.publicKey b.privateKey = .ok x)
    (hsecret : C.ecdhX a.ephemeralPublicKey b.ephemeralPrivateKey = .ok secret) :
    parseAuthPlain C texts data b.privateKey b.ephemeralPrivateKey gotEIP8Auth sharedMacData =
      .ok (authResult a (sharedMacData.getD [] ++ data) secret) := by
  have hrecover : C.ecdsaRecover (authSignature a x).bytes (authSignature a x).recovery
      (xor x a.nonce) = .ok a.ephemeralPublicKey :=
    h.ecdsaRecover_ecsign (xor x a.nonce) a.ephemeralPrivateKey
  have hcheck : checkEphemeral C heId a.ephemeralPublicKey texts.ephemeralHash = .ok () := by
    cases heId with
    | none => rfl
    | some hash =>
      rw [hheId hash rfl]
      exact assertBytesEq_self _ _
  simp only [parseAuthPlain, hopen, hfields, ok_bind, authFields, hx, hrecover, hsecret, hcheck,
    authResult]

theorem Crypto.Correct.exists_authEIP8 (h : C.Correct) (texts : Texts) (own : Seal C) (pad : Pad)
    (a b : Party C) {secret : Bytes}
    (hsecret : C.ecdhX a.ephemeralPublicKey b.ephemeralPrivateKey = .ok secret) :
    ∃ auth, createAuthEIP8 C own pad b.publicKey a.privateKey a.nonce a.ephemeralPrivateKey
        a.publicKey = .ok auth ∧
      bytesToInt (auth.take 2) + 2 = auth.length ∧ 307 ≤ auth.length ∧ auth.take 1 ≠ [4] ∧
      parseAuthEIP8 C texts auth b.privateKey b.ephemeralPrivateKey true =
        .ok (authResult a auth secret) := by
  obtain ⟨x, hx, hx'⟩ := h.exists_ecdhX a.privateKey b.privateKey
  have hpad := pad.2
  have hlength := h.length_authList a x
  have hfields := h.listAuthFields_encode a x pad.1
  generalize hlist : Rlp.encode (.list [
    .bytes ((authSignature a x).bytes ++ [UInt8.ofNat (authSignature a x).recovery]),
    .bytes (pk2id a.publicKey), .bytes a.nonce, .bytes [4]]) = list at hlength hfields
  have hmsg : (list ++ pad.1).length = 169 + pad.1.length := by rw [List.length_append, hlength]
  obtain ⟨hsize, hvalue, hfour⟩ := size_bytes (n := (list ++ pad.1).length + 113) (by omega)
    (by omega)
  generalize hmac : intToBytes ((list ++ pad.1).length + 113) = sharedMacData at hsize hvalue hfour
  obtain ⟨message, hseal, hmessage, -, hopen⟩ :=
    h.exists_encryptMessage own (list ++ pad.1) b.privateKey (some sharedMacData) texts.header
  have htotal : (sharedMacData ++ message).length = (list ++ pad.1).length + 113 + 2 := by
    simp only [List.length_append] at hmessage ⊢
    omega
  refine ⟨sharedMacData ++ message, ?_, ?_, ?_, ?_, ?_⟩
  · simp only [authSignature, Signature.bytes] at hlist
    simp only [createAuthEIP8, Party.publicKey, hx', ok_bind] at hlist ⊢
    simp only [hlist, hmac, hseal, ok_bind]
  · rw [List.take_left' hsize, hvalue, htotal]
  · omega
  · rwa [List.take_append_of_le_length (by omega)]
  · rw [parseAuthEIP8, List.take_left' hsize, List.drop_left' hsize, hvalue]
    have hread : readAuthFields true (list ++ pad.1) = .ok (authFields a x none) := hfields
    have hnone : ∀ hash, none = some hash → hash = C.keccak256 (pk2id a.ephemeralPublicKey) := by
      rintro hash ⟨⟩
    rw [htotal, assertNumberEq_self, ok_bind,
      h.parseAuthPlain_of_fields texts hopen hread hnone hx hsecret]
    rfl

/-- What is sealed in the plain form. -/
def plainAuth (a : Party C) (x : Bytes) : Bytes :=
  bigIntToBytes (authSignature a x).r ++ bigIntToBytes (authSignature a x).s ++
    [UInt8.ofNat (authSignature a x).recovery] ++ C.keccak256 (pk2id a.ephemeralPublicKey) ++
    pk2id a.publicKey ++ a.nonce ++ [0]

/-- **The plain form of an auth message** is made; it is read as it was made if the signature
takes its full width. -/
theorem Crypto.Correct.exists_authPlain (h : C.Correct) (texts : Texts) (own : Seal C)
    (a b : Party C) {secret : Bytes}
    (hsecret : C.ecdhX a.ephemeralPublicKey b.ephemeralPrivateKey = .ok secret) :
    ∃ auth, createAuthNonEIP8 C own b.publicKey a.privateKey a.nonce a.ephemeralPrivateKey
        a.ephemeralPublicKey a.publicKey = .ok auth ∧ auth.take 1 = [4] ∧ 1 < auth.length ∧
      (FullWidth a b → auth.length = 307 ∧
        parseAuthPlain C texts auth b.privateKey b.ephemeralPrivateKey false none =
          .ok (authResult a auth secret)) ∧
      (¬ FullWidth a b → auth.length < 307 ∧ ∀ result,
        parseAuthPlain C texts auth b.privateKey b.ephemeralPrivateKey false none ≠ .ok result) := by
  obtain ⟨x, hx, hx'⟩ := h.exists_ecdhX a.privateKey b.privateKey
  have hfull : FullWidth a b ↔
      2 ^ 248 ≤ (authSignature a x).r ∧ 2 ^ 248 ≤ (authSignature a x).s := by
    constructor
    · intro hwide
      exact hwide x hx'
    · intro hwide x' hx''
      rw [Party.publicKey, hx'] at hx''
      rwa [← Except.ok.inj hx'']
  have hr := length_bigIntToBytes_eq_iff (k := 31) (by omega)
    (show (authSignature a x).r < 256 ^ 32 by
      have := h.r_lt (xor x a.nonce) a.ephemeralPrivateKey
      rw [authSignature]
      omega)
  have hs := length_bigIntToBytes_eq_iff (k := 31) (by omega)
    (show (authSignature a x).s < 256 ^ 32 by
      have := h.s_lt (xor x a.nonce) a.ephemeralPrivateKey
      rw [authSignature]
      omega)
  obtain ⟨message, hseal, hmessage, hfour, hopen⟩ :=
    h.exists_encryptMessage own (plainAuth a x) b.privateKey none texts.header
  have hlength : (plainAuth a x).length = (bigIntToBytes (authSignature a x).r).length +
      (bigIntToBytes (authSignature a x).s).length + 130 := by
    simp only [plainAuth, List.length_append, List.length_singleton, h.length_keccak256,
      Party.publicKey, h.length_pk2id, a.length_nonce]
  refine ⟨message, ?_, hfour, by omega, ?_, ?_⟩
  · simp only [plainAuth, authSignature] at hseal
    simp only [createAuthNonEIP8, Party.publicKey, hx', ok_bind] at hseal ⊢
    exact hseal
  · intro hwide
    obtain ⟨hrwide, hswide⟩ := hfull.1 hwide
    have hrlength := hr.2 (by omega)
    have hslength := hs.2 (by omega)
    refine ⟨by omega, ?_⟩
    have hplain : plainAuth a x =
        (authSignature a x).bytes ++ [UInt8.ofNat (authSignature a x).recovery] ++
          C.keccak256 (pk2id a.ephemeralPublicKey) ++ pk2id a.publicKey ++ a.nonce ++ [0] := by
      rw [plainAuth, Signature.bytes, setLengthLeft_of_length hrlength,
        setLengthLeft_of_length hslength]
    have hfields : readAuthFields false (plainAuth a x) =
        .ok (authFields a x (some (C.keccak256 (pk2id a.ephemeralPublicKey)))) := by
      rw [hplain]
      exact h.plainAuthFields_append a x
    refine h.parseAuthPlain_of_fields texts hopen hfields ?_ hx hsecret
    rintro hash ⟨⟩
    rfl
  · intro hnarrow
    -- one of the numbers is short, and with it the message
    have hshort : (plainAuth a x).length < 194 := by
      have hrle := length_intToBytes_le (n := (authSignature a x).r) (k := 32) (by omega) (by
        have := h.r_lt (xor x a.nonce) a.ephemeralPrivateKey
        rw [authSignature]
        omega)
      have hsle := length_intToBytes_le (n := (authSignature a x).s) (k := 32) (by omega) (by
        have := h.s_lt (xor x a.nonce) a.ephemeralPrivateKey
        rw [authSignature]
        omega)
      rw [intToBytes] at hrle hsle
      by_contra hlong
      refine hnarrow (hfull.2 ⟨?_, ?_⟩)
      · have hrwide := hr.1 (by omega)
        omega
      · have hswide := hs.1 (by omega)
        omega
    refine ⟨by omega, fun result hresult => ?_⟩
    obtain ⟨text, htext⟩ : ∃ text, assertNumberEq (plainAuth a x).length 194
        "invalid packet length" = .error text := ⟨_, if_neg (by omega)⟩
    have hfields : readAuthFields false (plainAuth a x) = .error text := by
      rw [readAuthFields, if_neg (by decide), plainAuthFields, htext, error_bind]
    simp only [parseAuthPlain, hopen, hfields, ok_bind, error_bind] at hresult
    cases hresult

/-! ## Ack -/

/-- What `a` reads of `b`, where `secret` is that of their ephemeral keys. -/
def ackResult (b : Party C) (secret : Bytes) : AckResult :=
  ⟨b.ephemeralPublicKey, b.nonce, secret⟩

theorem parseAckPlain_of_fields (texts : Texts) {a b : Party C} {secret data decrypted : Bytes}
    {gotEIP8Ack : Bool} {sharedMacData : Option Bytes}
    (hopen : decryptMessage C texts.header data a.privateKey sharedMacData = .ok decrypted)
    (hfields : readAckFields gotEIP8Ack decrypted = .ok (b.ephemeralPublicKey, b.nonce))
    (hsecret : C.ecdhX b.ephemeralPublicKey a.ephemeralPrivateKey = .ok secret) :
    parseAckPlain C texts data a.privateKey a.ephemeralPrivateKey gotEIP8Ack sharedMacData =
      .ok (ackResult b secret) := by
  simp only [parseAckPlain, hopen, hfields, ok_bind, hsecret, ackResult]

theorem Crypto.Correct.exists_ackEIP8 (h : C.Correct) (texts : Texts) (own : Seal C) (pad : Pad)
    (a b : Party C) {secret : Bytes}
    (hsecret : C.ecdhX b.ephemeralPublicKey a.ephemeralPrivateKey = .ok secret) :
    ∃ ack, createAckEIP8 C own pad b.ephemeralPublicKey a.publicKey b.nonce = .ok ack ∧
      bytesToInt (ack.take 2) + 2 = ack.length ∧ 210 ≤ ack.length ∧ ack.take 1 ≠ [4] ∧
      parseAckEIP8 C texts ack a.privateKey a.ephemeralPrivateKey true =
        .ok (ackResult b secret) := by
  have hpad := pad.2
  have hlength := length_encode_ack (h.length_pk2id b.ephemeralPrivateKey) b.length_nonce
  have hread : readAckFields true (Rlp.encode (.list [
      .bytes (pk2id b.ephemeralPublicKey), .bytes b.nonce, .bytes [4]]) ++ pad.1) =
      .ok (b.ephemeralPublicKey, b.nonce) := by
    have hpk : id2pk (pk2id b.ephemeralPublicKey) = b.ephemeralPublicKey :=
      h.id2pk_pk2id b.ephemeralPrivateKey
    rw [readAckFields, if_pos rfl, listAckFields, unstrictDecode_encode (by
      rw [Party.ephemeralPublicKey, hlength]; omega)]
    simp only [ok_bind, field, List.getElem?_cons_zero, List.getElem?_cons_succ, hpk]
  generalize hlist : Rlp.encode (.list [
    .bytes (pk2id b.ephemeralPublicKey), .bytes b.nonce, .bytes [4]]) = list at hread
  rw [← Party.ephemeralPublicKey, hlist] at hlength
  have hmsg : (list ++ pad.1).length = 102 + pad.1.length := by rw [List.length_append, hlength]
  obtain ⟨hsize, hvalue, hfour⟩ := size_bytes (n := (list ++ pad.1).length + 113) (by omega)
    (by omega)
  generalize hmac : intToBytes ((list ++ pad.1).length + 113) = sharedMacData at hsize hvalue hfour
  obtain ⟨message, hseal, hmessage, -, hopen⟩ :=
    h.exists_encryptMessage own (list ++ pad.1) a.privateKey (some sharedMacData) texts.header
  have htotal : (sharedMacData ++ message).length = (list ++ pad.1).length + 113 + 2 := by
    simp only [List.length_append] at hmessage ⊢
    omega
  refine ⟨sharedMacData ++ message, ?_, ?_, by omega, ?_, ?_⟩
  · simp only [createAckEIP8, Party.publicKey, hlist, hmac, hseal, ok_bind]
  · rw [List.take_left' hsize, hvalue, htotal]
  · rwa [List.take_append_of_le_length (by omega)]
  · rw [parseAckEIP8, List.take_left' hsize, List.drop_left' hsize, hvalue, htotal,
      assertNumberEq_self, ok_bind, parseAckPlain_of_fields texts hopen hread hsecret]

theorem Crypto.Correct.exists_ackPlain (h : C.Correct) (texts : Texts) (own : Seal C)
    (a b : Party C) {secret : Bytes}
    (hsecret : C.ecdhX b.ephemeralPublicKey a.ephemeralPrivateKey = .ok secret) :
    ∃ ack, createAckOld C own b.ephemeralPublicKey a.publicKey b.nonce = .ok ack ∧
      ack.take 1 = [4] ∧ ack.length = 210 ∧
      parseAckPlain C texts ack a.privateKey a.ephemeralPrivateKey false none =
        .ok (ackResult b secret) := by
  have hid : (pk2id b.ephemeralPublicKey).length = 64 := h.length_pk2id b.ephemeralPrivateKey
  have hpk : id2pk (pk2id b.ephemeralPublicKey) = b.ephemeralPublicKey :=
    h.id2pk_pk2id b.ephemeralPrivateKey
  have hnonce := b.length_nonce
  obtain ⟨message, hseal, hmessage, hfour, hopen⟩ := h.exists_encryptMessage own
    (pk2id b.ephemeralPublicKey ++ b.nonce ++ [0]) a.privateKey none texts.header
  have hlength : (pk2id b.ephemeralPublicKey ++ b.nonce ++ [0]).length = 97 := by
    simp only [List.length_append, List.length_singleton]
    omega
  have hread : readAckFields false (pk2id b.ephemeralPublicKey ++ b.nonce ++ [0]) =
      .ok (b.ephemeralPublicKey, b.nonce) := by
    have hlast : byteAt (pk2id b.ephemeralPublicKey ++ b.nonce ++ [0]) 96 = .ok 0 := by
      rw [byteAt, List.getElem?_append_right (by rw [List.length_append]; omega),
        List.length_append, hid, hnonce]
      rfl
    rw [readAckFields, if_neg (by decide), plainAckFields, hlength, assertNumberEq_self, ok_bind,
      hlast, ok_bind, assertNumberEq_self, ok_bind]
    simp only [subarray, List.append_assoc, List.take_left' hid, List.drop_zero, hpk]
    rw [← List.append_assoc, List.take_left' (by rw [List.length_append]; omega),
      List.drop_left' hid]
  exact ⟨message, hseal, hfour, by omega, parseAckPlain_of_fields texts hopen hread hsecret⟩

end Rlpx

end TsEthereum
