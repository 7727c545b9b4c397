import TsEthereum.Kademlia.Ip
import TsEthereum.Kademlia.KBucket
import TsEthereum.Rlpx.Ecies

/-!
# Discovery messages

`encode` and `decode` of `message.ts`. What is in a message is put in a list and signed; the key
that it was signed with is recovered from the signature. Each of the four messages comes back with
the public key of its sender (`message_comes_back`), as every field does.
-/

namespace TsEthereum

namespace Kademlia

open Blockchain (bytesToHex bigIntToBytes)
open Rlpx (Crypto typeError unstrictDecode assertBytesEq)

/-! ## Fields -/

/-- An element of a decoded list. -/
def item (payload : NestedUint8Array) (index : ℕ) : Except String NestedUint8Array :=
  match payload with
  | .bytes _ => .error typeError
  | .list xs =>
    match xs[index]? with
    | some x => .ok x
    | none => .error typeError

@[simp] theorem item_zero (x : NestedUint8Array) (xs : List NestedUint8Array) :
    item (.list (x :: xs)) 0 = .ok x := rfl

@[simp] theorem item_succ (x : NestedUint8Array) (xs : List NestedUint8Array) (i : ℕ) :
    item (.list (x :: xs)) (i + 1) = item (.list xs) i := rfl

def intToBytes (i : ℕ) : Except String Bytes :=
  if i < 2 ^ 53 then .ok (bigIntToBytes i)
  else .error ("Received an invalid integer type: " ++ toString i)

/-- `bytesToInt`; like every field, it is not a list. -/
def bytesToInt : NestedUint8Array → Except String ℕ
  | .bytes bytes =>
    if ofBigEndian bytes < 2 ^ 53 then .ok (ofBigEndian bytes)
    else .error "Number exceeds 53 bits"
  | .list _ => .error typeError

/-- `bytesToUtf8`, without the mark in front. What is not ASCII is in no address, and one
character here. -/
def bytesToUtf8 (bytes : Bytes) : Text :=
  (if bytes.take 3 = [0xef, 0xbb, 0xbf] then bytes.drop 3 else bytes).map fun byte =>
    if byte.toNat < 128 then Char.ofNat byte.toNat else Char.ofNat 0xfffd

/-- `timestamp.encode`, of a timestamp that is given: `setUint32`. -/
def Timestamp.encode (value : ℕ) : Bytes := setLengthLeft (bigEndian value) 4

def Timestamp.decode : NestedUint8Array → Except String ℕ
  | .bytes bytes =>
    if bytes.length ≠ 4 then .error ("Invalid timestamp bytes: " ++ bytesToHex bytes)
    else .ok (ofBigEndian bytes)
  | .list _ => .error typeError

def Address.encode : Option String → Except String Bytes
  | some value =>
    if isV4Format value.toList then ipToBytes value.toList
    else if isV6Format value.toList then ipToBytes value.toList
    else .error ("Invalid address: " ++ value)
  | none => .error "Invalid address: undefined"

def Address.decode : NestedUint8Array → Except String String
  | .bytes bytes =>
    if bytes.length = 4 then .ok (String.ofList (ipToString bytes))
    else if bytes.length = 16 then .ok (String.ofList (ipToString bytes))
    else
      let str := bytesToUtf8 bytes
      if isV4Format str || isV6Format str then .ok (String.ofList str)
      else .error ("Invalid address bytes: " ++ bytesToHex bytes)
  | .list _ => .error typeError

/-- `port.encode`, of `port ?? null`. -/
def Port.encode : Port → Except String Bytes
  | .number value =>
    if 0 < value % 2 ^ 32 / 2 ^ 16 then .error ("Invalid port: " ++ toString value)
    else .ok (wordBytes value)
  | _ => .ok []

def Port.decode : NestedUint8Array → Except String Port
  | .bytes [] => .ok .null
  | bytes => (bytesToInt bytes).map .number

theorem Port.decode_cons (byte : UInt8) (bytes : Bytes) : Port.decode (.bytes (byte :: bytes)) =
    (bytesToInt (.bytes (byte :: bytes))).map .number := rfl

def Endpoint.encode (obj : PeerInfo) : Except String (List NestedUint8Array) := do
  let address ← Address.encode obj.address
  let udpPort ← Port.encode obj.udpPort
  let tcpPort ← Port.encode obj.tcpPort
  .ok [.bytes address, .bytes udpPort, .bytes tcpPort]

def Endpoint.decode (payload : NestedUint8Array) : Except String PeerInfo := do
  let address ← Address.decode (← item payload 0)
  let udpPort ← Port.decode (← item payload 1)
  let tcpPort ← Port.decode (← item payload 2)
  .ok ⟨none, some address, udpPort, tcpPort, none⟩

/-! ## Messages -/

/-- **A message**: what it is of, and its data. A hash or an id is not looked at; `sender` and
`receiver` are `from` and `to`. -/
inductive Message
  | ping (version : ℕ) (sender receiver : PeerInfo) (timestamp : ℕ)
  | pong (receiver : PeerInfo) (hash : NestedUint8Array) (timestamp : ℕ)
  | findneighbours (id : NestedUint8Array) (timestamp : ℕ)
  | neighbours (peers : List PeerInfo) (timestamp : ℕ)

/-- `MessageTypes.byName`. -/
def Message.type : Message → UInt8
  | ping .. => 1
  | pong .. => 2
  | findneighbours .. => 3
  | neighbours .. => 4

/-- A peer of `neighbours.encode`. -/
def encodePeer (peer : PeerInfo) : Except String NestedUint8Array := do
  let ep ← Endpoint.encode peer
  match peer.id with
  | none => .error "Peer must have id for neighbours message"
  | some id => .ok (.list (ep ++ [.bytes id]))

/-- `messages[typename].encode`. -/
def Message.payload : Message → Except String NestedUint8Array
  | ping version sender receiver timestamp => do
    let version ← intToBytes version
    let sender ← Endpoint.encode sender
    let receiver ← Endpoint.encode receiver
    .ok (.list [.bytes version, .list sender, .list receiver, .bytes (Timestamp.encode timestamp)])
  | pong receiver hash timestamp => do
    let receiver ← Endpoint.encode receiver
    .ok (.list [.list receiver, hash, .bytes (Timestamp.encode timestamp)])
  | findneighbours id timestamp => .ok (.list [id, .bytes (Timestamp.encode timestamp)])
  | neighbours peers timestamp => do
    let peers ← peers.mapM encodePeer
    .ok (.list [.list peers, .bytes (Timestamp.encode timestamp)])

/-- A peer of `neighbours.decode`; one without an id in bytes is none. -/
def decodePeer : NestedUint8Array → Except String PeerInfo
  | .list data =>
    if data.length < 4 then .error "Invalid neighbours peer data"
    else do
      let endpointData ← Endpoint.decode (.list (data.take 3))
      let id ← Rlpx.field (.list data) 3
      .ok { endpointData with id := some id }
  | .bytes data => .error (if data.length < 4 then "Invalid neighbours peer data" else typeError)

/-- `payload[0].map`: an empty string has no bytes that are mapped. -/
def elements : NestedUint8Array → Except String (List NestedUint8Array)
  | .list xs => .ok xs
  | .bytes [] => .ok []
  | .bytes _ => .error typeError

def Ping.decode (payload : NestedUint8Array) : Except String Message := do
  let version ← bytesToInt (← item payload 0)
  let sender ← Endpoint.decode (← item payload 1)
  let receiver ← Endpoint.decode (← item payload 2)
  let timestamp ← Timestamp.decode (← item payload 3)
  .ok (.ping version sender receiver timestamp)

def Pong.decode (payload : NestedUint8Array) : Except String Message := do
  let receiver ← Endpoint.decode (← item payload 0)
  let hash ← item payload 1
  let timestamp ← Timestamp.decode (← item payload 2)
  .ok (.pong receiver hash timestamp)

def FindNeighbours.decode (payload : NestedUint8Array) : Except String Message := do
  let id ← item payload 0
  let timestamp ← Timestamp.decode (← item payload 1)
  .ok (.findneighbours id timestamp)

def Neighbours.decode (payload : NestedUint8Array) : Except String Message := do
  let data ← elements (← item payload 0)
  let peers ← data.mapM decodePeer
  let timestamp ← Timestamp.decode (← item payload 1)
  .ok (.neighbours peers timestamp)

/-- `messages[MessageTypes.byType[type]].decode`. -/
def decodeData (type : UInt8) (payload : Except String NestedUint8Array) : Except String Message :=
  match type.toNat with
  | 1 => payload >>= Ping.decode
  | 2 => payload >>= Pong.decode
  | 3 => payload >>= FindNeighbours.decode
  | 4 => payload >>= Neighbours.decode
  | _ => .error ("Invalid type: " ++ toString type)

theorem decodeData_ping (payload : NestedUint8Array) :
    decodeData 1 (.ok payload) = Ping.decode payload := rfl

theorem decodeData_pong (payload : NestedUint8Array) :
    decodeData 2 (.ok payload) = Pong.decode payload := rfl

theorem decodeData_findneighbours (payload : NestedUint8Array) :
    decodeData 3 (.ok payload) = FindNeighbours.decode payload := rfl

theorem decodeData_neighbours (payload : NestedUint8Array) :
    decodeData 4 (.ok payload) = Neighbours.decode payload := rfl

/-! ## The wire -/

section

variable (C : Crypto)

/-- **`encode`**: the hash, the signature, how to recover, the type and the data. -/
def encode (message : Message) (privateKey : C.PrivateKey) : Except String Bytes := do
  let encodedMsg ← message.payload
  let typedata := message.type :: Rlp.encode encodedMsg
  let sig := C.ecsign (C.keccak256 typedata) privateKey
  let hashdata := setLengthLeft (bigIntToBytes sig.r) 32 ++
    (setLengthLeft (bigIntToBytes sig.s) 32 ++ UInt8.ofNat sig.recovery :: typedata)
  .ok (C.keccak256 hashdata ++ hashdata)

/-- A `DecodedMessage`. -/
structure DecodedMessage where
  message : Message
  publicKey : Bytes
  hash : Bytes

/-- **`decode`**. -/
def decode (bytes : Bytes) : Except String DecodedMessage := do
  assertBytesEq (bytes.take 32) (C.keccak256 (bytes.drop 32)) "Hash verification failed"
  match bytes.drop 97 with
  | [] => .error "Invalid type: undefined"
  | type :: payload =>
    let message ← decodeData type (unstrictDecode payload)
    let publicKey ← C.ecdsaRecover ((bytes.drop 32).take 64) (bytes.getD 96 0).toNat
      (C.keccak256 (bytes.drop 97))
    .ok ⟨message, publicKey, bytes.take 32⟩

end

/-! ## What a message has a place for -/

/-- A port that is sent. -/
def Port.IsSent : Port → Prop
  | undefined => False
  | null => True
  | number port => port < 65536

/-- **An endpoint**, whose address is the text of one. -/
structure PeerInfo.IsEndpoint (peer : PeerInfo) : Prop where
  address : ∃ bytes : Bytes, (bytes.length = 4 ∨ bytes.length = 16) ∧
    peer.address = some (String.ofList (ipToString bytes))
  udpPort : peer.udpPort.IsSent
  tcpPort : peer.tcpPort.IsSent
  vectorClock : peer.vectorClock = none

/-- **Data that a message has a place for**: an endpoint is sent without an id, and a neighbour
with one. -/
def Message.IsSent : Message → Prop
  | ping version sender receiver timestamp => version < 2 ^ 53 ∧
    (sender.IsEndpoint ∧ sender.id = none) ∧ (receiver.IsEndpoint ∧ receiver.id = none) ∧
      timestamp < 2 ^ 32
  | pong receiver _ timestamp => (receiver.IsEndpoint ∧ receiver.id = none) ∧ timestamp < 2 ^ 32
  | findneighbours _ timestamp => timestamp < 2 ^ 32
  | neighbours peers timestamp =>
    (∀ peer ∈ peers, peer.IsEndpoint ∧ peer.id.isSome) ∧ timestamp < 2 ^ 32

/-! ## Every field comes back -/

theorem bytesToInt_intToBytes {i : ℕ} (h : i < 2 ^ 53) : intToBytes i = .ok (bigIntToBytes i) ∧
    bytesToInt (.bytes (bigIntToBytes i)) = .ok i := by
  refine ⟨if_pos h, ?_⟩
  rw [bytesToInt, Blockchain.ofBigEndian_bigIntToBytes, if_pos h]

theorem Timestamp.decode_encode {value : ℕ} (h : value < 2 ^ 32) :
    Timestamp.decode (.bytes (Timestamp.encode value)) = .ok value := by
  rw [Timestamp.decode, Timestamp.encode, length_setLengthLeft, if_neg fun hne => hne rfl,
    ofBigEndian_setLengthLeft, ofBigEndian_bigEndian,
    Nat.mod_eq_of_lt (h.trans_eq (by norm_num : 2 ^ 32 = 256 ^ 4))]

theorem Address.decode_encode {bytes : Bytes} (h : bytes.length = 4 ∨ bytes.length = 16) :
    Address.encode (some (String.ofList (ipToString bytes))) = .ok bytes ∧
      Address.decode (.bytes bytes) = .ok (String.ofList (ipToString bytes)) := by
  constructor
  · have hformat := isFormat_ipToString h
    rw [Address.encode, String.toList_ofList, ipToBytes_ipToString h]
    cases hv4 : isV4Format (ipToString bytes) with
    | true => rw [if_pos rfl]
    | false =>
      rw [hv4, Bool.false_or] at hformat
      rw [if_neg Bool.false_ne_true, if_pos hformat]
  · rw [Address.decode]
    rcases h with h | h
    · rw [if_pos h]
    · rw [if_neg (by omega), if_pos h]

theorem Port.decode_encode {port : Port} (h : port.IsSent) :
    ∃ bytes, Port.encode port = .ok bytes ∧ Port.decode (.bytes bytes) = .ok port := by
  cases port with
  | undefined => exact h.elim
  | null => exact ⟨[], rfl, rfl⟩
  | number value =>
    have hlt : value < 65536 := h
    have hread : ofBigEndian (wordBytes value) = value := by
      have hlow : ofBigEndian (wordBytes value) =
          value % 256 + 256 * (value / 256 % 256) := by
        simp [ofBigEndian, wordBytes, Nat.ofDigits_cons]
      omega
    refine ⟨wordBytes value, if_neg (by omega), ?_⟩
    rw [wordBytes, Port.decode_cons, ← wordBytes, bytesToInt, hread, if_pos (by omega)]
    rfl

theorem Endpoint.decode_encode {peer : PeerInfo} (h : peer.IsEndpoint) :
    ∃ address udpPort tcpPort, Endpoint.encode peer = .ok [address, udpPort, tcpPort] ∧
      Endpoint.decode (.list [address, udpPort, tcpPort]) = .ok { peer with id := none } := by
  obtain ⟨bytes, hlength, haddress⟩ := h.address
  obtain ⟨hencode, hdecode⟩ := Address.decode_encode hlength
  obtain ⟨udpPort, hudp, hudp'⟩ := Port.decode_encode h.udpPort
  obtain ⟨tcpPort, htcp, htcp'⟩ := Port.decode_encode h.tcpPort
  refine ⟨.bytes bytes, .bytes udpPort, .bytes tcpPort, ?_, ?_⟩
  · rw [Endpoint.encode, haddress, hencode, ok_bind, hudp, ok_bind, htcp, ok_bind]
  · simp only [Endpoint.decode, item_zero, item_succ, ok_bind, hdecode, hudp', htcp', haddress,
      h.vectorClock]

theorem decodePeer_encodePeer {peer : PeerInfo} (h : peer.IsEndpoint ∧ peer.id.isSome) :
    ∃ data, encodePeer peer = .ok data ∧ decodePeer data = .ok peer := by
  obtain ⟨address, udpPort, tcpPort, hencode, hdecode⟩ := Endpoint.decode_encode h.1
  obtain ⟨id, hid⟩ := Option.isSome_iff_exists.1 h.2
  refine ⟨.list [address, udpPort, tcpPort, .bytes id], ?_, ?_⟩
  · rw [encodePeer, hencode, ok_bind, hid]
    rfl
  · have hlength : ¬ [address, udpPort, tcpPort, .bytes id].length < 4 := Nat.lt_irrefl 4
    have htake : [address, udpPort, tcpPort, .bytes id].take 3 = [address, udpPort, tcpPort] := rfl
    rw [decodePeer, if_neg hlength, htake, hdecode, ok_bind]
    exact congrArg Except.ok (by rw [← hid])

theorem exists_mapM {α β : Type} {write : α → Except String β} {read : β → Except String α}
    {l : List α} (h : ∀ a ∈ l, ∃ b, write a = .ok b ∧ read b = .ok a) :
    ∃ bs, l.mapM write = .ok bs ∧ bs.mapM read = .ok l := by
  induction l with
  | nil => exact ⟨[], rfl, rfl⟩
  | cons a l ih =>
    obtain ⟨b, hwrite, hread⟩ := h a List.mem_cons_self
    obtain ⟨bs, hwrites, hreads⟩ := ih (List.forall_mem_cons.1 h).2
    refine ⟨b :: bs, ?_, ?_⟩
    · rw [List.mapM_cons, hwrite, ok_bind, hwrites]
      rfl
    · rw [List.mapM_cons, hread, ok_bind, hreads]
      rfl

theorem decodeData_payload {message : Message} (h : message.IsSent) :
    ∃ payload, message.payload = .ok payload ∧
      decodeData message.type (.ok payload) = .ok message := by
  cases message with
  | ping version sender receiver timestamp =>
    obtain ⟨hversion, ⟨hsender, hid⟩, ⟨hreceiver, hid'⟩, htimestamp⟩ := h
    obtain ⟨hencode, hdecode⟩ := bytesToInt_intToBytes hversion
    obtain ⟨a, u, t, hsent, hback⟩ := Endpoint.decode_encode hsender
    obtain ⟨a', u', t', hsent', hback'⟩ := Endpoint.decode_encode hreceiver
    refine ⟨.list [.bytes (bigIntToBytes version), .list [a, u, t], .list [a', u', t'],
      .bytes (Timestamp.encode timestamp)], ?_, ?_⟩
    · rw [Message.payload, hencode, ok_bind, hsent, ok_bind, hsent', ok_bind]
    · rw [Message.type, decodeData_ping]
      simp only [Ping.decode, item_zero, item_succ, ok_bind, hdecode, hback, hback',
        Timestamp.decode_encode htimestamp]
      rw [← hid]
      exact congrArg (fun id => Except.ok (Message.ping version sender
        { receiver with id := id } timestamp)) (hid.trans hid'.symm)
  | pong receiver hash timestamp =>
    obtain ⟨⟨hreceiver, hid⟩, htimestamp⟩ := h
    obtain ⟨a, u, t, hsent, hback⟩ := Endpoint.decode_encode hreceiver
    refine ⟨.list [.list [a, u, t], hash, .bytes (Timestamp.encode timestamp)], ?_, ?_⟩
    · rw [Message.payload, hsent, ok_bind]
    · rw [Message.type, decodeData_pong]
      simp only [Pong.decode, item_zero, item_succ, ok_bind, hback,
        Timestamp.decode_encode htimestamp]
      rw [← hid]
  | findneighbours id timestamp =>
    refine ⟨.list [id, .bytes (Timestamp.encode timestamp)], rfl, ?_⟩
    rw [Message.type, decodeData_findneighbours]
    simp only [FindNeighbours.decode, item_zero, item_succ, ok_bind, Timestamp.decode_encode h]
  | neighbours peers timestamp =>
    obtain ⟨hpeers, htimestamp⟩ := h
    obtain ⟨data, hsent, hback⟩ := exists_mapM fun peer hmem =>
      decodePeer_encodePeer (hpeers peer hmem)
    refine ⟨.list [.list data, .bytes (Timestamp.encode timestamp)], ?_, ?_⟩
    · rw [Message.payload, hsent, ok_bind]
    · rw [Message.type, decodeData_neighbours]
      simp only [Neighbours.decode, item_zero, item_succ, ok_bind, elements, hback,
        Timestamp.decode_encode htimestamp]

/-- **Every message comes back**, with the public key of the key that it was signed with, and every
address from its text. -/
theorem message_comes_back {C : Crypto} (hC : C.Correct) {message : Message} (h : message.IsSent)
    (privateKey : C.PrivateKey) :
    (∃ bytes, encode C message privateKey = .ok bytes ∧ (bytes.length < arrayBound →
      decode C bytes = .ok ⟨message, C.getPublicKey privateKey, bytes.take 32⟩)) ∧
    ∀ bytes : Bytes, bytes.length = 4 ∨ bytes.length = 16 →
      ipToBytes (ipToString bytes) = .ok bytes := by
  refine ⟨?_, fun bytes => ipToBytes_ipToString⟩
  obtain ⟨payload, hpayload, hdata⟩ := decodeData_payload h
  let typedata := message.type :: Rlp.encode payload
  let sig := C.ecsign (C.keccak256 typedata) privateKey
  let signature := setLengthLeft (bigIntToBytes sig.r) 32 ++ setLengthLeft (bigIntToBytes sig.s) 32
  let hashdata := signature ++ UInt8.ofNat sig.recovery :: typedata
  have hsignature : signature.length = 64 := by
    rw [List.length_append, length_setLengthLeft, length_setLengthLeft]
  have hhash : (C.keccak256 hashdata).length = 32 := hC.length_keccak256 _
  refine ⟨C.keccak256 hashdata ++ hashdata, ?_, fun hlength => ?_⟩
  · rw [encode, hpayload, ok_bind]
    exact congrArg (fun data => Except.ok (C.keccak256 data ++ data)) (List.append_assoc _ _ _).symm
  · have htake : (C.keccak256 hashdata ++ hashdata).take 32 = C.keccak256 hashdata :=
      List.take_left' hhash
    have hdrop : (C.keccak256 hashdata ++ hashdata).drop 32 = hashdata := List.drop_left' hhash
    have hbehind : hashdata.drop 64 = UInt8.ofNat sig.recovery :: typedata :=
      List.drop_left' hsignature
    have htypedata : (C.keccak256 hashdata ++ hashdata).drop 97 = typedata := by
      rw [show 97 = 32 + (64 + 1) from rfl, ← List.drop_drop, hdrop, ← List.drop_drop, hbehind]
      rfl
    have hrecovery : ((C.keccak256 hashdata ++ hashdata).getD 96 0).toNat = sig.recovery := by
      have hget : (C.keccak256 hashdata ++ hashdata).getD 96 0 = UInt8.ofNat sig.recovery := by
        rw [List.getD_eq_getElem?_getD, ← List.head?_drop, show 96 = 32 + 64 from rfl,
          ← List.drop_drop, hdrop, hbehind]
        rfl
      have hlt : sig.recovery < 4 := hC.recovery_lt _ _
      rw [hget, toNat_ofNat (by omega)]
    have hstream : unstrictDecode (Rlp.encode payload) = .ok payload := by
      have hle : (Rlp.encode payload).length < 256 ^ 8 := by
        have htail := congrArg List.length htypedata
        rw [List.length_drop, List.length_cons] at htail
        have hbound : arrayBound ≤ 256 ^ 8 := by norm_num [arrayBound]
        omega
      have hdecoded := Rlpx.unstrictDecode_encode hle []
      rwa [List.append_nil] at hdecoded
    have hkey : C.ecdsaRecover signature sig.recovery (C.keccak256 typedata) =
        .ok (C.getPublicKey privateKey) := hC.ecdsaRecover_ecsign _ _
    have hfront : hashdata.take 64 = signature := List.take_left' hsignature
    rw [decode, htypedata, htake, hdrop, Rlpx.assertBytesEq_self, ok_bind]
    change (decodeData message.type (unstrictDecode (Rlp.encode payload)) >>= _) = _
    rw [hstream, hdata, ok_bind, hfront, hrecovery, hkey]
    rfl

/-- A ping between two versions, whose addresses have runs of zeros. -/
def samplePing : Message :=
  .ping 4 ⟨none, some (String.ofList (ipToString [127, 0, 0, 1])), .number 30303, .null, none⟩
    ⟨none, some (String.ofList (ipToString (List.replicate 15 0 ++ [1]))), .number 0,
      .number 65535, none⟩ 1700000000

theorem samplePing_isSent : samplePing.IsSent :=
  ⟨by omega, ⟨⟨⟨_, .inl rfl, rfl⟩, (by decide : 30303 < 65536), trivial, rfl⟩, rfl⟩,
    ⟨⟨⟨_, .inr rfl, rfl⟩, (by decide : 0 < 65536), (by decide : 65535 < 65536), rfl⟩, rfl⟩,
    by omega⟩

theorem message_comes_back_ping :
    (∃ bytes, encode Rlpx.sampleCrypto samplePing ⟨List.replicate 32 7, rfl⟩ = .ok bytes ∧
      (bytes.length < arrayBound → decode Rlpx.sampleCrypto bytes = .ok ⟨samplePing,
        Rlpx.sampleCrypto.getPublicKey ⟨List.replicate 32 7, rfl⟩, bytes.take 32⟩)) ∧
    ∀ bytes : Bytes, bytes.length = 4 ∨ bytes.length = 16 →
      ipToBytes (ipToString bytes) = .ok bytes :=
  message_comes_back Rlpx.sampleCrypto_correct samplePing_isSent _

end Kademlia

end TsEthereum
