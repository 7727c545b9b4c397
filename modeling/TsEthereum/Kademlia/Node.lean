import TsEthereum.Kademlia.RoutingTable

/-!
# The node

`KademliaNode` (`kademlia/kademlia.ts`) over `UdpTransport` (`kademlia/udp.ts`): a
routing table, a ban list and the pings under way. A ping is a promise, settled by
a pong or by its timer, and one to an endpoint pinged a moment ago is the promise
of that ping. `addPeer` and the rounds of pings that a full far bucket asks for
wait for promises; what waits goes on some time after its promise is settled, and
every other thing the node does may come in between (`Step`).
-/

namespace TsEthereum

namespace Kademlia

/-- An id as `pk2id` makes it of a public key. -/
abbrev PeerId : Type := {id : Bytes // id.length = 64}

/-! ## The transport -/

/-- A promise of `ping`. -/
inductive PingState
  | pending
  | resolved (peer : PeerInfo)
  | rejected
  deriving DecidableEq

/-- **The transport**: the pings made, by number, the requests not answered by the hash of
their message, and the cache of requests by endpoint. `canEncode` tells the peers for which a
message can be written, `hashOf` the hash of the message of a ping. -/
structure UdpTransport where
  canEncode : PeerInfo → Bool
  hashOf : ℕ → String
  pings : List PingState
  requests : JsMap String (PeerInfo × ℕ)
  requestsCache : JsMap String ℕ

namespace UdpTransport

/-- The key of an endpoint in the cache. -/
def rcKey (peer : PeerInfo) : String := peer.address.getD "undefined" ++ ":" ++ peer.udpPort.text

/-- **`ping`**, with the number of its promise. -/
def ping (transport : UdpTransport) (peer : PeerInfo) : UdpTransport × ℕ :=
  match transport.requestsCache.get (rcKey peer) with
  | some promise => (transport, promise)
  | none =>
    let promise := transport.pings.length
    if transport.canEncode peer then
      ({ transport with
        pings := transport.pings ++ [.pending]
        requests := transport.requests.set (transport.hashOf promise) (peer, promise)
        requestsCache := transport.requestsCache.set (rcKey peer) promise }, promise)
    else ({ transport with pings := transport.pings ++ [.rejected] }, promise)

/-- A promise is settled. -/
def settle (transport : UdpTransport) (promise : ℕ) (state : PingState) : UdpTransport :=
  { transport with pings := transport.pings.set promise state }

/-- **A pong**: the ping it answers gives the peer that was pinged, under the id of who answered. -/
def pong (transport : UdpTransport) (hash : String) (peerId : PeerId) : UdpTransport :=
  match transport.requests.get hash with
  | none => transport
  | some (peer, promise) =>
    let resolvedPeer : PeerInfo :=
      { id := some peerId.1, address := peer.address, udpPort := peer.udpPort, tcpPort := peer.tcpPort
        vectorClock := none }
    { transport with requests := transport.requests.delete hash }.settle promise
      (.resolved resolvedPeer)

/-- The timer of a ping. -/
def timeout (transport : UdpTransport) (promise : ℕ) : UdpTransport :=
  match transport.pings[promise]?, transport.requests.get (transport.hashOf promise) with
  | some .pending, some _ =>
    { transport with requests := transport.requests.delete (transport.hashOf promise) }.settle
      promise .rejected
  | _, _ => transport

/-- An endpoint is no longer in the cache. -/
def expire (transport : UdpTransport) (key : String) : UdpTransport :=
  { transport with requestsCache := transport.requestsCache.delete key }

end UdpTransport

/-! ## The node -/

/-- What waits for a ping: a call of `addPeer`, or a contact of a round. -/
inductive Waiter
  | addPeer (obj : PeerInfo)
  | round (round : ℕ) (peer : PeerInfo)
  deriving DecidableEq

/-- **A round of pings**: the peer there was no room for, how many are pinged, how many
answered, and whether one failed. -/
structure PingRound where
  newPeer : PeerInfo
  total : ℕ
  count : ℕ
  err : Bool
  deriving DecidableEq

/-- **A node**: the keys on its ban list, its table, the peers it is to add when their timers
fire, and what waits. -/
structure Node where
  banlist : List String
  table : RoutingTable
  transport : UdpTransport
  shouldFindNeighbours : Bool
  scheduled : List PeerInfo
  waiting : List (ℕ × Waiter)
  rounds : List PingRound

namespace Node

/-- A new one. -/
def new (localNodeId : Bytes) (k concurrency : ℕ) (shouldFindNeighbours : Bool)
    (canEncode : PeerInfo → Bool) (hashOf : ℕ → String) : Node where
  banlist := []
  table := .new localNodeId k concurrency
  transport := ⟨canEncode, hashOf, [], .empty, .empty⟩
  shouldFindNeighbours := shouldFindNeighbours
  scheduled := []
  waiting := []
  rounds := []

/-- `BanList.has`. -/
def isBanned (node : Node) (obj : PeerRef) : Bool :=
  obj.getKeys.any fun key => decide (key ∈ node.banlist)

/-- `BanList.add`. -/
def ban (node : Node) (obj : PeerRef) : Node :=
  { node with banlist := node.banlist ++ obj.getKeys }

/-- `RoutingTable.remove`. -/
def drop (node : Node) (obj : PeerRef) : Node :=
  { node with table := (node.table.remove obj).1 }

/-- **`banPeer`.** -/
def banPeer (node : Node) (obj : PeerRef) : Node := (node.ban obj).drop obj

/-- A ping is made, and waited for. -/
def await (node : Node) (peer : PeerInfo) (waiter : Waiter) : Node :=
  let (transport, promise) := node.transport.ping peer
  { node with transport := transport, waiting := node.waiting ++ [(promise, waiter)] }

/-- **`_onKBucketPing`.** -/
def onKBucketPing (node : Node) (oldPeers : List PeerInfo) (newPeer : PeerInfo) : Node :=
  if node.isBanned (.info newPeer) then node
  else
    let round := node.rounds.length
    oldPeers.foldl (fun node peer => node.await peer (.round round peer))
      { node with rounds := node.rounds ++ [⟨newPeer, oldPeers.length, 0, false⟩] }

/-- **`_kbucket.add`**, with what is done at the events of the table. -/
def addToTable (fuel : ℕ) (node : Node) (peer : PeerInfo) : Option (Except String Node) :=
  (node.table.add fuel peer).map fun r => r.map fun (table, event) =>
    match event with
    | some (.ping contacts contact) =>
      { node with table := table }.onKBucketPing (contacts.map Subtype.val) contact.1
    | _ => { node with table := table }

/-- `addPeer`, up to its ping. -/
def addPeer (node : Node) (obj : PeerInfo) : Node :=
  if node.isBanned (.info obj) then node
  else
    match node.table.get (.info obj) with
    | some _ => node
    | none => node.await obj (.addPeer obj)

/-- **`addPeer`, from its ping on.** -/
def resumeAddPeer (fuel : ℕ) (node : Node) (obj : PeerInfo) : PingState → Option Node
  | .pending => some node
  | .rejected => some (node.ban (.info obj))
  | .resolved peer => (node.addToTable fuel peer).map fun
    | .ok node => node
    | .error _ => node.ban (.info obj)

/-- A contact of a round failed. -/
def failRound (node : Node) (round : ℕ) (peer : PeerInfo) : Node :=
  { node with rounds := node.rounds.modify round fun r => { r with err := true } }.banPeer
    (.info peer)

/-- **A contact of a round answered, or did not.** -/
def resumeRound (fuel : ℕ) (node : Node) (round : ℕ) (peer : PeerInfo) : PingState → Option Node
  | .pending => some node
  | .rejected => some (node.failRound round peer)
  | .resolved _ =>
    match node.rounds[round]? with
    | none => some node
    | some r =>
      let node := { node with rounds := node.rounds.set round { r with count := r.count + 1 } }
      if r.count + 1 < r.total then some node
      else if !r.err then some (node.ban (.info r.newPeer))
      else
        (node.addToTable fuel r.newPeer).map fun
          | .ok node => node
          | .error _ => node.failRound round peer

/-- **What a node does**: a call, a message, a timer, or something that waited goes on. -/
inductive Step
  | addPeer (obj : PeerInfo)
  | banPeer (obj : PeerRef)
  | removePeer (obj : PeerRef)
  | ping (peerId : PeerId) (from_ : PeerInfo)
  | pong (hash : String) (peerId : PeerId)
  | neighbours (peers : List PeerInfo)
  | timer (index : ℕ)
  | timeout (promise : ℕ)
  | expire (key : String)
  | resume (index : ℕ)
  deriving DecidableEq

/-- The peers of a message are to be added, once for each of its two listeners. -/
def addPeerBatch (node : Node) (peers : List PeerInfo) : Node :=
  if node.shouldFindNeighbours then { node with scheduled := node.scheduled ++ peers ++ peers }
  else node

/-- **A step**: none if it is still running. -/
def step (fuel : ℕ) (node : Node) : Step → Option Node
  | .addPeer obj => some (node.addPeer obj)
  | .banPeer obj => some (node.banPeer obj)
  | .removePeer obj => some (node.drop obj)
  | .ping peerId from_ =>
    if from_.udpPort ≠ .null ∧ node.table.get (.bytes peerId.1) = none then
      some (node.addPeerBatch [from_])
    else some node
  | .pong hash peerId => some { node with transport := node.transport.pong hash peerId }
  | .neighbours peers => some (node.addPeerBatch peers)
  | .timer index =>
    match node.scheduled[index]? with
    | none => some node
    | some obj => some ({ node with scheduled := node.scheduled.eraseIdx index }.addPeer obj)
  | .timeout promise => some { node with transport := node.transport.timeout promise }
  | .expire key => some { node with transport := node.transport.expire key }
  | .resume index =>
    match node.waiting[index]? with
    | none => some node
    | some (promise, waiter) =>
      match node.transport.pings[promise]? with
      | none | some .pending => some node
      | some state =>
        let node := { node with waiting := node.waiting.eraseIdx index }
        match waiter with
        | .addPeer obj => node.resumeAddPeer fuel obj state
        | .round round peer => node.resumeRound fuel round peer state

/-- **The steps are made**, one after the other. -/
def run (fuel : ℕ) (node : Node) (steps : List Step) : Option Node := steps.foldlM (step fuel) node

end Node

end Kademlia

end TsEthereum
