import TsEthereum.Kademlia.Node

/-!
# Bans

Whether an entry of the routing table has a key that is banned (`Respected`).
`addPeer` looks at the ban list before its ping, and then adds the peer that
answered, whose id it may not have known; a failed ping bans the peer as it was
described, and leaves what is in the table under these keys; `banPeer` removes one
entry, and its keys may be of two. `Meets` says of a step that it does none of
this, and bans are respected in a run exactly if all its steps do
(`respected_run_iff`).
-/

namespace TsEthereum

namespace Kademlia

namespace Node

/-- **Bans are respected**: no entry has a banned key. -/
def Respected (node : Node) : Prop :=
  ∀ key ∈ node.banlist, ∀ peer ∈ node.table.getAll, key ∉ getPeerKeys peer

instance (node : Node) : Decidable node.Respected :=
  inferInstanceAs (Decidable (∀ key ∈ node.banlist, ∀ peer ∈ node.table.getAll,
    key ∉ getPeerKeys peer))

/-! ## What the steps keep -/

/-- An id as a pong gives it. -/
def HasId (peer : PeerInfo) : Prop := ∃ id : PeerId, peer.id = some id.1

/-- **The table is consistent**, and the peers that may come into it have ids. -/
structure Ok (node : Node) : Prop where
  consistent : node.table.Consistent 64
  size : 1 ≤ node.table.kbucket.numberOfNodesPerKBucket
  pings : ∀ peer, .resolved peer ∈ node.transport.pings → HasId peer
  rounds : ∀ r ∈ node.rounds, HasId r.newPeer

theorem ok_new (localNodeId : Bytes) {k : ℕ} (hk : 1 ≤ k) (concurrency : ℕ)
    (shouldFindNeighbours : Bool) (canEncode : PeerInfo → Bool) (hashOf : ℕ → String) :
    (new localNodeId k concurrency shouldFindNeighbours canEncode hashOf).Ok where
  consistent := RoutingTable.consistent_new localNodeId k concurrency 64
  size := hk
  pings := by
    intro peer hpeer
    cases hpeer
  rounds := by
    intro r hr
    cases hr

variable {node : Node} {fuel : ℕ}

/-- Two nodes with one table and one ban list. -/
def SameKeys (node node' : Node) : Prop :=
  node'.table = node.table ∧ node'.banlist = node.banlist

theorem SameKeys.respected_iff {node' : Node} (h : SameKeys node node') :
    node'.Respected ↔ node.Respected := by
  rw [Respected, h.1, h.2, Respected]

theorem SameKeys.trans {node' node'' : Node} (h : SameKeys node node')
    (h' : SameKeys node' node'') : SameKeys node node'' :=
  ⟨h'.1.trans h.1, h'.2.trans h.2⟩

theorem resolved_of_ping {transport : UdpTransport} {peer : PeerInfo} (obj : PeerInfo)
    (h : .resolved peer ∈ (transport.ping obj).1.pings) : .resolved peer ∈ transport.pings := by
  rw [UdpTransport.ping] at h
  cases hcache : transport.requestsCache.get (UdpTransport.rcKey obj) with
  | some promise => simpa only [hcache] using h
  | none =>
    by_cases hencode : transport.canEncode obj = true
    · simpa [hcache, hencode] using h
    · simpa [hcache, hencode] using h

theorem sameKeys_await (node : Node) (peer : PeerInfo) (waiter : Waiter) :
    SameKeys node (node.await peer waiter) := ⟨rfl, rfl⟩

theorem Ok.await (h : node.Ok) (peer : PeerInfo) (waiter : Waiter) : (node.await peer waiter).Ok :=
  ⟨h.consistent, h.size, fun p hp => h.pings p (resolved_of_ping peer hp), h.rounds⟩

theorem Ok.foldl_await (h : node.Ok) (peers : List PeerInfo) (waiter : PeerInfo → Waiter) :
    (peers.foldl (fun node peer => node.await peer (waiter peer)) node).Ok ∧
      SameKeys node (peers.foldl (fun node peer => node.await peer (waiter peer)) node) := by
  induction peers generalizing node with
  | nil => exact ⟨h, rfl, rfl⟩
  | cons peer peers ih =>
    obtain ⟨hok, hsame⟩ := ih (h.await peer (waiter peer))
    exact ⟨hok, (sameKeys_await node peer (waiter peer)).trans hsame⟩

theorem Ok.onKBucketPing (h : node.Ok) (oldPeers : List PeerInfo) {newPeer : PeerInfo}
    (hid : HasId newPeer) : (node.onKBucketPing oldPeers newPeer).Ok ∧
      SameKeys node (node.onKBucketPing oldPeers newPeer) := by
  rw [Node.onKBucketPing]
  split
  · exact ⟨h, rfl, rfl⟩
  · have hround : Ok { node with
        rounds := node.rounds ++ [⟨newPeer, oldPeers.length, 0, false⟩] } := by
      refine ⟨h.consistent, h.size, h.pings, fun r hr => ?_⟩
      rcases List.mem_append.1 hr with hr | hr
      · exact h.rounds r hr
      · rw [List.mem_singleton.1 hr]
        exact hid
    exact hround.foldl_await oldPeers (.round node.rounds.length)

theorem Ok.drop (h : node.Ok) (obj : PeerRef) : (node.drop obj).Ok := by
  obtain ⟨hconsistent, hroot⟩ := h.consistent.remove obj
  refine ⟨hconsistent, ?_, h.pings, h.rounds⟩
  rw [Node.drop, hroot]
  exact h.size

theorem Ok.ban (h : node.Ok) (obj : PeerRef) : (node.ban obj).Ok :=
  ⟨h.consistent, h.size, h.pings, h.rounds⟩

theorem Ok.banPeer (h : node.Ok) (obj : PeerRef) : (node.banPeer obj).Ok := (h.ban obj).drop obj

/-! ## When the steps respect bans -/

/-- No entry has a key of the peer. -/
def Unused (node : Node) (obj : PeerRef) : Prop :=
  ∀ peer ∈ node.table.getAll, ∀ key ∈ obj.getKeys, key ∉ getPeerKeys peer

/-- No entry but the one that is found has a key of the peer. -/
def OnlyFound (node : Node) (obj : PeerRef) : Prop :=
  ∀ peer ∈ node.table.getAll, ∀ key ∈ obj.getKeys, key ∈ getPeerKeys peer →
    node.table.get obj = some peer

/-- The table takes the peer. -/
def Takes (fuel : ℕ) (node : Node) (peer : PeerInfo) : Prop :=
  ∃ table contact, node.table.add fuel peer = some (.ok (table, some (.added contact)))

/-- What a settled ping does to the keys, where it is to respect bans. -/
def MeetsResume (fuel : ℕ) (node : Node) : Waiter → PingState → Prop
  | _, .pending => True
  | .addPeer obj, .rejected => node.Unused (.info obj)
  | .addPeer _, .resolved peer => node.Takes fuel peer → node.isBanned (.info peer) = false
  | .round _ peer, .rejected => node.OnlyFound (.info peer)
  | .round round _, .resolved _ => ∀ r, node.rounds[round]? = some r → r.total ≤ r.count + 1 →
    if r.err then node.Takes fuel r.newPeer → node.isBanned (.info r.newPeer) = false
    else node.Unused (.info r.newPeer)

/-- **A step is to respect bans**: what comes into the table is not banned, and no entry that
stays has a key that is banned. -/
def Meets (fuel : ℕ) (node : Node) : Step → Prop
  | .banPeer obj => node.OnlyFound obj
  | .resume index => ∀ promise waiter state, node.waiting[index]? = some (promise, waiter) →
    node.transport.pings[promise]? = some state → node.MeetsResume fuel waiter state
  | _ => True

theorem respected_ban_iff (h : node.Respected) (obj : PeerRef) :
    (node.ban obj).Respected ↔ node.Unused obj := by
  constructor
  · intro hban peer hpeer key hkey
    exact hban key (List.mem_append_right _ hkey) peer hpeer
  · intro hunused key hkey peer hpeer
    rcases List.mem_append.1 hkey with hkey | hkey
    · exact h key hkey peer hpeer
    · exact hunused peer hpeer key hkey

theorem Ok.respected_drop (h : node.Ok) (hrespected : node.Respected) (obj : PeerRef) :
    (node.drop obj).Respected := by
  intro key hkey peer hpeer
  rcases h.consistent.remove_cases obj with ⟨-, heq⟩ | ⟨contact, -, -, hperm, -⟩
  · rw [Node.drop, heq] at hpeer
    exact hrespected key hkey peer hpeer
  · exact hrespected key hkey peer (hperm.mem_iff.2 (List.mem_cons_of_mem _ hpeer))

/-- **A ban with a removal** is respected if no entry but the one removed has a key of the peer. -/
theorem Ok.respected_banPeer_iff (h : node.Ok) (hrespected : node.Respected) (obj : PeerRef) :
    (node.banPeer obj).Respected ↔ node.OnlyFound obj := by
  have hbanned : (node.banPeer obj).Respected ↔
      ∀ peer ∈ (node.table.remove obj).1.getAll, ∀ key ∈ obj.getKeys, key ∉ getPeerKeys peer := by
    constructor
    · intro hban peer hpeer key hkey
      exact hban key (List.mem_append_right _ hkey) peer hpeer
    · intro hunused key hkey peer hpeer
      rcases List.mem_append.1 hkey with hkey | hkey
      · exact h.respected_drop hrespected obj key hkey peer hpeer
      · exact hunused peer hpeer key hkey
  rw [hbanned]
  rcases h.consistent.remove_cases obj with ⟨hget, heq⟩ | ⟨contact, hget, -, hperm, -⟩
  · rw [heq]
    constructor
    · intro hunused peer hpeer key hkey hmem
      exact absurd hmem (hunused peer hpeer key hkey)
    · intro honly peer hpeer key hkey hmem
      have hfound := honly peer hpeer key hkey hmem
      rw [hget] at hfound
      cases hfound
  · have hnodup := h.consistent.nodup_getAll
    rw [hperm.nodup_iff, List.nodup_cons] at hnodup
    constructor
    · intro hunused peer hpeer key hkey hmem
      rcases List.mem_cons.1 (hperm.mem_iff.1 hpeer) with rfl | hpeer
      · exact hget
      · exact absurd hmem (hunused peer hpeer key hkey)
    · intro honly peer hpeer key hkey hmem
      have hfound := honly peer (hperm.mem_iff.2 (List.mem_cons_of_mem _ hpeer)) key hkey hmem
      rw [hget] at hfound
      exact hnodup.1 (Option.some.inj hfound ▸ hpeer)

theorem HasId.exists_contact {peer : PeerInfo} (h : HasId peer) :
    ∃ contact : Contact, contact.1 = peer ∧ contact.id.length = 64 := by
  obtain ⟨id, hid⟩ := h
  refine ⟨⟨peer, by rw [hid, Option.isSome_some]⟩, rfl, ?_⟩
  rw [Contact.id, Option.get_of_eq_some _ hid]
  exact id.2

theorem isBanned_eq_false {obj : PeerRef} :
    node.isBanned obj = false ↔ ∀ key ∈ obj.getKeys, key ∉ node.banlist := by
  rw [isBanned, List.any_eq_false]
  simp only [decide_eq_true_eq]

theorem respected_iff_of_perm {node' : Node} (hbanlist : node'.banlist = node.banlist)
    (hentries : node'.table.getAll.Perm node.table.getAll) : node'.Respected ↔ node.Respected := by
  simp only [Respected, hbanlist, hentries.mem_iff]

/-- **A peer is added**: that is respected if the table does not take it, or none of its keys
is banned. -/
theorem Ok.addToTable (h : node.Ok) {peer : PeerInfo} (hid : HasId peer) (hfuel : 512 < fuel) :
    ∃ node', node.addToTable fuel peer = some (.ok node') ∧ node'.Ok ∧
      (node.Respected →
        (node'.Respected ↔ (node.Takes fuel peer → node.isBanned (.info peer) = false))) := by
  obtain ⟨contact, rfl, hlength⟩ := hid.exists_contact
  cases hnew : node.table.isExists contact.1 with
  | true =>
    have hadd : node.table.add fuel contact.1 = some (.ok (node.table, none)) := by
      rw [RoutingTable.add, if_pos hnew]
    have htakes : ¬ node.Takes fuel contact.1 := by
      rintro ⟨table, c, hc⟩
      rw [hadd] at hc
      cases hc
    refine ⟨node, by rw [Node.addToTable, hadd]; rfl, h, fun hrespected => ?_⟩
    exact iff_of_true hrespected fun ht => absurd ht htakes
  | false =>
    obtain ⟨⟨table, event⟩, hadd, htable, hadded, hroot⟩ :=
      h.consistent.exists_add h.size hlength hnew (by omega : 8 * 64 < fuel)
    have hok : Ok { node with table := table } :=
      ⟨htable, by rw [hroot]; exact h.size, h.pings, h.rounds⟩
    rcases hadded with ⟨hevent, hcontacts⟩ | ⟨hevent, hcontacts, -⟩
    · -- the table takes the contact
      dsimp only at hevent hcontacts
      subst hevent
      refine ⟨{ node with table := table }, by rw [Node.addToTable, hadd]; rfl, hok,
        fun hrespected => ?_⟩
      have hentries : table.getAll.Perm (contact.1 :: node.table.getAll) :=
        hcontacts.map Subtype.val
      rw [isBanned_eq_false]
      constructor
      · intro hafter _ key hkey hbanned
        exact hafter key hbanned contact.1 (hentries.mem_iff.2 List.mem_cons_self) hkey
      · intro hfree key hbanned peer hpeer hkey
        rcases List.mem_cons.1 (hentries.mem_iff.1 hpeer) with rfl | hpeer
        · exact hfree ⟨table, contact, hadd⟩ key hkey hbanned
        · exact hrespected key hbanned peer hpeer hkey
    · -- there is no room for it, and contacts are to be pinged
      dsimp only at hevent hcontacts
      subst hevent
      obtain ⟨hping, hsame⟩ := hok.onKBucketPing
        (((table.kbucket.bucketOf contact.id).items.take
          node.table.kbucket.numberOfNodesToPing).map Subtype.val) hid
      have htakes : ¬ node.Takes fuel contact.1 := by
        rintro ⟨table, c, hc⟩
        rw [hadd] at hc
        cases hc
      refine ⟨_, by rw [Node.addToTable, hadd]; rfl, hping, fun hrespected => ?_⟩
      have hafter : Respected { node with table := table } := by
        refine (respected_iff_of_perm (by rfl) ?_).2 hrespected
        exact hcontacts.map Subtype.val
      exact iff_of_true (hsame.respected_iff.2 hafter) fun ht => absurd ht htakes

/-! ## Steps -/

theorem Ok.addPeer (h : node.Ok) (obj : PeerInfo) :
    (node.addPeer obj).Ok ∧ SameKeys node (node.addPeer obj) := by
  rw [Node.addPeer]
  split
  · exact ⟨h, rfl, rfl⟩
  · split
    · exact ⟨h, rfl, rfl⟩
    · exact ⟨h.await obj _, sameKeys_await node obj _⟩

theorem Ok.addPeerBatch (h : node.Ok) (peers : List PeerInfo) :
    (node.addPeerBatch peers).Ok ∧ SameKeys node (node.addPeerBatch peers) := by
  rw [Node.addPeerBatch]
  split
  · exact ⟨⟨h.consistent, h.size, h.pings, h.rounds⟩, rfl, rfl⟩
  · exact ⟨h, rfl, rfl⟩

theorem hasId_of_pong {transport : UdpTransport} {hash : String} {peerId : PeerId} {peer : PeerInfo}
    (h : .resolved peer ∈ (transport.pong hash peerId).pings) :
    HasId peer ∨ .resolved peer ∈ transport.pings := by
  rw [UdpTransport.pong] at h
  split at h
  · exact .inr h
  · rcases List.mem_or_eq_of_mem_set h with hmem | heq
    · exact .inr hmem
    · cases heq
      exact .inl ⟨peerId, rfl⟩

theorem resolved_of_timeout {transport : UdpTransport} {promise : ℕ} {peer : PeerInfo}
    (h : .resolved peer ∈ (transport.timeout promise).pings) :
    .resolved peer ∈ transport.pings := by
  rw [UdpTransport.timeout] at h
  split at h
  · rcases List.mem_or_eq_of_mem_set h with hmem | heq
    · exact hmem
    · cases heq
  · exact h

theorem Ok.set_round (h : node.Ok) {round : ℕ} {r : PingRound} (hr : node.rounds[round]? = some r)
    (count : ℕ) : Ok { node with rounds := node.rounds.set round { r with count := count } } := by
  refine ⟨h.consistent, h.size, h.pings, fun r' hr' => ?_⟩
  rcases List.mem_or_eq_of_mem_set hr' with hmem | rfl
  · exact h.rounds r' hmem
  · exact h.rounds r (List.mem_of_getElem? hr)

theorem Ok.modify_round (h : node.Ok) (round : ℕ) : Ok { node with
    rounds := node.rounds.modify round fun r => { r with err := true } } := by
  refine ⟨h.consistent, h.size, h.pings, fun r hr => ?_⟩
  obtain ⟨i, hi⟩ := List.mem_iff_getElem?.1 hr
  rw [List.getElem?_modify] at hi
  obtain ⟨r', hr', heq⟩ := Option.map_eq_some_iff.1 hi
  have hid := h.rounds r' (List.mem_of_getElem? hr')
  split at heq
  · rw [← heq]
    exact hid
  · rw [← heq]
    exact hid

theorem Ok.resumeAddPeer (h : node.Ok) (obj : PeerInfo) {state : PingState}
    (hstate : ∀ peer, state = .resolved peer → HasId peer) (hfuel : 512 < fuel) :
    ∃ node', node.resumeAddPeer fuel obj state = some node' ∧ node'.Ok ∧
      (node.Respected → (node'.Respected ↔ node.MeetsResume fuel (.addPeer obj) state)) := by
  cases state with
  | pending => exact ⟨node, rfl, h, fun hrespected => iff_of_true hrespected trivial⟩
  | rejected => exact ⟨_, rfl, h.ban _, fun hrespected => respected_ban_iff hrespected _⟩
  | resolved peer =>
    obtain ⟨node', hadd, hok, hiff⟩ := h.addToTable (hstate peer rfl) hfuel
    exact ⟨node', by rw [Node.resumeAddPeer, hadd]; rfl, hok, hiff⟩

theorem Ok.resumeRound (h : node.Ok) (round : ℕ) (peer : PeerInfo) (state : PingState)
    (hfuel : 512 < fuel) :
    ∃ node', node.resumeRound fuel round peer state = some node' ∧ node'.Ok ∧
      (node.Respected → (node'.Respected ↔ node.MeetsResume fuel (.round round peer) state)) := by
  cases state with
  | pending => exact ⟨node, rfl, h, fun hrespected => iff_of_true hrespected trivial⟩
  | rejected =>
    have hfail := h.modify_round round
    exact ⟨_, rfl, hfail.banPeer _, fun hrespected => hfail.respected_banPeer_iff hrespected _⟩
  | resolved answer =>
    cases hround : node.rounds[round]? with
    | none =>
      refine ⟨node, by rw [Node.resumeRound, hround], h, fun hrespected => ?_⟩
      exact iff_of_true hrespected fun r hr => by rw [hround] at hr; cases hr
    | some r =>
      have hset := h.set_round hround (r.count + 1)
      have hmeets : node.MeetsResume fuel (.round round peer) (.resolved answer) ↔
          (r.total ≤ r.count + 1 →
            if r.err then node.Takes fuel r.newPeer → node.isBanned (.info r.newPeer) = false
            else node.Unused (.info r.newPeer)) := by
        simp only [MeetsResume, hround, Option.some.injEq, forall_eq']
      rw [hmeets]
      simp only [Node.resumeRound, hround]
      by_cases hcount : r.count + 1 < r.total
      · rw [if_pos hcount]
        refine ⟨_, rfl, hset, fun hrespected => iff_of_true hrespected fun hle => ?_⟩
        exact absurd hcount (Nat.not_lt.2 hle)
      · rw [if_neg hcount]
        simp only [Nat.not_lt.1 hcount, forall_const]
        by_cases herr : r.err = true
        · obtain ⟨node', hadd, hok, hiff⟩ :=
            hset.addToTable (h.rounds r (List.mem_of_getElem? hround)) hfuel
          rw [if_neg (by rw [herr]; decide), if_pos herr, hadd]
          exact ⟨node', rfl, hok, hiff⟩
        · rw [if_pos (by rw [Bool.eq_false_iff.2 herr]; rfl), if_neg herr]
          refine ⟨_, rfl, hset.ban _, fun hrespected => ?_⟩
          have hcounted : Respected { node with
              rounds := node.rounds.set round { r with count := r.count + 1 } } := hrespected
          exact respected_ban_iff hcounted _

theorem Ok.step (h : node.Ok) (s : Step) (hfuel : 512 < fuel) :
    ∃ node', node.step fuel s = some node' ∧ node'.Ok ∧
      (node.Respected → (node'.Respected ↔ node.Meets fuel s)) := by
  -- most steps change neither the table nor the ban list
  have hquiet {node' : Node} (hok : node'.Ok) (hsame : SameKeys node node')
      (hmeets : node.Meets fuel s) : node'.Ok ∧
        (node.Respected → (node'.Respected ↔ node.Meets fuel s)) :=
    ⟨hok, fun hrespected => iff_of_true (hsame.respected_iff.2 hrespected) hmeets⟩
  cases s with
  | addPeer obj => exact ⟨_, rfl, hquiet (h.addPeer obj).1 (h.addPeer obj).2 trivial⟩
  | banPeer obj =>
    exact ⟨_, rfl, h.banPeer obj, fun hrespected => h.respected_banPeer_iff hrespected obj⟩
  | removePeer obj =>
    exact ⟨_, rfl, h.drop obj, fun hrespected =>
      iff_of_true (h.respected_drop hrespected obj) trivial⟩
  | ping peerId from_ =>
    rw [Node.step]
    split
    · exact ⟨_, rfl, hquiet (h.addPeerBatch _).1 (h.addPeerBatch _).2 trivial⟩
    · exact ⟨_, rfl, hquiet h ⟨rfl, rfl⟩ trivial⟩
  | pong hash peerId =>
    refine ⟨_, rfl, hquiet ⟨h.consistent, h.size, fun peer hpeer => ?_, h.rounds⟩ ⟨rfl, rfl⟩ trivial⟩
    rcases hasId_of_pong hpeer with hid | hold
    · exact hid
    · exact h.pings peer hold
  | neighbours peers => exact ⟨_, rfl, hquiet (h.addPeerBatch _).1 (h.addPeerBatch _).2 trivial⟩
  | timer index =>
    rw [Node.step]
    cases hobj : node.scheduled[index]? with
    | none => exact ⟨_, rfl, hquiet h ⟨rfl, rfl⟩ trivial⟩
    | some obj =>
      have hfired : Ok { node with scheduled := node.scheduled.eraseIdx index } :=
        ⟨h.consistent, h.size, h.pings, h.rounds⟩
      obtain ⟨hok, hsame⟩ := hfired.addPeer obj
      exact ⟨_, rfl, hquiet hok hsame trivial⟩
  | timeout promise =>
    refine ⟨_, rfl, hquiet ⟨h.consistent, h.size, fun peer hpeer => ?_, h.rounds⟩ ⟨rfl, rfl⟩ trivial⟩
    exact h.pings peer (resolved_of_timeout hpeer)
  | expire key =>
    exact ⟨_, rfl, hquiet ⟨h.consistent, h.size, h.pings, h.rounds⟩ ⟨rfl, rfl⟩ trivial⟩
  | resume index =>
    rw [Node.step]
    cases hwaiter : node.waiting[index]? with
    | none =>
      refine ⟨_, rfl, hquiet h ⟨rfl, rfl⟩ fun promise waiter state hw => ?_⟩
      rw [hwaiter] at hw
      cases hw
    | some entry =>
      obtain ⟨promise, waiter⟩ := entry
      cases hstate : node.transport.pings[promise]? with
      | none =>
        refine ⟨node, by simp only [hstate], hquiet h ⟨rfl, rfl⟩ fun promise' waiter' state hw hp => ?_⟩
        rw [hwaiter] at hw
        cases hw
        rw [hstate] at hp
        cases hp
      | some state =>
        have hmeets : node.Meets fuel (.resume index) ↔ node.MeetsResume fuel waiter state := by
          simp only [Meets, hwaiter, Option.some.injEq, Prod.mk.injEq, and_imp]
          constructor
          · intro hall
            exact hall promise waiter state rfl rfl hstate
          · rintro hresume _ _ state' rfl rfl hp
            rw [hstate] at hp
            exact Option.some.inj hp ▸ hresume
        rw [hmeets]
        have hgone : Ok { node with waiting := node.waiting.eraseIdx index } :=
          ⟨h.consistent, h.size, h.pings, h.rounds⟩
        cases state with
        | pending =>
          refine ⟨node, by simp only [hstate], h, fun hrespected => iff_of_true hrespected ?_⟩
          cases waiter with
          | addPeer obj => trivial
          | round round peer => trivial
        | resolved peer =>
          simp only [hstate]
          cases waiter with
          | addPeer obj =>
            refine hgone.resumeAddPeer obj (fun p hp => ?_) hfuel
            cases hp
            exact h.pings peer (List.mem_of_getElem? hstate)
          | round round obj => exact hgone.resumeRound round obj _ hfuel
        | rejected =>
          simp only [hstate]
          cases waiter with
          | addPeer obj =>
            refine hgone.resumeAddPeer obj (fun p hp => ?_) hfuel
            cases hp
          | round round obj => exact hgone.resumeRound round obj _ hfuel

/-! ## Runs -/

/-- Bans are respected in every state of a run. -/
def RunRespected (fuel : ℕ) (start : Node) (steps : List Step) : Prop :=
  ∀ pre, pre <+: steps → ∀ node, start.run fuel pre = some node → node.Respected

/-- Every step of a run is to respect bans, where it is made. -/
def RunMeets (fuel : ℕ) (start : Node) (steps : List Step) : Prop :=
  ∀ pre s, pre ++ [s] <+: steps → ∀ node, start.run fuel pre = some node → node.Meets fuel s

theorem run_concat (start : Node) (steps : List Step) (s : Step) :
    start.run fuel (steps ++ [s]) = (start.run fuel steps).bind fun node => node.step fuel s := by
  rw [run, List.foldlM_append]
  cases hrun : List.foldlM (Node.step fuel) start steps with
  | none =>
    rw [run, hrun]
    rfl
  | some node =>
    rw [run, hrun, Option.bind_some, Option.bind_eq_bind, Option.bind_some, List.foldlM_cons]
    cases node.step fuel s with
    | none => rfl
    | some next => rfl

theorem Ok.exists_run (h : node.Ok) (steps : List Step) (hfuel : 512 < fuel) :
    ∃ node', node.run fuel steps = some node' ∧ node'.Ok := by
  induction steps generalizing node with
  | nil => exact ⟨node, rfl, h⟩
  | cons s steps ih =>
    obtain ⟨next, hstep, hnext, -⟩ := h.step s hfuel
    obtain ⟨last, hrun, hlast⟩ := ih hnext
    refine ⟨last, ?_, hlast⟩
    rw [run, List.foldlM_cons, hstep]
    exact hrun

/-- **Bans are respected in a run exactly if every step of it is to respect them.** -/
theorem respected_run_iff (localNodeId : Bytes) {k : ℕ} (hk : 1 ≤ k) (concurrency : ℕ)
    (shouldFindNeighbours : Bool) (canEncode : PeerInfo → Bool) (hashOf : ℕ → String)
    (steps : List Step) (hfuel : 512 < fuel) :
    (∃ node, (new localNodeId k concurrency shouldFindNeighbours canEncode hashOf).run fuel steps =
      some node) ∧
    (RunRespected fuel (new localNodeId k concurrency shouldFindNeighbours canEncode hashOf) steps ↔
      RunMeets fuel (new localNodeId k concurrency shouldFindNeighbours canEncode hashOf) steps) := by
  have hstart := ok_new localNodeId hk concurrency shouldFindNeighbours canEncode hashOf
  have hempty : (new localNodeId k concurrency shouldFindNeighbours canEncode hashOf).Respected := by
    intro key hkey
    cases hkey
  generalize new localNodeId k concurrency shouldFindNeighbours canEncode hashOf = start at *
  obtain ⟨last, hlast, -⟩ := hstart.exists_run steps hfuel
  refine ⟨⟨last, hlast⟩, ?_, ?_⟩
  · intro hrespected pre s hpre node hrun
    obtain ⟨node', hrun', hok⟩ := hstart.exists_run pre hfuel
    rw [hrun] at hrun'
    cases hrun'
    obtain ⟨next, hstep, -, hiff⟩ := hok.step s hfuel
    have hnext : start.run fuel (pre ++ [s]) = some next := by
      rw [run_concat, hrun, Option.bind_some, hstep]
    exact (hiff (hrespected pre ((List.prefix_append pre [s]).trans hpre) node hrun)).1
      (hrespected _ hpre next hnext)
  · intro hmeets pre hpre
    -- by induction on the steps made so far, the last of them split off
    induction pre using List.reverseRecOn with
    | nil =>
      intro node hrun
      cases hrun
      exact hempty
    | append_singleton pre s ih =>
      intro next hnext
      obtain ⟨node, hrun, hok⟩ := hstart.exists_run pre hfuel
      rw [run_concat, hrun, Option.bind_some] at hnext
      obtain ⟨node', hstep, -, hiff⟩ := hok.step s hfuel
      rw [hstep] at hnext
      cases hnext
      have hrespected := ih ((List.prefix_append pre [s]).trans hpre) node hrun
      exact (hiff hrespected).2 (hmeets pre s hpre node hrun)

/-- A node, as it is made where nothing is set. -/
def sampleNode : Node := new (List.replicate 64 0) 16 3 true (fun _ => true) toString

/-- An id, and an endpoint. -/
def sampleId : PeerId := ⟨List.replicate 64 7, List.length_replicate⟩

def sampleObj : PeerInfo :=
  { id := none, address := some "10.0.0.1", udpPort := .number 30303, tcpPort := .number 30303
    vectorClock := none }

/-- A peer is added by its endpoint, banned by its id during the ping, and then answers. -/
def sampleSteps : List Step :=
  [.addPeer sampleObj, .banPeer (.bytes sampleId.1), .pong (toString 0) sampleId, .resume 0]

/-- **The peer is in the table**, with its id banned. -/
theorem sample_not_respected : ¬ RunRespected 513 sampleNode sampleSteps := by
  intro h
  have hbroken : ((sampleNode.run 513 sampleSteps).map fun node => decide node.Respected) =
      some false := by decide +kernel
  obtain ⟨node, hrun, hnode⟩ := Option.map_eq_some_iff.1 hbroken
  exact of_decide_eq_false hnode (h sampleSteps (List.prefix_refl _) node hrun)

/-- The node and the steps, as an instance of the theorem on runs. -/
theorem respected_run_iff_sample :
    (∃ node, sampleNode.run 513 sampleSteps = some node) ∧
      (RunRespected 513 sampleNode sampleSteps ↔ RunMeets 513 sampleNode sampleSteps) :=
  respected_run_iff (List.replicate 64 0) (by omega) 3 true (fun _ => true) toString sampleSteps
    (by omega)

end Node

end Kademlia

end TsEthereum
