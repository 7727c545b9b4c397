import TsEthereum.Common.KeyIndex
import TsEthereum.Kademlia.KBucket

/-!
# The routing table

`RoutingTable` (`kademlia/routing-table.ts`): a k-bucket with a `Map` from the
keys of its contacts, ids and endpoints, to the contacts, which it keeps by what
the k-bucket emits. `add` takes no peer with a key that is in use, so a contact is
never updated, and the map and the contacts stay the same ones (`Consistent`).
-/

namespace TsEthereum

namespace Kademlia

/-- What a peer is named by: its id, one of its keys, or what is known of it. -/
inductive PeerRef
  | bytes (id : Bytes)
  | text (key : String)
  | info (peer : PeerInfo)
  deriving DecidableEq

/-- **`getKeys`.** -/
def PeerRef.getKeys : PeerRef → List String
  | bytes id => [bytesToUnprefixedHex id]
  | text key => [key]
  | info peer => getPeerKeys peer

/-- **A routing table.** -/
structure RoutingTable where
  peers : JsMap String PeerInfo
  kbucket : KBucket

namespace RoutingTable

/-- A new one. -/
def new (localNodeId : Bytes) (k concurrency : ℕ) : RoutingTable where
  peers := .empty
  kbucket :=
    { localNodeId := localNodeId, numberOfNodesPerKBucket := k, numberOfNodesToPing := concurrency
      root := .bucket [] false }

/-- What it does at an event of the k-bucket. -/
def onEvent (peers : JsMap String PeerInfo) : Option KBucketEvent → JsMap String PeerInfo
  | some (.added peer) => peers.setAll (getPeerKeys peer.1) peer.1
  | some (.removed peer) => peers.deleteAll (getPeerKeys peer.1)
  | _ => peers

/-- The table after a call of the k-bucket. -/
def handle (table : RoutingTable) (r : KBucket × Option KBucketEvent) :
    RoutingTable × Option KBucketEvent :=
  (⟨onEvent table.peers r.2, r.1⟩, r.2)

/-- Whether a key of a peer is in use. -/
def isExists (table : RoutingTable) (peer : PeerInfo) : Bool :=
  (getPeerKeys peer).any fun key => (table.peers.get key).isSome

/-- **`add`**, with a bound on the turns of the k-bucket's: none if it is still running. -/
def add (fuel : ℕ) (table : RoutingTable) (peer : PeerInfo) :
    Option (Except String (RoutingTable × Option KBucketEvent)) :=
  if table.isExists peer then some (.ok (table, none))
  else
    match peer.toContact with
    | none => some (.error "Contact must have an id")
    | some contact =>
      (loop (KBucket.addTurn contact) fuel table.kbucket).map fun r => .ok (table.handle r)

/-- **`get`.** -/
def get (table : RoutingTable) (obj : PeerRef) : Option PeerInfo :=
  obj.getKeys.findSome? table.peers.get

def getAll (table : RoutingTable) : List PeerInfo := table.kbucket.toArray.map Subtype.val

/-- **`remove`.** -/
def remove (table : RoutingTable) (obj : PeerRef) : RoutingTable × Option KBucketEvent :=
  match table.get obj with
  | none => (table, none)
  | some peer =>
    match peer.id with
    | none => (table, none)
    | some id => table.handle (table.kbucket.remove id)

/-- A call. -/
inductive Call
  | add (peer : PeerInfo)
  | remove (obj : PeerRef)
  deriving DecidableEq

/-- **A call is made**: one that throws leaves the table as it is. -/
def step (fuel : ℕ) (table : RoutingTable) : Call → Option RoutingTable
  | .add peer => (table.add fuel peer).map fun
    | .ok r => r.1
    | .error _ => table
  | .remove obj => some (table.remove obj).1

/-- **The calls are made**, one after the other. -/
def run (fuel : ℕ) (table : RoutingTable) (calls : List Call) : Option RoutingTable :=
  calls.foldlM (step fuel) table

end RoutingTable

/-! ## Keys -/

theorem colon_notMem_hex (bytes : Bytes) : ':' ∉ (bytesToUnprefixedHex bytes).toList := by
  have hdigit : ∀ n < 16, Nat.digitChar n ≠ ':' := by decide
  rw [bytesToUnprefixedHex, String.toList_ofList, List.mem_flatMap]
  rintro ⟨byte, -, hmem⟩
  have hlt := byte.toNat_lt
  rcases List.mem_cons.1 hmem with heq | hmem
  · exact hdigit _ (by omega) heq.symm
  · exact hdigit _ (by omega) (List.mem_singleton.1 hmem).symm

theorem nodup_getPeerKeys (peer : PeerInfo) : (getPeerKeys peer).Nodup := by
  obtain ⟨id, address, udpPort, tcpPort, vectorClock⟩ := peer
  have hcolon (address : String) (tcpPort : ℕ) (bytes : Bytes) :
      bytesToUnprefixedHex bytes ≠ address ++ ":" ++ toString tcpPort := by
    intro heq
    refine colon_notMem_hex bytes ?_
    rw [heq, String.toList_append, String.toList_append]
    exact List.mem_append_left _ (List.mem_append_right _ (by decide))
  cases id with
  | none => cases address <;> cases tcpPort <;> simp [getPeerKeys]
  | some id =>
    cases address with
    | none => simp [getPeerKeys]
    | some address =>
      cases tcpPort with
      | undefined => simp [getPeerKeys]
      | null => simp [getPeerKeys]
      | number tcpPort => simpa [getPeerKeys] using hcolon address tcpPort id

theorem Contact.hex_mem_getPeerKeys (contact : Contact) :
    bytesToUnprefixedHex contact.id ∈ getPeerKeys contact.1 := by
  rw [getPeerKeys, contact.some_id]
  exact List.mem_append_left _ (List.mem_singleton.2 rfl)

namespace RoutingTable

/-! ## The invariant -/

/-- **The k-bucket is well formed, and the map has the keys of its contacts.** -/
structure Consistent (table : RoutingTable) (idLength : ℕ) : Prop where
  wf : table.kbucket.Wf idLength
  indexed : Indexed getPeerKeys table.peers table.getAll

variable {table : RoutingTable} {idLength fuel : ℕ} {peer : PeerInfo}

theorem consistent_new (localNodeId : Bytes) (k concurrency idLength : ℕ) :
    (new localNodeId k concurrency).Consistent idLength := by
  refine ⟨⟨BucketTree.allBuckets_bucket.2 (Nat.zero_le k), BucketTree.allBuckets_bucket.2 ?_, ?_⟩,
    indexed_empty⟩
  · intro contact hcontact
    cases hcontact
  · intro contact hcontact
    cases hcontact

theorem isExists_eq_false : table.isExists peer = false ↔
    ∀ key ∈ getPeerKeys peer, table.peers.get key = none := by
  rw [isExists, List.any_eq_false]
  simp only [Bool.not_eq_true, Option.isSome_eq_false_iff, Option.isNone_iff_eq_none]

theorem mem_getAll {contact : Contact} :
    contact.1 ∈ table.getAll ↔ contact ∈ table.kbucket.toArray := by
  rw [getAll, List.mem_map]
  constructor
  · rintro ⟨c, hc, heq⟩
    rwa [← Subtype.ext heq]
  · intro h
    exact ⟨contact, h, rfl⟩

theorem exists_of_mem_getAll (h : peer ∈ table.getAll) :
    ∃ contact : Contact, contact ∈ table.kbucket.toArray ∧ contact.1 = peer :=
  List.mem_map.1 h

theorem Consistent.nodup_ids (h : table.Consistent idLength) :
    (table.kbucket.toArray.map Contact.id).Nodup := by
  have hkeys : ∀ peer ∈ table.getAll,
      bytesToUnprefixedHex (peer.id.getD []) ∈ getPeerKeys peer := by
    intro peer hpeer
    obtain ⟨contact, -, rfl⟩ := exists_of_mem_getAll hpeer
    rw [contact.some_id]
    exact contact.hex_mem_getPeerKeys
  have hnodup : (table.getAll.map PeerInfo.id).Nodup := h.indexed.nodup_map PeerInfo.id
    (fun id => bytesToUnprefixedHex (id.getD [])) hkeys
  rw [getAll, List.map_map] at hnodup
  refine List.Nodup.of_map some ?_
  rw [List.map_map]
  refine (List.map_congr_left fun contact _ => ?_) ▸ hnodup
  exact contact.some_id

theorem Consistent.id_ne (h : table.Consistent idLength) {contact : Contact}
    (hnew : table.isExists contact.1 = false) : ∀ c ∈ table.kbucket.toArray, c.id ≠ contact.id := by
  intro c hc heq
  have hget := (h.indexed.get _ c.1).2 ⟨mem_getAll.2 hc, c.hex_mem_getPeerKeys⟩
  rw [heq, isExists_eq_false.1 hnew _ contact.hex_mem_getPeerKeys] at hget
  cases hget

theorem Consistent.nodup_getAll (h : table.Consistent idLength) : table.getAll.Nodup :=
  (List.Nodup.of_map Contact.id h.nodup_ids).map Subtype.val_injective

/-- **A call of `add` that is let through**: the contact is added or some are to be pinged, and
the table is consistent after. -/
theorem Consistent.exists_add (h : table.Consistent idLength)
    (hk : 1 ≤ table.kbucket.numberOfNodesPerKBucket) {contact : Contact}
    (hid : contact.id.length = idLength) (hnew : table.isExists contact.1 = false)
    (hfuel : 8 * idLength < fuel) : ∃ r, table.add fuel contact.1 = some (.ok r) ∧
      r.1.Consistent idLength ∧ KBucket.Added table.kbucket contact (r.1.kbucket, r.2) ∧
      r.1.kbucket = { table.kbucket with root := r.1.kbucket.root } := by
  have hfresh := isExists_eq_false.1 hnew
  obtain ⟨r, hloop, hwf, hadded, hroot⟩ :=
    KBucket.loop_addTurn h.wf hk (h.id_ne hnew) hid hfuel
  refine ⟨table.handle r, ?_, ⟨hwf, ?_⟩, hadded, hroot⟩
  · rw [add, hnew, PeerInfo.toContact_eq_some.2 rfl]
    simp only [Bool.false_eq_true, if_false, hloop, Option.map_some]
  · rcases hadded with ⟨hevent, hcontacts⟩ | ⟨hevent, hcontacts, -⟩
    · rw [handle, hevent]
      refine h.indexed.add (nodup_getPeerKeys contact.1) hfresh ?_
      exact hcontacts.map Subtype.val
    · rw [handle, hevent]
      exact h.indexed.perm (hcontacts.map Subtype.val)

theorem Consistent.remove_cases (h : table.Consistent idLength) (obj : PeerRef) :
    (table.get obj = none ∧ table.remove obj = (table, none)) ∨
      ∃ contact : Contact, table.get obj = some contact.1 ∧
        (table.remove obj).1.Consistent idLength ∧
        table.getAll.Perm (contact.1 :: (table.remove obj).1.getAll) ∧
        (table.remove obj).1.kbucket =
          { table.kbucket with root := (table.remove obj).1.kbucket.root } := by
  cases hget : table.get obj with
  | none => exact .inl ⟨rfl, by rw [remove, hget]⟩
  | some peer =>
    obtain ⟨key, -, hkey⟩ := List.exists_of_findSome?_eq_some hget
    obtain ⟨hpeer, -⟩ := (h.indexed.get key peer).1 hkey
    obtain ⟨contact, hcontact, rfl⟩ := exists_of_mem_getAll hpeer
    refine .inr ⟨contact, rfl, ?_⟩
    have hremove : table.remove obj = table.handle (table.kbucket.remove contact.id) := by
      simp only [remove, hget, contact.some_id]
    have hwf := h.wf.remove contact.id
    rw [hremove]
    rcases table.kbucket.remove_cases contact.id with ⟨-, hnone⟩ | ⟨index, c, hid, hc, heq, hperm⟩
    · exact absurd rfl (hnone contact (h.wf.mem_bucketOf hcontact))
    · -- the contact taken out is the one found, as their ids are one
      have hsame : c = contact := List.inj_on_of_nodup_map h.nodup_ids hc hcontact hid
      subst hsame
      have hmap := hperm.map Subtype.val
      refine ⟨⟨hwf, ?_⟩, hmap, ?_⟩
      · rw [handle, heq]
        rw [heq] at hmap
        exact h.indexed.remove hmap
      · rw [handle, heq]
        rfl

theorem Consistent.add_far (h : table.Consistent idLength) {contact : Contact}
    (hclosed : (table.kbucket.bucketOf contact.id).closed = true)
    (hfull : table.kbucket.numberOfNodesPerKBucket ≤
      (table.kbucket.bucketOf contact.id).items.length) (hfuel : 0 < fuel) :
    ∃ event, table.add fuel contact.1 = some (.ok (table, event)) := by
  cases hnew : table.isExists contact.1 with
  | true => exact ⟨none, by rw [add, if_pos hnew]⟩
  | false =>
    have hnone : KBucket.indexOf (table.kbucket.bucketOf contact.id).items contact.id = none :=
      KBucket.indexOf_eq_none.2 fun c hc => h.id_ne hnew c (KBucket.mem_toArray_of_bucketOf hc)
    have hturn : KBucket.addTurn contact table.kbucket = .inr (table.kbucket, some (.ping
        ((table.kbucket.bucketOf contact.id).items.take table.kbucket.numberOfNodesToPing)
        contact)) := by
      simp only [KBucket.addTurn, hnone, if_neg (Nat.not_lt.2 hfull), hclosed, if_true]
    obtain ⟨turns, rfl⟩ := Nat.exists_eq_succ_of_ne_zero hfuel.ne'
    have hadd : table.add (turns + 1) contact.1 = some (.ok (table.handle (table.kbucket, some
        (.ping ((table.kbucket.bucketOf contact.id).items.take table.kbucket.numberOfNodesToPing)
          contact)))) := by
      rw [add, hnew, PeerInfo.toContact_eq_some.2 rfl]
      simp only [Bool.false_eq_true, if_false, loop, hturn, Option.map_some]
    exact ⟨_, hadd⟩

/-- **Every call of `add` comes to an end**, with a table that is consistent and has lost no
peer. -/
theorem Consistent.add (h : table.Consistent idLength)
    (hk : 1 ≤ table.kbucket.numberOfNodesPerKBucket)
    (hid : ∀ id, peer.id = some id → id.length = idLength) (hfuel : 8 * idLength < fuel) :
    ∃ r, table.add fuel peer = some r ∧ ∀ r', r = .ok r' → r'.1.Consistent idLength ∧
      r'.1.kbucket = { table.kbucket with root := r'.1.kbucket.root } ∧
      ∀ c ∈ table.getAll, c ∈ r'.1.getAll := by
  cases hnew : table.isExists peer with
  | true =>
    refine ⟨_, by rw [RoutingTable.add, if_pos hnew], ?_⟩
    rintro _ ⟨⟩
    exact ⟨h, rfl, fun c hc => hc⟩
  | false =>
    cases hcontact : peer.toContact with
    | none =>
      refine ⟨.error "Contact must have an id", ?_, ?_⟩
      · rw [RoutingTable.add, hnew, hcontact]
        rfl
      · rintro _ ⟨⟩
    | some contact =>
      obtain rfl := PeerInfo.toContact_eq_some.1 hcontact
      obtain ⟨r, hadd, hr, hadded, hroot⟩ := h.exists_add hk (hid _ contact.some_id) hnew hfuel
      refine ⟨.ok r, hadd, ?_⟩
      rintro _ ⟨⟩
      refine ⟨hr, hroot, fun peer hpeer => ?_⟩
      obtain ⟨c, hc, rfl⟩ := exists_of_mem_getAll hpeer
      rcases hadded with ⟨-, hcontacts⟩ | ⟨-, hcontacts, -⟩
      · exact mem_getAll.2 (hcontacts.mem_iff.2 (List.mem_cons_of_mem contact hc))
      · exact mem_getAll.2 (hcontacts.mem_iff.2 hc)

theorem Consistent.remove (h : table.Consistent idLength) (obj : PeerRef) :
    (table.remove obj).1.Consistent idLength ∧ (table.remove obj).1.kbucket =
      { table.kbucket with root := (table.remove obj).1.kbucket.root } := by
  rcases h.remove_cases obj with ⟨-, heq⟩ | ⟨contact, -, hr, -, hroot⟩
  · rw [heq]
    exact ⟨h, rfl⟩
  · exact ⟨hr, hroot⟩

/-! ## Runs -/

/-- The ids a call gives to `add` have one length. -/
def Call.HasIdLength (idLength : ℕ) : Call → Prop
  | .add peer => ∀ id, peer.id = some id → id.length = idLength
  | .remove _ => True

theorem Consistent.exists_step (h : table.Consistent idLength)
    (hk : 1 ≤ table.kbucket.numberOfNodesPerKBucket) {call : Call}
    (hcall : call.HasIdLength idLength) (hfuel : 8 * idLength < fuel) :
    ∃ table', table.step fuel call = some table' ∧ table'.Consistent idLength ∧
      table'.kbucket = { table.kbucket with root := table'.kbucket.root } := by
  cases call with
  | add peer =>
    obtain ⟨r, hadd, hr⟩ := h.add hk hcall hfuel
    rw [step, hadd]
    cases r with
    | ok r => exact ⟨r.1, rfl, (hr r rfl).1, (hr r rfl).2.1⟩
    | error message => exact ⟨table, rfl, h, rfl⟩
  | remove obj => exact ⟨_, rfl, h.remove obj⟩

theorem Consistent.exists_run (h : table.Consistent idLength)
    (hk : 1 ≤ table.kbucket.numberOfNodesPerKBucket) {calls : List Call}
    (hcalls : ∀ call ∈ calls, call.HasIdLength idLength) (hfuel : 8 * idLength < fuel) :
    ∃ table', table.run fuel calls = some table' ∧ table'.Consistent idLength ∧
      table'.kbucket = { table.kbucket with root := table'.kbucket.root } := by
  induction calls generalizing table with
  | nil => exact ⟨table, rfl, h, rfl⟩
  | cons call calls ih =>
    obtain ⟨next, hstep, hnext, hroot⟩ := h.exists_step hk (hcalls _ List.mem_cons_self) hfuel
    have hk' : 1 ≤ next.kbucket.numberOfNodesPerKBucket := by
      rw [hroot]
      exact hk
    obtain ⟨last, hrun, hlast, hroot'⟩ :=
      ih hnext hk' (List.forall_mem_cons.1 hcalls).2
    refine ⟨last, ?_, hlast, ?_⟩
    · rw [run, List.foldlM_cons, hstep]
      exact hrun
    · exact hroot'.trans (congrArg (fun b : KBucket => { b with root := last.kbucket.root }) hroot)

/-- **What a routing table is to be**, for a bucket size and ids of one length. -/
structure Sound (table : RoutingTable) (fuel k idLength : ℕ) : Prop where
  bounded : ∀ path contacts noSplit,
    (path, contacts, noSplit) ∈ table.kbucket.root.buckets [] → contacts.length ≤ k
  placed : ∀ path contacts noSplit, (path, contacts, noSplit) ∈ table.kbucket.root.buckets [] →
    ∀ contact ∈ contacts, BucketTree.bitsTo determineNode contact.id path.length = path
  ids : (table.kbucket.toArray.map Contact.id).Nodup
  keys : (table.getAll.flatMap getPeerKeys).Nodup
  index : ∀ key peer,
    table.peers.get key = some peer ↔ peer ∈ table.getAll ∧ key ∈ getPeerKeys peer
  /-- `add` ends, and drops nothing. -/
  added : ∀ peer : PeerInfo, (∀ id, peer.id = some id → id.length = idLength) →
    ∃ r, table.add fuel peer = some r ∧ ∀ r', r = .ok r' → ∀ c ∈ table.getAll, c ∈ r'.1.getAll
  /-- In a full far bucket it changes nothing. -/
  far : ∀ contact : Contact, (table.kbucket.bucketOf contact.id).closed = true →
    k ≤ (table.kbucket.bucketOf contact.id).items.length →
    ∃ event, table.add fuel contact.1 = some (.ok (table, event))

/-- **After any calls the routing table is what it is to be.** -/
theorem sound_run (localNodeId : Bytes) {k concurrency idLength fuel : ℕ} (hk : 1 ≤ k)
    (calls : List Call) (hcalls : ∀ call ∈ calls, call.HasIdLength idLength)
    (hfuel : 8 * idLength < fuel) :
    ∃ table, (new localNodeId k concurrency).run fuel calls = some table ∧
      table.Sound fuel k idLength := by
  obtain ⟨table, hrun, htable, hroot⟩ :=
    (consistent_new localNodeId k concurrency idLength).exists_run hk hcalls hfuel
  have hsize : table.kbucket.numberOfNodesPerKBucket = k := by rw [hroot]; rfl
  have hkept : 1 ≤ table.kbucket.numberOfNodesPerKBucket := by omega
  refine ⟨table, hrun, ?_⟩
  constructor
  · rw [← hsize]
    exact htable.wf.bounded
  · exact htable.wf.placed
  · exact htable.nodup_ids
  · exact htable.indexed.nodup
  · exact htable.indexed.get
  · intro peer hid
    obtain ⟨r, hadd, hr⟩ := htable.add hkept hid hfuel
    exact ⟨r, hadd, fun r' hr' => (hr r' hr').2.2⟩
  · intro contact hclosed hfull
    exact htable.add_far hclosed (hsize ▸ hfull) (by omega)

/-- A peer with an id of one byte. -/
def samplePeer (byte : UInt8) (address : String) : PeerInfo :=
  { id := some [byte], address := some address, udpPort := .null, tcpPort := .number 1
    vectorClock := none }

/-- The second peer splits the table, and the third would go into the full far half. -/
theorem sound_run_sample : ∃ table, (new [0] 1 3).run 9 [.add (samplePeer 128 "a"),
    .add (samplePeer 0 "b"), .add (samplePeer 192 "c"), .remove (.text "a:1")] = some table ∧
      table.Sound 9 1 1 := by
  refine sound_run [0] le_rfl _ ?_ (by omega)
  intro call hcall
  simp only [List.mem_cons, List.not_mem_nil, or_false] at hcall
  rcases hcall with rfl | rfl | rfl | rfl
  · rintro id ⟨⟩
    rfl
  · rintro id ⟨⟩
    rfl
  · rintro id ⟨⟩
    rfl
  · trivial

end RoutingTable

end Kademlia

end TsEthereum
