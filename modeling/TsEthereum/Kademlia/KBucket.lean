import TsEthereum.Common.BucketTree
import TsEthereum.Common.Bytes
import TsEthereum.Common.Loop
import Mathlib.Data.Nat.Bitwise

/-!
# The k-bucket

`KBucket` (`kademlia/bucket.ts`): the contacts of a node in a tree of buckets, of
at most `numberOfNodesPerKBucket` each. A full bucket is split by the next bit of
the ids, and of its halves the one the local id is not in is never split again
(`noSplit`): a contact that would go into it when it is full is not taken, and
some of those there are given to be pinged instead. `add` calls itself after a
split; a turn of it is `addTurn`, and with ids of one length it has an end, as two
ids that stay together for all their bits are one (`loop_addTurn`).
-/

namespace TsEthereum

namespace Kademlia

/-- A port: a field that may be missing, or `null`. -/
inductive Port
  | undefined
  | null
  | number (port : ℕ)
  deriving DecidableEq

/-- A port in a text. -/
def Port.text : Port → String
  | undefined => "undefined"
  | null => "null"
  | number port => toString port

/-- **A peer**, as much of it as is known. -/
structure PeerInfo where
  id : Option Bytes
  address : Option String
  udpPort : Port
  tcpPort : Port
  vectorClock : Option ℕ
  deriving DecidableEq

/-- A peer with an id. -/
abbrev Contact : Type := {peer : PeerInfo // peer.id.isSome}

/-- Its id. -/
def Contact.id (contact : Contact) : Bytes := contact.1.id.get contact.2

/-- A peer as a contact, if it has an id. -/
def PeerInfo.toContact (peer : PeerInfo) : Option Contact :=
  if h : peer.id.isSome then some ⟨peer, h⟩ else none

theorem PeerInfo.toContact_eq_some {peer : PeerInfo} {contact : Contact} :
    peer.toContact = some contact ↔ contact.1 = peer := by
  rw [toContact]
  split
  · rename_i hid
    rw [Option.some.injEq]
    constructor
    · rintro rfl
      rfl
    · rintro rfl
      rfl
  · rename_i hid
    constructor
    · intro h
      cases h
    · rintro rfl
      exact absurd contact.2 hid

theorem Contact.some_id (contact : Contact) : contact.1.id = some contact.id :=
  (Option.some_get contact.2).symm

/-- **`bytesToUnprefixedHex`.** -/
def bytesToUnprefixedHex (bytes : Bytes) : String :=
  String.ofList (bytes.flatMap fun byte =>
    [Nat.digitChar (byte.toNat / 16), Nat.digitChar (byte.toNat % 16)])

/-- **`getPeerKeys`**, of a peer: its id, and its address with its port. -/
def getPeerKeys (obj : PeerInfo) : List String :=
  (match obj.id with
    | some id => [bytesToUnprefixedHex id]
    | none => []) ++
  match obj.address, obj.tcpPort with
    | some address, .number tcpPort => [address ++ ":" ++ toString tcpPort]
    | _, _ => []

/-- What a k-bucket emits. -/
inductive KBucketEvent
  | ping (contacts : List Contact) (contact : Contact)
  | updated (incumbent selection : Contact)
  | added (peer : Contact)
  | removed (peer : Contact)
  deriving DecidableEq

/-- **A k-bucket.** -/
structure KBucket where
  localNodeId : Bytes
  numberOfNodesPerKBucket : ℕ
  numberOfNodesToPing : ℕ
  root : BucketTree Contact

/-- **`_determineNode`**: whether an id goes to the right. -/
def determineNode (id : Bytes) (bitIndex : ℕ) : Bool :=
  let bytesDescribedByBitIndex := bitIndex >>> 3
  let bitIndexWithinByte := bitIndex % 8
  if id.length ≤ bytesDescribedByBitIndex ∧ bitIndexWithinByte ≠ 0 then false
  else
    match id[bytesDescribedByBitIndex]? with
    | some byteUnderConsideration =>
      byteUnderConsideration.toNat &&& (1 <<< (7 - bitIndexWithinByte)) != 0
    | none => false

/-! ## Bits of an id -/

theorem determineNode_eq_testBit {id : Bytes} {d : ℕ} (h : d / 8 < id.length) :
    determineNode id d = (id[d / 8]).toNat.testBit (7 - d % 8) := by
  have hshift : d >>> 3 = d / 8 := Nat.shiftRight_eq_div_pow d 3
  rw [determineNode, hshift, if_neg (fun hd => absurd hd.1 (Nat.not_le.2 h)),
    List.getElem?_eq_getElem h]
  dsimp only
  rw [Nat.one_shiftLeft, Nat.and_two_pow]
  cases (id[d / 8]).toNat.testBit (7 - d % 8) with
  | false => simp
  | true => simp

theorem byte_ext {a b : UInt8} (h : ∀ j < 8, a.toNat.testBit j = b.toNat.testBit j) : a = b := by
  refine UInt8.toNat_inj.1 (Nat.eq_of_testBit_eq fun j => ?_)
  rcases Nat.lt_or_ge j 8 with hj | hj
  · exact h j hj
  · have hpow : 2 ^ 8 ≤ 2 ^ j := Nat.pow_le_pow_right (by omega) hj
    rw [Nat.testBit_lt_two_pow (a.toNat_lt.trans_le hpow),
      Nat.testBit_lt_two_pow (b.toNat_lt.trans_le hpow)]

theorem eq_of_bitsTo {id id' : Bytes} (hlen : id.length = id'.length) {depth : ℕ}
    (hdepth : 8 * id.length ≤ depth)
    (h : BucketTree.bitsTo determineNode id depth = BucketTree.bitsTo determineNode id' depth) :
    id = id' := by
  refine List.ext_getElem hlen fun i hi hi' => byte_ext fun j hj => ?_
  have hbit := BucketTree.bit_eq_of_bitsTo determineNode h (d := 8 * i + (7 - j)) (by omega)
  have hdiv : (8 * i + (7 - j)) / 8 = i := by omega
  have hmod : 7 - (8 * i + (7 - j)) % 8 = j := by omega
  rw [determineNode_eq_testBit (by omega), determineNode_eq_testBit (by omega)] at hbit
  simpa only [hdiv, hmod] using hbit

namespace KBucket

/-- `_indexOf`. -/
def indexOf (contacts : List Contact) (id : Bytes) : Option ℕ :=
  contacts.findIdx? fun contact => contact.id = id

/-- `arbiter`: whether it selects the incumbent. -/
def arbiter (incumbent candidate : Contact) : Bool :=
  match incumbent.1.vectorClock, candidate.1.vectorClock with
  | some clock, some clock' => decide (clock' < clock)
  | _, _ => false

/-- `_update`. -/
def update (contacts : List Contact) (index : ℕ) (contact : Contact) :
    List Contact × Option KBucketEvent :=
  match contacts[index]? with
  | none => (contacts, none)
  | some incumbent =>
    if arbiter incumbent contact then (contacts, none)
    else (contacts.eraseIdx index ++ [contact], some (.updated incumbent contact))

/-- **`_split`.** -/
def split (localNodeId : Bytes) (contacts : List Contact) (bitIndex : ℕ) : BucketTree Contact :=
  let left := contacts.filter fun contact => !determineNode contact.id bitIndex
  let right := contacts.filter fun contact => determineNode contact.id bitIndex
  let detNode := determineNode localNodeId bitIndex
  .fork (.bucket left detNode) (.bucket right !detNode)

/-- The bucket an id belongs to. -/
def bucketOf (b : KBucket) (id : Bytes) : Bucket Contact := b.root.find determineNode id 0

/-- Another tree in its place. -/
def setBucketOf (b : KBucket) (id : Bytes) (new : BucketTree Contact) : KBucket :=
  { b with root := b.root.replace determineNode id new 0 }

def toArray (b : KBucket) : List Contact := b.root.items

/-- **`add`, up to where it calls itself.** -/
def addTurn (contact : Contact) (b : KBucket) : KBucket ⊕ KBucket × Option KBucketEvent :=
  let node := b.bucketOf contact.id
  match indexOf node.items contact.id with
  | some index =>
    let (contacts, event) := update node.items index contact
    .inr (b.setBucketOf contact.id (.bucket contacts node.closed), event)
  | none =>
    if node.items.length < b.numberOfNodesPerKBucket then
      .inr (b.setBucketOf contact.id (.bucket (node.items ++ [contact]) node.closed),
        some (.added contact))
    else if node.closed then
      .inr (b, some (.ping (node.items.take b.numberOfNodesToPing) contact))
    else .inl (b.setBucketOf contact.id (split b.localNodeId node.items node.depth))

/-- **`remove`.** -/
def remove (id : Bytes) (b : KBucket) : KBucket × Option KBucketEvent :=
  let node := b.bucketOf id
  match indexOf node.items id with
  | none => (b, none)
  | some index =>
    (b.setBucketOf id (.bucket (node.items.eraseIdx index) node.closed),
      node.items[index]?.map .removed)

/-! ## What the calls do to the contacts -/

section

variable {b : KBucket} {contact : Contact} {id : Bytes}

theorem exists_rest (b : KBucket) (id : Bytes) : ∃ rest : List Contact,
    b.toArray.Perm ((b.bucketOf id).items ++ rest) ∧
      ∀ new, (b.setBucketOf id new).toArray.Perm (new.items ++ rest) :=
  BucketTree.exists_rest determineNode b.root id 0

theorem mem_toArray_of_bucketOf (h : contact ∈ (b.bucketOf id).items) : contact ∈ b.toArray := by
  obtain ⟨rest, hitems, -⟩ := b.exists_rest id
  exact hitems.mem_iff.2 (List.mem_append_left _ h)

theorem indexOf_eq_none {contacts : List Contact} :
    indexOf contacts id = none ↔ ∀ contact ∈ contacts, contact.id ≠ id := by
  rw [indexOf, List.findIdx?_eq_none_iff]
  simp only [decide_eq_false_iff_not, ne_eq]

theorem exists_of_indexOf {contacts : List Contact} {index : ℕ}
    (h : indexOf contacts id = some index) : ∃ contact, contacts[index]? = some contact ∧
      contact.id = id ∧ contacts.Perm (contact :: contacts.eraseIdx index) := by
  obtain ⟨hlt, hid, -⟩ := List.findIdx?_eq_some_iff_getElem.1 h
  refine ⟨contacts[index], List.getElem?_eq_getElem hlt, of_decide_eq_true hid, ?_⟩
  exact (List.getElem_cons_eraseIdx_perm hlt).symm

theorem items_split (localNodeId : Bytes) (contacts : List Contact) (bitIndex : ℕ) :
    (split localNodeId contacts bitIndex).items.Perm contacts := by
  refine List.perm_append_comm.trans ?_
  exact List.filter_append_perm (fun contact => determineNode contact.id bitIndex) contacts

theorem remove_cases (b : KBucket) (id : Bytes) :
    (b.remove id = (b, none) ∧ ∀ contact ∈ (b.bucketOf id).items, contact.id ≠ id) ∨
      ∃ (index : ℕ) (contact : Contact), contact.id = id ∧ contact ∈ b.toArray ∧
        b.remove id = (b.setBucketOf id
          (.bucket ((b.bucketOf id).items.eraseIdx index) (b.bucketOf id).closed),
          some (.removed contact)) ∧
        b.toArray.Perm (contact :: (b.remove id).1.toArray) := by
  rw [remove]
  cases hindex : indexOf (b.bucketOf id).items id with
  | none => exact .inl ⟨rfl, indexOf_eq_none.1 hindex⟩
  | some index =>
    obtain ⟨contact, hget, hid, hperm⟩ := exists_of_indexOf hindex
    obtain ⟨rest, hitems, hset⟩ := b.exists_rest id
    refine .inr ⟨index, contact, hid, ?_, ?_, ?_⟩
    · exact mem_toArray_of_bucketOf (List.mem_of_getElem? hget)
    · dsimp only
      rw [hget, Option.map_some]
    · exact (hitems.trans (hperm.append_right rest)).trans
        ((hset (.bucket _ (b.bucketOf id).closed)).symm.cons contact)

end

/-! ## The invariant -/

/-- **What the calls keep**: buckets within their size, contacts where their ids lead, and
ids of one length. -/
structure Wf (b : KBucket) (idLength : ℕ) : Prop where
  bounded : b.root.AllBuckets (fun _ contacts _ => contacts.length ≤ b.numberOfNodesPerKBucket) []
  placed : b.root.Placed determineNode Contact.id []
  lengths : ∀ contact ∈ b.toArray, contact.id.length = idLength

section

variable {b : KBucket} {idLength : ℕ} {contact : Contact} {id : Bytes}

theorem Wf.setBucketOf (h : b.Wf idLength) {new : BucketTree Contact}
    (hbounded : new.AllBuckets (fun _ contacts _ => contacts.length ≤ b.numberOfNodesPerKBucket)
      (BucketTree.bitsTo determineNode id (b.bucketOf id).depth))
    (hplaced : new.Placed determineNode Contact.id
      (BucketTree.bitsTo determineNode id (b.bucketOf id).depth))
    (hlengths : ∀ contact ∈ new.items, contact.id.length = idLength) :
    (b.setBucketOf id new).Wf idLength := by
  refine ⟨?_, ?_, ?_⟩
  · have hroot := h.bounded
    rw [← BucketTree.bitsTo_zero determineNode id] at hroot ⊢
    exact hroot.replace determineNode hbounded
  · have hroot := h.placed
    rw [← BucketTree.bitsTo_zero determineNode id] at hroot ⊢
    exact BucketTree.AllBuckets.replace determineNode hroot hplaced
  · intro contact hcontact
    obtain ⟨rest, hitems, hset⟩ := b.exists_rest id
    rcases List.mem_append.1 ((hset new).mem_iff.1 hcontact) with hnew | hrest
    · exact hlengths contact hnew
    · exact h.lengths contact (hitems.mem_iff.2 (List.mem_append_right _ hrest))

theorem Wf.length_bucketOf (h : b.Wf idLength) (id : Bytes) :
    (b.bucketOf id).items.length ≤ b.numberOfNodesPerKBucket := by
  have hroot := h.bounded
  rw [← BucketTree.bitsTo_zero determineNode id] at hroot
  exact BucketTree.AllBuckets.find determineNode hroot

theorem Wf.bitsTo_bucketOf (h : b.Wf idLength) (hcontact : contact ∈ (b.bucketOf id).items) :
    BucketTree.bitsTo determineNode contact.id (b.bucketOf id).depth =
      BucketTree.bitsTo determineNode id (b.bucketOf id).depth := by
  have hroot := h.placed
  rw [← BucketTree.bitsTo_zero determineNode id] at hroot
  have hbits := BucketTree.AllBuckets.find determineNode hroot contact hcontact
  rwa [BucketTree.length_bitsTo] at hbits

theorem Wf.mem_bucketOf (h : b.Wf idLength) (hcontact : contact ∈ b.toArray) :
    contact ∈ (b.bucketOf contact.id).items :=
  BucketTree.Placed.mem_find h.placed hcontact

theorem Wf.setBucketOf_bucket (h : b.Wf idLength) {contacts : List Contact} (closed : Bool)
    (hlength : contacts.length ≤ b.numberOfNodesPerKBucket)
    (hcontacts : ∀ contact ∈ contacts, contact ∈ (b.bucketOf id).items ∨
      contact.id = id ∧ id.length = idLength) :
    (b.setBucketOf id (.bucket contacts closed)).Wf idLength := by
  refine h.setBucketOf (BucketTree.allBuckets_bucket.2 hlength)
    (BucketTree.allBuckets_bucket.2 fun contact hcontact => ?_) fun contact hcontact => ?_
  · rw [BucketTree.length_bitsTo]
    rcases hcontacts contact hcontact with hmem | ⟨rfl, -⟩
    · exact h.bitsTo_bucketOf hmem
    · rfl
  · rcases hcontacts contact hcontact with hmem | ⟨rfl, hid⟩
    · exact h.lengths contact (mem_toArray_of_bucketOf hmem)
    · exact hid

theorem Wf.setBucketOf_split (h : b.Wf idLength) (id : Bytes) : (b.setBucketOf id
    (split b.localNodeId (b.bucketOf id).items (b.bucketOf id).depth)).Wf idLength := by
  have hlength := h.length_bucketOf id
  -- a contact kept on a side has the bit of that side behind the bits of the bucket
  have hside {contact : Contact} {side : Bool} (hmem : contact ∈ (b.bucketOf id).items)
      (hbit : determineNode contact.id (b.bucketOf id).depth = side) :
      BucketTree.bitsTo determineNode contact.id
          (BucketTree.bitsTo determineNode id (b.bucketOf id).depth ++ [side]).length =
        BucketTree.bitsTo determineNode id (b.bucketOf id).depth ++ [side] := by
    rw [List.length_append, List.length_singleton, BucketTree.length_bitsTo, BucketTree.bitsTo_succ,
      h.bitsTo_bucketOf hmem, hbit]
  refine h.setBucketOf (BucketTree.allBuckets_fork.2 ⟨?_, ?_⟩)
    (BucketTree.allBuckets_fork.2 ⟨?_, ?_⟩) fun contact hcontact => ?_
  · exact BucketTree.allBuckets_bucket.2 ((List.length_filter_le _ _).trans hlength)
  · exact BucketTree.allBuckets_bucket.2 ((List.length_filter_le _ _).trans hlength)
  · refine BucketTree.allBuckets_bucket.2 fun contact hcontact => ?_
    obtain ⟨hmem, hbit⟩ := List.mem_filter.1 hcontact
    exact hside hmem (by simpa only [Bool.not_eq_true'] using hbit)
  · refine BucketTree.allBuckets_bucket.2 fun contact hcontact => ?_
    obtain ⟨hmem, hbit⟩ := List.mem_filter.1 hcontact
    exact hside hmem hbit
  · exact h.lengths contact (mem_toArray_of_bucketOf ((items_split _ _ _).mem_iff.1 hcontact))

theorem Wf.remove (h : b.Wf idLength) (id : Bytes) : (b.remove id).1.Wf idLength := by
  rcases b.remove_cases id with ⟨heq, -⟩ | ⟨index, contact, -, -, heq, -⟩
  · rw [heq]
    exact h
  · rw [heq]
    refine h.setBucketOf_bucket _ ?_ fun contact hcontact => .inl (List.mem_of_mem_eraseIdx hcontact)
    exact (List.length_eraseIdx_le _ _).trans (h.length_bucketOf id)

/-! ## `add` has an end -/

/-- What a call of `add` has done by its end, of a contact that was not there: the contact is
added, or its bucket is full and closed and the first contacts of it are to be pinged. -/
def Added (b : KBucket) (contact : Contact) (r : KBucket × Option KBucketEvent) : Prop :=
  (r.2 = some (.added contact) ∧ r.1.toArray.Perm (contact :: b.toArray)) ∨
    (r.2 = some (.ping ((r.1.bucketOf contact.id).items.take b.numberOfNodesToPing) contact) ∧
      r.1.toArray.Perm b.toArray ∧ (r.1.bucketOf contact.id).closed = true ∧
      b.numberOfNodesPerKBucket ≤ (r.1.bucketOf contact.id).items.length)

/-- **A turn of `add`** ends it, or splits a bucket that is not yet as deep as the ids are long. -/
theorem addTurn_cases (h : b.Wf idLength) (hk : 1 ≤ b.numberOfNodesPerKBucket)
    (hnew : ∀ c ∈ b.toArray, c.id ≠ contact.id) (hid : contact.id.length = idLength) :
    (∃ r, addTurn contact b = .inr r ∧ r.1.Wf idLength ∧ Added b contact r ∧
        r.1 = { b with root := r.1.root }) ∨
      (addTurn contact b = .inl (b.setBucketOf contact.id
          (split b.localNodeId (b.bucketOf contact.id).items (b.bucketOf contact.id).depth)) ∧
        (b.bucketOf contact.id).depth < 8 * idLength) := by
  have hnone : indexOf (b.bucketOf contact.id).items contact.id = none :=
    indexOf_eq_none.2 fun c hc => hnew c (mem_toArray_of_bucketOf hc)
  obtain ⟨rest, hitems, hset⟩ := b.exists_rest contact.id
  simp only [addTurn, hnone]
  by_cases hroom : (b.bucketOf contact.id).items.length < b.numberOfNodesPerKBucket
  · rw [if_pos hroom]
    refine .inl ⟨_, rfl, ?_, .inl ⟨rfl, ?_⟩, rfl⟩
    · refine h.setBucketOf_bucket _ ?_ fun c hc => ?_
      · rw [List.length_append, List.length_singleton]
        exact hroom
      · rcases List.mem_append.1 hc with hc | hc
        · exact .inl hc
        · rw [List.mem_singleton.1 hc]
          exact .inr ⟨rfl, hid⟩
    · refine (hset _).trans ?_
      rw [BucketTree.items, List.append_assoc]
      exact List.perm_middle.trans (hitems.symm.cons contact)
  · rw [if_neg hroom]
    by_cases hclosed : (b.bucketOf contact.id).closed = true
    · rw [if_pos hclosed]
      exact .inl ⟨_, rfl, h, .inr ⟨rfl, .refl _, hclosed, Nat.not_lt.1 hroom⟩, rfl⟩
    · rw [if_neg hclosed]
      refine .inr ⟨rfl, ?_⟩
      by_contra hdeep
      -- a contact of the full bucket would have all bits of the new one
      obtain ⟨c, hc⟩ := List.exists_mem_of_length_pos (by omega :
        0 < (b.bucketOf contact.id).items.length)
      have hcmem := mem_toArray_of_bucketOf hc
      have hlen := h.lengths c hcmem
      exact hnew c hcmem (eq_of_bitsTo (hlen.trans hid.symm) (by omega) (h.bitsTo_bucketOf hc))

theorem depth_split (b : KBucket) (id : Bytes) (contacts : List Contact) (bitIndex : ℕ) :
    ((b.setBucketOf id (split b.localNodeId contacts bitIndex)).bucketOf id).depth =
      (b.bucketOf id).depth + 1 := by
  rw [bucketOf, KBucket.setBucketOf, BucketTree.find_replace, split, BucketTree.find]
  split
  · rfl
  · rfl

/-- **`add` of a contact that is not there ends**, within a turn for each bit of an id. -/
theorem loop_addTurn (h : b.Wf idLength) (hk : 1 ≤ b.numberOfNodesPerKBucket)
    (hnew : ∀ c ∈ b.toArray, c.id ≠ contact.id) (hid : contact.id.length = idLength) {fuel : ℕ}
    (hfuel : 8 * idLength < fuel) : ∃ r, loop (addTurn contact) fuel b = some r ∧
      r.1.Wf idLength ∧ Added b contact r ∧ r.1 = { b with root := r.1.root } := by
  refine loop_of_measure
    (I := fun s => s.Wf idLength ∧ s.toArray.Perm b.toArray ∧ s = { b with root := s.root })
    (fun s => 8 * idLength - (s.bucketOf contact.id).depth) ?_ ⟨h, .refl _, rfl⟩ (by omega)
  rintro s ⟨hs, hperm, hsame⟩
  have hkept : s.numberOfNodesPerKBucket = b.numberOfNodesPerKBucket := by rw [hsame]
  have hping : s.numberOfNodesToPing = b.numberOfNodesToPing := by rw [hsame]
  rcases addTurn_cases hs (hkept ▸ hk) (fun c hc => hnew c (hperm.mem_iff.1 hc)) hid with
    ⟨r, hturn, hwf, hadded, hroot⟩ | ⟨hturn, hdepth⟩
  · refine .inl ⟨r, hturn, hwf, ?_, ?_⟩
    · rcases hadded with ⟨hevent, hcontacts⟩ | ⟨hevent, hcontacts, hclosed, hfull⟩
      · exact .inl ⟨hevent, hcontacts.trans (hperm.cons contact)⟩
      · exact .inr ⟨hping ▸ hevent, hcontacts.trans hperm, hclosed, hkept ▸ hfull⟩
    · exact hroot.trans (congrArg (fun t : KBucket => { t with root := r.1.root }) hsame)
  · refine .inr ⟨_, hturn, ⟨hs.setBucketOf_split contact.id, ?_, ?_⟩, ?_⟩
    · obtain ⟨rest, hitems, hset⟩ := s.exists_rest contact.id
      refine ((hset _).trans ?_).trans hperm
      exact ((items_split _ _ _).append_right rest).trans hitems.symm
    · rw [hsame]
      rfl
    · rw [depth_split]
      omega

end

end KBucket

end Kademlia

end TsEthereum
