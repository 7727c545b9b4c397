import TsEthereum.Common.Doubles
import TsEthereum.Common.Padding
import TsEthereum.Kademlia.KBucket
import Mathlib.Data.List.Sort

/-!
# The closest contacts

`KBucket.closest` (`kademlia/bucket.ts`): the buckets are collected along the bits of an
id until there are enough contacts, which are sorted by their distance to it. One
bit index serves all nodes of the tree, as of two halves one is never split
again (`Chain`), and a bucket that is collected later is farther
(`pairwise_visit`). The distance is a number, and above 53 bits it is rounded: contacts whose
distances are rounded to one are not told apart (`closest_run`).
-/

namespace TsEthereum

namespace Kademlia

/-! ## Distances -/

/-- A byte of the distance. -/
def addByte (distance : ℕ) (byte : UInt8) : ℕ := toDouble (distance * 256 + byte.toNat)

/-- **`distance`**: the bytes of the longer id that the other one has not are as far as can
be. -/
def distance (firstId secondId : Bytes) : ℕ :=
  (List.zipWith (· ^^^ ·) firstId secondId ++
    List.replicate (max firstId.length secondId.length - min firstId.length secondId.length)
      255).foldl addByte 0

/-- **The distance as it is**, of ids of one length. -/
def xorDistance (firstId secondId : Bytes) : ℕ :=
  ofBigEndian (List.zipWith (· ^^^ ·) firstId secondId)

theorem ofBigEndian_cons (byte : UInt8) (bytes : Bytes) :
    ofBigEndian (byte :: bytes) = 2 ^ (8 * bytes.length) * byte.toNat + ofBigEndian bytes := by
  rw [ofBigEndian, ofBigEndian, List.reverse_cons, List.map_append, Nat.ofDigits_append,
    List.length_map, List.length_reverse, List.map_singleton, Nat.ofDigits_singleton,
    show (256 : ℕ) = 2 ^ 8 from rfl, ← pow_mul, Nat.add_comm]

theorem ofBigEndian_lt_two_pow (bytes : Bytes) : ofBigEndian bytes < 2 ^ (8 * bytes.length) := by
  have h := ofBigEndian_lt bytes
  rwa [show (256 : ℕ) = 2 ^ 8 from rfl, ← pow_mul] at h

theorem ofBigEndian_concat (bytes : Bytes) (byte : UInt8) :
    ofBigEndian (bytes ++ [byte]) = ofBigEndian bytes * 256 + byte.toNat := by
  rw [ofBigEndian, List.reverse_concat, List.map_cons, Nat.ofDigits_cons, ofBigEndian,
    Nat.mul_comm, Nat.add_comm]

theorem testBit_getD {bytes : Bytes} {d : ℕ} (h : d < 8 * bytes.length) :
    (ofBigEndian bytes).testBit (8 * bytes.length - 1 - d) =
      (bytes.getD (d / 8) 0).toNat.testBit (7 - d % 8) := by
  induction bytes generalizing d with
  | nil => cases h
  | cons byte bytes ih =>
    rw [List.length_cons] at h ⊢
    rw [ofBigEndian_cons, Nat.testBit_two_pow_mul_add _ (ofBigEndian_lt_two_pow bytes)]
    by_cases hd : d < 8
    · rw [if_neg (by omega), show d / 8 = 0 by omega, List.getD_cons_zero,
        show 8 * (bytes.length + 1) - 1 - d - 8 * bytes.length = 7 - d % 8 by omega]
    · rw [if_pos (by omega), show 8 * (bytes.length + 1) - 1 - d = 8 * bytes.length - 1 - (d - 8) by
        omega, ih (by omega), show d / 8 = (d - 8) / 8 + 1 by omega, List.getD_cons_succ,
        show (d - 8) % 8 = d % 8 by omega]

theorem testBit_ofBigEndian {bytes : Bytes} {d : ℕ} (h : d < 8 * bytes.length) :
    (ofBigEndian bytes).testBit (8 * bytes.length - 1 - d) = determineNode bytes d := by
  rw [determineNode_eq_testBit (by omega), testBit_getD h, List.getD_eq_getElem]

theorem determineNode_zipWith {a b : Bytes} (hlen : a.length = b.length) {d : ℕ}
    (h : d < 8 * a.length) : determineNode (List.zipWith (· ^^^ ·) a b) d =
      (determineNode a d ^^ determineNode b d) := by
  have hlength : (List.zipWith (· ^^^ ·) a b).length = a.length := by
    rw [List.length_zipWith, ← hlen, min_self]
  rw [determineNode_eq_testBit (by omega), determineNode_eq_testBit (by omega),
    determineNode_eq_testBit (by omega), List.getElem_zipWith, UInt8.toNat_xor, Nat.testBit_xor]

theorem xorDistance_lt {a b id : Bytes} (ha : a.length = id.length) (hb : b.length = id.length)
    {d : ℕ} (hd : d < 8 * id.length)
    (h : BucketTree.bitsTo determineNode a d = BucketTree.bitsTo determineNode b d)
    (hbit : determineNode a d = determineNode id d) (hbit' : determineNode b d ≠ determineNode id d) :
    xorDistance a id < xorDistance b id := by
  have hlen : ∀ c : Bytes, c.length = id.length →
      (List.zipWith (· ^^^ ·) c id).length = id.length := by
    intro c hc
    rw [List.length_zipWith, hc, min_self]
  -- the bit of the distance at a place counted from the highest
  have hat : ∀ c : Bytes, c.length = id.length → ∀ e < 8 * id.length,
      (xorDistance c id).testBit (8 * id.length - 1 - e) =
        (determineNode c e ^^ determineNode id e) := by
    intro c hc e he
    rw [← determineNode_zipWith hc (by omega), ← testBit_ofBigEndian (by rw [hlen c hc]; exact he),
      hlen c hc]
    rfl
  refine Nat.lt_of_testBit (8 * id.length - 1 - d) ?_ ?_ fun j hj => ?_
  · rw [hat a ha d hd, hbit, Bool.xor_self]
  · rw [hat b hb d hd]
    revert hbit'
    cases determineNode b d <;> cases determineNode id d <;> simp
  · by_cases hhigh : j < 8 * id.length
    · have hplace : j = 8 * id.length - 1 - (8 * id.length - 1 - j) := by omega
      rw [hplace, hat a ha _ (by omega), hat b hb _ (by omega),
        BucketTree.bit_eq_of_bitsTo determineNode h (by omega)]
    · have hlow : ∀ c : Bytes, c.length = id.length → (xorDistance c id).testBit j = false := by
        intro c hc
        have hlt := ofBigEndian_lt_two_pow (List.zipWith (· ^^^ ·) c id)
        rw [hlen c hc] at hlt
        exact Nat.testBit_lt_two_pow
          (hlt.trans_le (Nat.pow_le_pow_right (by omega) (Nat.not_lt.1 hhigh)))
      rw [hlow a ha, hlow b hb]

/-! ### The number of a distance -/

/-- The number of a distance that is being added up, beside the distance as it is. -/
def Rounded (exact number : ℕ) : Prop :=
  exact < 2 ^ 53 ∧ number = exact ∨ 2 ^ 53 ≤ exact ∧ IsDouble number

theorem Rounded.addByte {exact number : ℕ} (h : Rounded exact number) (byte : UInt8) :
    Rounded (exact * 256 + byte.toNat) (Kademlia.addByte number byte) := by
  have hbyte := byte.toNat_lt
  rcases h with ⟨hlt, rfl⟩ | ⟨hle, hdouble⟩
  · rcases Nat.lt_or_ge (number * 256 + byte.toNat) (2 ^ 53) with hsmall | hlarge
    · exact .inl ⟨hsmall, toDouble_of_lt hsmall⟩
    · exact .inr ⟨hlarge, isDouble_toDouble hlarge⟩
  · have hnumber := hdouble.1
    exact .inr ⟨by omega, isDouble_toDouble (by omega)⟩

theorem addByte_le {exact number exact' number' : ℕ} (h : Rounded exact number)
    (h' : Rounded exact' number') (hlt : exact < exact') (hle : number ≤ number') (byte byte' : UInt8) :
    exact * 256 + byte.toNat < exact' * 256 + byte'.toNat ∧
      addByte number byte ≤ addByte number' byte' := by
  have hbyte := byte.toNat_lt
  have hbyte' := byte'.toNat_lt
  refine ⟨by omega, ?_⟩
  rcases Nat.eq_or_lt_of_le hle with rfl | hnumber
  · -- the two are one number, which is then too large for another byte
    have hdouble : IsDouble number := by
      rcases h with ⟨hsmall, rfl⟩ | ⟨-, hdouble⟩
      · rcases h' with ⟨-, rfl⟩ | ⟨-, hdouble⟩
        · exact absurd hlt (lt_irrefl _)
        · exact hdouble
      · exact hdouble
    rw [addByte, addByte, toDouble_mul_add hdouble hbyte, toDouble_mul_add hdouble hbyte']
  · exact toDouble_mono (by omega)

/-- The numbers of two distances, with the distances. -/
def Compared (exact number exact' number' : ℕ) : Prop :=
  exact = exact' ∧ number = number' ∨ exact < exact' ∧ number ≤ number' ∨
    exact' < exact ∧ number' ≤ number

theorem compared_foldl {bytes bytes' : Bytes} (hlen : bytes.length = bytes'.length) :
    Rounded (ofBigEndian bytes) (bytes.foldl addByte 0) ∧
    Rounded (ofBigEndian bytes') (bytes'.foldl addByte 0) ∧
    Compared (ofBigEndian bytes) (bytes.foldl addByte 0) (ofBigEndian bytes')
      (bytes'.foldl addByte 0) := by
  induction bytes using List.reverseRecOn generalizing bytes' with
  | nil =>
    obtain rfl := List.length_eq_zero_iff.1 hlen.symm
    exact ⟨.inl ⟨by decide, rfl⟩, .inl ⟨by decide, rfl⟩, .inl ⟨rfl, rfl⟩⟩
  | append_singleton bytes byte ih =>
    obtain ⟨init, byte', rfl⟩ : ∃ init byte', bytes' = init ++ [byte'] := by
      rcases List.eq_nil_or_concat' bytes' with rfl | ⟨init, byte', rfl⟩
      · simp at hlen
      · exact ⟨init, byte', rfl⟩
    obtain ⟨h, h', hcompared⟩ := @ih init (by simpa using hlen)
    rw [ofBigEndian_concat, ofBigEndian_concat, List.foldl_concat, List.foldl_concat]
    refine ⟨h.addByte byte, h'.addByte byte', ?_⟩
    rcases hcompared with ⟨hexact, hnumber⟩ | ⟨hlt, hle⟩ | ⟨hlt, hle⟩
    · rw [hexact, hnumber]
      rcases Nat.lt_trichotomy byte.toNat byte'.toNat with hbyte | hbyte | hbyte
      · exact .inr (.inl ⟨by omega, toDouble_mono (by omega)⟩)
      · exact .inl ⟨by omega, by rw [addByte, addByte, hbyte]⟩
      · exact .inr (.inr ⟨by omega, toDouble_mono (by omega)⟩)
    · exact .inr (.inl (addByte_le h h' hlt hle byte byte'))
    · exact .inr (.inr (addByte_le h' h hlt hle byte' byte))

section

variable {a b id : Bytes}

theorem distance_eq_foldl (ha : a.length = id.length) :
    distance a id = (List.zipWith (· ^^^ ·) a id).foldl addByte 0 := by
  rw [distance, ha, max_self, min_self, Nat.sub_self, List.replicate_zero, List.append_nil]

/-- **A contact that is not farther by the number**, of two that the numbers tell apart. -/
theorem xorDistance_le_of_distance_le (ha : a.length = id.length) (hb : b.length = id.length)
    (hle : distance a id ≤ distance b id)
    (hseparate : distance a id = distance b id → xorDistance a id = xorDistance b id) :
    xorDistance a id ≤ xorDistance b id := by
  rw [distance_eq_foldl ha, distance_eq_foldl hb] at *
  have hlen : (List.zipWith (· ^^^ ·) a id).length = (List.zipWith (· ^^^ ·) b id).length := by
    rw [List.length_zipWith, List.length_zipWith, ha, hb]
  rcases (compared_foldl hlen).2.2 with ⟨heq, -⟩ | ⟨hlt, -⟩ | ⟨-, hge⟩
  · exact heq.le
  · exact hlt.le
  · exact (hseparate (le_antisymm hle hge)).le

theorem distance_eq_xorDistance (ha : a.length = id.length) (hid : id.length ≤ 6) :
    distance a id = xorDistance a id := by
  rw [distance_eq_foldl ha]
  have hlt := ofBigEndian_lt_two_pow (List.zipWith (· ^^^ ·) a id)
  rw [List.length_zipWith, ha, min_self] at hlt
  have hpow : 2 ^ (8 * id.length) ≤ 2 ^ 48 := Nat.pow_le_pow_right (by omega) (by omega)
  rcases (compared_foldl rfl).1 with ⟨-, heq⟩ | ⟨hle, -⟩
  · exact heq
  · omega

end

/-! ## The tree -/

namespace KBucket

/-- A node without halves. -/
def IsBucket (t : BucketTree Contact) : Prop := ∃ contacts noSplit, t = .bucket contacts noSplit

/-- **Splits are along the local id**: the half it is not in is a closed bucket. -/
def Chain (localNodeId : Bytes) : BucketTree Contact → ℕ → Prop
  | .bucket _ noSplit, _ => noSplit = false
  | .fork left right, depth =>
    if determineNode localNodeId depth then
      (∃ contacts, left = .bucket contacts true) ∧ Chain localNodeId right (depth + 1)
    else (∃ contacts, right = .bucket contacts true) ∧ Chain localNodeId left (depth + 1)

variable {b : KBucket} {contact : Contact} {id localNodeId : Bytes} {t : BucketTree Contact}
  {depth idLength n : ℕ}

theorem Chain.replace (h : Chain localNodeId t depth) {contacts : List Contact} {noSplit : Bool}
    (hclosed : noSplit = (t.find determineNode id depth).closed) :
    Chain localNodeId (t.replace determineNode id (.bucket contacts noSplit) depth) depth := by
  induction t generalizing depth with
  | bucket items closed => exact hclosed.trans h
  | fork left right ihleft ihright =>
    rw [BucketTree.find] at hclosed
    rw [BucketTree.replace]
    rw [Chain] at h
    by_cases hbit : determineNode id depth = true
    · rw [if_pos hbit] at hclosed ⊢
      rw [Chain]
      by_cases hlocal : determineNode localNodeId depth = true
      · rw [if_pos hlocal] at h ⊢
        exact ⟨h.1, ihright h.2 hclosed⟩
      · rw [if_neg hlocal] at h ⊢
        obtain ⟨⟨items, rfl⟩, hleft⟩ := h
        exact ⟨⟨contacts, by rw [BucketTree.replace, hclosed]; rfl⟩, hleft⟩
    · rw [if_neg hbit] at hclosed ⊢
      rw [Chain]
      by_cases hlocal : determineNode localNodeId depth = true
      · rw [if_pos hlocal] at h ⊢
        obtain ⟨⟨items, rfl⟩, hright⟩ := h
        exact ⟨⟨contacts, by rw [BucketTree.replace, hclosed]; rfl⟩, hright⟩
      · rw [if_neg hlocal] at h ⊢
        exact ⟨h.1, ihleft h.2 hclosed⟩

theorem Chain.replace_split (h : Chain localNodeId t depth) {contacts : List Contact}
    (hopen : (t.find determineNode id depth).closed = false) :
    Chain localNodeId (t.replace determineNode id (split localNodeId contacts
      (t.find determineNode id depth).depth) depth) depth := by
  induction t generalizing depth with
  | bucket items closed =>
    rw [BucketTree.replace, BucketTree.find, split, Chain]
    by_cases hlocal : determineNode localNodeId depth = true
    · rw [if_pos hlocal, hlocal]
      exact ⟨⟨_, rfl⟩, rfl⟩
    · rw [if_neg hlocal, Bool.eq_false_iff.2 hlocal]
      exact ⟨⟨_, rfl⟩, rfl⟩
  | fork left right ihleft ihright =>
    rw [BucketTree.find] at hopen ⊢
    rw [BucketTree.replace]
    rw [Chain] at h
    by_cases hbit : determineNode id depth = true
    · rw [if_pos hbit] at hopen ⊢
      rw [if_pos hbit, Chain]
      by_cases hlocal : determineNode localNodeId depth = true
      · rw [if_pos hlocal] at h ⊢
        exact ⟨h.1, ihright h.2 hopen⟩
      · rw [if_neg hlocal] at h
        obtain ⟨⟨items, rfl⟩, -⟩ := h
        cases hopen
    · rw [if_neg hbit] at hopen ⊢
      rw [if_neg hbit, Chain]
      by_cases hlocal : determineNode localNodeId depth = true
      · rw [if_pos hlocal] at h
        obtain ⟨⟨items, rfl⟩, -⟩ := h
        cases hopen
      · rw [if_neg hlocal] at h ⊢
        exact ⟨h.1, ihleft h.2 hopen⟩

/-- **What all calls keep**, of a contact that is there already too. -/
structure Kept (b : KBucket) (idLength : ℕ) : Prop where
  wf : b.Wf idLength
  chain : Chain b.localNodeId b.root 0
  ids : (b.toArray.map Contact.id).Nodup

theorem Kept.setBucketOf (h : b.Kept idLength) {contacts : List Contact}
    (hlength : contacts.length ≤ b.numberOfNodesPerKBucket)
    (hcontacts : ∀ contact ∈ contacts, contact ∈ (b.bucketOf id).items ∨
      contact.id = id ∧ id.length = idLength)
    (hids : ((b.setBucketOf id (.bucket contacts (b.bucketOf id).closed)).toArray.map
      Contact.id).Nodup) :
    (b.setBucketOf id (.bucket contacts (b.bucketOf id).closed)).Kept idLength :=
  ⟨h.wf.setBucketOf_bucket _ hlength hcontacts, h.chain.replace rfl, hids⟩

theorem Kept.addTurn (h : b.Kept idLength) (hid : contact.id.length = idLength) :
    (∀ b', addTurn contact b = .inl b' → b'.Kept idLength) ∧
      ∀ r, addTurn contact b = .inr r → r.1.Kept idLength := by
  obtain ⟨rest, hitems, hset⟩ := b.exists_rest contact.id
  have hperm := hitems.map Contact.id
  have hnodup := hperm.nodup_iff.1 h.ids
  rw [KBucket.addTurn]
  cases hindex : indexOf (b.bucketOf contact.id).items contact.id with
  | some index =>
    obtain ⟨incumbent, hget, hsame, hcons⟩ := exists_of_indexOf hindex
    refine ⟨fun b' heq => by simp at heq, ?_⟩
    rintro _ ⟨⟩
    simp only [hget]
    have hmoved : ((b.bucketOf contact.id).items.eraseIdx index ++ [contact]).length =
        (b.bucketOf contact.id).items.length := by
      have := hcons.length_eq
      simp only [List.length_cons] at this
      rw [List.length_append, List.length_singleton, this]
    split
    · refine h.setBucketOf (h.wf.length_bucketOf _) (fun c hc => .inl hc) ?_
      exact (((hset _).trans (.refl _)).map Contact.id).nodup_iff.2 hnodup
    · refine h.setBucketOf (hmoved.trans_le (h.wf.length_bucketOf _)) ?_ ?_
      · intro c hc
        rcases List.mem_append.1 hc with hc | hc
        · exact .inl (List.mem_of_mem_eraseIdx hc)
        · rw [List.mem_singleton.1 hc]
          exact .inr ⟨rfl, hid⟩
      · refine ((hset _).map Contact.id).nodup_iff.2 ?_
        refine List.Perm.nodup_iff ?_ |>.1 hnodup
        rw [BucketTree.items, List.map_append, List.map_append]
        refine List.Perm.append_right _ ((hcons.map Contact.id).trans ?_)
        rw [List.map_cons, hsame, List.map_append]
        exact (List.perm_append_singleton _ _).symm
  | none =>
    have hnew := indexOf_eq_none.1 hindex
    by_cases hroom : (b.bucketOf contact.id).items.length < b.numberOfNodesPerKBucket
    · simp only [if_pos hroom]
      refine ⟨fun b' heq => by simp at heq, ?_⟩
      rintro _ ⟨⟩
      refine h.setBucketOf (by simpa using hroom) ?_ ?_
      · intro c hc
        rcases List.mem_append.1 hc with hc | hc
        · exact .inl hc
        · rw [List.mem_singleton.1 hc]
          exact .inr ⟨rfl, hid⟩
      · have hadded : ((b.setBucketOf contact.id (.bucket ((b.bucketOf contact.id).items ++ [contact])
            (b.bucketOf contact.id).closed)).toArray).Perm (contact :: b.toArray) := by
          refine (hset _).trans (List.Perm.trans ?_ (hitems.symm.cons contact))
          rw [BucketTree.items, List.append_assoc, List.singleton_append]
          exact List.perm_middle
        refine (hadded.map Contact.id).nodup_iff.2 ?_
        rw [List.map_cons, List.nodup_cons]
        refine ⟨fun hmem => ?_, h.ids⟩
        obtain ⟨c, hc, heq⟩ := List.mem_map.1 hmem
        exact hnew c (heq ▸ h.wf.mem_bucketOf hc) heq
    · simp only [if_neg hroom]
      by_cases hclosed : (b.bucketOf contact.id).closed = true
      · simp only [if_pos hclosed]
        refine ⟨fun b' heq => by simp at heq, ?_⟩
        rintro _ ⟨⟩
        exact h
      · simp only [if_neg hclosed]
        refine ⟨?_, fun r heq => by simp at heq⟩
        rintro _ ⟨⟩
        refine ⟨h.wf.setBucketOf_split contact.id,
          h.chain.replace_split (Bool.eq_false_iff.2 hclosed), ?_⟩
        refine ((hset _).map Contact.id).nodup_iff.2 ?_
        refine (((items_split b.localNodeId (b.bucketOf contact.id).items
          (b.bucketOf contact.id).depth).append_right rest).map Contact.id).nodup_iff.2 hnodup

theorem Kept.remove (h : b.Kept idLength) (id : Bytes) : (b.remove id).1.Kept idLength := by
  have hwf := h.wf.remove id
  rcases b.remove_cases id with ⟨heq, -⟩ | ⟨index, contact, -, -, heq, hperm⟩
  · rw [heq]
    exact h
  · have hids := ((hperm.map Contact.id).nodup_iff.1 h.ids)
    rw [List.map_cons, List.nodup_cons] at hids
    rw [heq] at hwf hids ⊢
    exact ⟨hwf, h.chain.replace rfl, hids.2⟩

/-- A call of a k-bucket. -/
inductive Call
  | add (contact : Contact)
  | remove (id : Bytes)
  deriving DecidableEq

/-- **A call is made**: none if it is still running. -/
def step (fuel : ℕ) (b : KBucket) : Call → Option KBucket
  | .add contact => (loop (addTurn contact) fuel b).map Prod.fst
  | .remove id => some (b.remove id).1

/-- **The calls are made**, one after the other. -/
def run (fuel : ℕ) (b : KBucket) (calls : List Call) : Option KBucket := calls.foldlM (step fuel) b

/-- A new one. -/
def new (localNodeId : Bytes) (k concurrency : ℕ) : KBucket where
  localNodeId := localNodeId
  numberOfNodesPerKBucket := k
  numberOfNodesToPing := concurrency
  root := .bucket [] false

/-- The contacts that are added have ids of one length. -/
def Call.HasIdLength (idLength : ℕ) : Call → Prop
  | .add contact => contact.id.length = idLength
  | .remove _ => True

theorem kept_new (localNodeId : Bytes) (k concurrency idLength : ℕ) :
    (new localNodeId k concurrency).Kept idLength := by
  refine ⟨⟨BucketTree.allBuckets_bucket.2 (Nat.zero_le k), BucketTree.allBuckets_bucket.2 ?_, ?_⟩,
    rfl, List.nodup_nil⟩
  · intro contact hcontact
    cases hcontact
  · intro contact hcontact
    cases hcontact

theorem Kept.step {fuel : ℕ} {b' : KBucket} (h : b.Kept idLength) {call : Call}
    (hcall : call.HasIdLength idLength) (hstep : b.step fuel call = some b') :
    b'.Kept idLength := by
  cases call with
  | add contact =>
    obtain ⟨r, hr, rfl⟩ := Option.map_eq_some_iff.1 hstep
    exact loop_of_inv (I := fun s => s.Kept idLength) (Q := fun r => r.1.Kept idLength)
      (fun s s' hs hturn => (Kept.addTurn hs hcall).1 s' hturn)
      (fun s r hs hturn => (Kept.addTurn hs hcall).2 r hturn) h hr
  | remove id =>
    obtain rfl := Option.some.inj hstep
    exact h.remove id

theorem Kept.run {fuel : ℕ} {b' : KBucket} (h : b.Kept idLength) {calls : List Call}
    (hcalls : ∀ call ∈ calls, call.HasIdLength idLength) (hrun : b.run fuel calls = some b') :
    b'.Kept idLength := by
  induction calls generalizing b with
  | nil =>
    obtain rfl := Option.some.inj hrun
    exact h
  | cons call calls ih =>
    rw [KBucket.run, List.foldlM_cons] at hrun
    obtain ⟨next, hstep, hrest⟩ := Option.bind_eq_some_iff.1 hrun
    exact ih (h.step (hcalls _ List.mem_cons_self) hstep)
      (List.forall_mem_cons.1 hcalls).2 hrest

/-! ## The search -/

/-- **A turn of `closest`**: the nodes to visit, the next one first, the bit index, and the contacts
so far. -/
def closestTurn (id : Bytes) (n : ℕ) :
    List (BucketTree Contact) × ℕ × List Contact →
      List (BucketTree Contact) × ℕ × List Contact ⊕ List Contact
  | ([], _, contacts) => .inr contacts
  | (node :: nodes, bitIndex, contacts) =>
    if contacts.length < n then
      match node with
      | .fork left right =>
        if determineNode id bitIndex then .inl (right :: left :: nodes, bitIndex + 1, contacts)
        else .inl (left :: right :: nodes, bitIndex + 1, contacts)
      | .bucket items _ => .inl (nodes, bitIndex, contacts ++ items)
    else .inr contacts

/-- **`closest`**, with a bound on the turns of its loop. -/
def closest (fuel : ℕ) (b : KBucket) (id : Bytes) (n : ℕ) : Option (List Contact) :=
  (loop (closestTurn id n) fuel ([b.root], 0, [])).map fun contacts =>
    (contacts.insertionSort fun a b => distance a.id id ≤ distance b.id id).take n

/-- The buckets, in the order of a visit that has a bit index for each node. -/
def visit (id : Bytes) : BucketTree Contact → ℕ → List (List Contact)
  | .bucket items _, _ => [items]
  | .fork left right, depth =>
    if determineNode id depth then visit id right (depth + 1) ++ visit id left (depth + 1)
    else visit id left (depth + 1) ++ visit id right (depth + 1)

/-- The number of nodes. -/
def size : BucketTree Contact → ℕ
  | .bucket _ _ => 1
  | .fork left right => size left + size right + 1

/-- The first of the two halves at every node is a bucket, or the second is. -/
def Linear : BucketTree Contact → Prop
  | .bucket _ _ => True
  | .fork left right => IsBucket left ∧ Linear right ∨ IsBucket right ∧ Linear left

theorem Chain.linear (h : Chain localNodeId t depth) : Linear t := by
  induction t generalizing depth with
  | bucket items closed => trivial
  | fork left right ihleft ihright =>
    rw [Chain] at h
    split at h
    · obtain ⟨⟨items, rfl⟩, hright⟩ := h
      exact .inl ⟨⟨items, true, rfl⟩, ihright hright⟩
    · obtain ⟨⟨items, rfl⟩, hleft⟩ := h
      exact .inr ⟨⟨items, true, rfl⟩, ihleft hleft⟩

/-- **At most one of the nodes to visit is no bucket**, and it is linear. -/
def OneFork : List (BucketTree Contact) → Prop
  | [] => True
  | node :: nodes => IsBucket node ∧ OneFork nodes ∨ Linear node ∧ ∀ t ∈ nodes, IsBucket t

theorem oneFork_of_buckets {nodes : List (BucketTree Contact)} (h : ∀ t ∈ nodes, IsBucket t) :
    OneFork nodes := by
  induction nodes with
  | nil => trivial
  | cons node nodes ih =>
    exact .inl ⟨h node List.mem_cons_self, ih (List.forall_mem_cons.1 h).2⟩

theorem flatMap_visit_of_buckets (id : Bytes) {nodes : List (BucketTree Contact)}
    (h : ∀ t ∈ nodes, IsBucket t) (depth depth' : ℕ) :
    (nodes.flatMap fun t => visit id t depth) = nodes.flatMap fun t => visit id t depth' := by
  refine List.flatMap_congr fun t ht => ?_
  obtain ⟨items, closed, rfl⟩ := h t ht
  rfl

/-- What is collected: the first buckets of a visit, and the rest is not needed. -/
def Collects (n : ℕ) (buckets : List (List Contact)) (contacts result : List Contact) : Prop :=
  ∃ done rest, buckets = done ++ rest ∧ result = contacts ++ done.flatten ∧
    (rest = [] ∨ n ≤ result.length)

/-- **One bit index is enough**: the buckets are collected in the order of the visit. -/
theorem collects_closestTurn {fuel : ℕ} {nodes : List (BucketTree Contact)} {bitIndex : ℕ}
    {contacts : List Contact} (h : OneFork nodes) (hfuel : (nodes.map size).sum < fuel) :
    ∃ result, loop (closestTurn id n) fuel (nodes, bitIndex, contacts) = some result ∧
      Collects n (nodes.flatMap fun t => visit id t bitIndex) contacts result := by
  induction fuel generalizing nodes bitIndex contacts with
  | zero => exact absurd hfuel (Nat.not_lt_zero _)
  | succ fuel ih =>
    cases nodes with
    | nil =>
      exact ⟨contacts, rfl, [], [], rfl, (List.append_nil _).symm, .inl rfl⟩
    | cons node nodes =>
      rw [List.map_cons, List.sum_cons] at hfuel
      by_cases hmore : contacts.length < n
      · cases node with
        | bucket items closed =>
          have hrest : OneFork nodes := by
            rcases h with ⟨-, h⟩ | ⟨-, h⟩
            · exact h
            · exact oneFork_of_buckets h
          obtain ⟨result, hloop, done, rest, hsplit, hresult, hend⟩ :=
            @ih nodes bitIndex (contacts ++ items) hrest (by rw [size] at hfuel; omega)
          refine ⟨result, ?_, items :: done, rest, ?_, ?_, hend⟩
          · rw [loop, closestTurn, if_pos hmore]
            exact hloop
          · rw [List.flatMap_cons, hsplit]
            rfl
          · rw [hresult, List.flatten_cons, List.append_assoc]
        | fork left right =>
          have hlinear : Linear (.fork left right) ∧ ∀ t ∈ nodes, IsBucket t := by
            rcases h with ⟨⟨items, closed, heq⟩, -⟩ | h
            · cases heq
            · exact h
          obtain ⟨hhalves, hbuckets⟩ := hlinear
          have hnext : OneFork (right :: left :: nodes) ∧ OneFork (left :: right :: nodes) := by
            rcases hhalves with ⟨hleft, hright⟩ | ⟨hright, hleft⟩
            · exact ⟨.inr ⟨hright, List.forall_mem_cons.2 ⟨hleft, hbuckets⟩⟩,
                .inl ⟨hleft, .inr ⟨hright, hbuckets⟩⟩⟩
            · exact ⟨.inl ⟨hright, .inr ⟨hleft, hbuckets⟩⟩,
                .inr ⟨hleft, List.forall_mem_cons.2 ⟨hright, hbuckets⟩⟩⟩
          have hsame := flatMap_visit_of_buckets id hbuckets bitIndex (bitIndex + 1)
          rw [size] at hfuel
          by_cases hbit : determineNode id bitIndex = true
          · obtain ⟨result, hloop, hcollects⟩ := @ih (right :: left :: nodes) (bitIndex + 1) contacts
              hnext.1 (by simp only [List.map_cons, List.sum_cons]; omega)
            refine ⟨result, ?_, ?_⟩
            · rw [loop, closestTurn, if_pos hmore, if_pos hbit]
              exact hloop
            · rw [List.flatMap_cons, visit, if_pos hbit, hsame, List.append_assoc]
              exact hcollects
          · obtain ⟨result, hloop, hcollects⟩ := @ih (left :: right :: nodes) (bitIndex + 1) contacts
              hnext.2 (by simp only [List.map_cons, List.sum_cons]; omega)
            refine ⟨result, ?_, ?_⟩
            · rw [loop, closestTurn, if_pos hmore, if_neg hbit]
              exact hloop
            · rw [List.flatMap_cons, visit, if_neg hbit, hsame, List.append_assoc]
              exact hcollects
      · refine ⟨contacts, ?_, [], _, rfl, (List.append_nil _).symm, .inr (Nat.not_lt.1 hmore)⟩
        cases node with
        | bucket items closed => rw [loop, closestTurn, if_neg hmore]
        | fork left right => rw [loop, closestTurn, if_neg hmore]

theorem perm_visit (id : Bytes) (t : BucketTree Contact) (depth : ℕ) :
    (visit id t depth).flatten.Perm t.items := by
  induction t generalizing depth with
  | bucket items closed => rw [visit, List.flatten_singleton]; exact .refl _
  | fork left right ihleft ihright =>
    rw [visit]
    split
    · rw [List.flatten_append]
      exact (List.perm_append_comm).trans ((ihleft _).append (ihright _))
    · rw [List.flatten_append]
      exact (ihleft _).append (ihright _)

theorem pairwise_visit {path : List Bool} (hplaced : t.Placed determineNode Contact.id path)
    (hlengths : ∀ c ∈ t.items, c.id.length = id.length) (hids : (t.items.map Contact.id).Nodup) :
    (visit id t path.length).Pairwise fun near far => ∀ c ∈ near, ∀ c' ∈ far,
      xorDistance c.id id < xorDistance c'.id id := by
  induction t generalizing path with
  | bucket items closed => exact List.pairwise_singleton _ _
  | fork left right ihleft ihright =>
    obtain ⟨hleft, hright⟩ := BucketTree.allBuckets_fork.1 hplaced
    rw [BucketTree.items, List.map_append, List.nodup_append] at hids
    have hlengths' := List.forall_mem_append.1 hlengths
    have hpairsleft := @ihleft _ hleft hlengths'.1 hids.1
    have hpairsright := @ihright _ hright hlengths'.2 hids.2.1
    rw [List.length_append, List.length_singleton] at hpairsleft hpairsright
    have hbits : ∀ (t : BucketTree Contact) (side : Bool),
        t.Placed determineNode Contact.id (path ++ [side]) → ∀ c ∈ t.items,
          BucketTree.bitsTo determineNode c.id path.length = path ∧
            determineNode c.id path.length = side := by
      intro t side ht c hc
      have hpath := BucketTree.Placed.bitsTo_eq ht hc
      rw [List.length_append, List.length_singleton, BucketTree.bitsTo_succ] at hpath
      obtain ⟨hinit, hlast⟩ := List.append_inj' hpath rfl
      exact ⟨hinit, List.singleton_inj.1 hlast⟩
    -- two contacts of the halves differ, so their ids have a bit at this depth
    have hacross : ∀ c ∈ left.items, ∀ c' ∈ right.items, path.length < 8 * id.length := by
      intro c hc c' hc'
      by_contra hlong
      refine hids.2.2 _ (List.mem_map_of_mem hc) _ (List.mem_map_of_mem hc') ?_
      have hsame : BucketTree.bitsTo determineNode c.id path.length =
          BucketTree.bitsTo determineNode c'.id path.length := by
        rw [(hbits left false hleft c hc).1, (hbits right true hright c' hc').1]
      refine eq_of_bitsTo ((hlengths'.1 c hc).trans (hlengths'.2 c' hc').symm) ?_ hsame
      rw [hlengths'.1 c hc]
      exact Nat.not_lt.1 hlong
    rw [visit]
    by_cases hbit : determineNode id path.length = true
    · rw [if_pos hbit, List.pairwise_append]
      refine ⟨hpairsright, hpairsleft, fun near hnear far hfar c hc c' hc' => ?_⟩
      have hin := (perm_visit id right _).mem_iff.1 (List.mem_flatten.2 ⟨near, hnear, hc⟩)
      have hin' := (perm_visit id left _).mem_iff.1 (List.mem_flatten.2 ⟨far, hfar, hc'⟩)
      obtain ⟨hpath, hside⟩ := hbits right true hright c hin
      obtain ⟨hpath', hside'⟩ := hbits left false hleft c' hin'
      refine xorDistance_lt (hlengths'.2 c hin) (hlengths'.1 c' hin') (hacross c' hin' c hin)
        (hpath.trans hpath'.symm) (hside.trans hbit.symm) ?_
      rw [hside', hbit]
      exact Bool.false_ne_true
    · rw [if_neg hbit, List.pairwise_append]
      refine ⟨hpairsleft, hpairsright, fun near hnear far hfar c hc c' hc' => ?_⟩
      have hin := (perm_visit id left _).mem_iff.1 (List.mem_flatten.2 ⟨near, hnear, hc⟩)
      have hin' := (perm_visit id right _).mem_iff.1 (List.mem_flatten.2 ⟨far, hfar, hc'⟩)
      obtain ⟨hpath, hside⟩ := hbits left false hleft c hin
      obtain ⟨hpath', hside'⟩ := hbits right true hright c' hin'
      refine xorDistance_lt (hlengths'.1 c hin) (hlengths'.2 c' hin') (hacross c hin c' hin')
        (hpath.trans hpath'.symm) (hside.trans (Bool.eq_false_iff.2 hbit).symm) ?_
      rw [hside', Bool.eq_false_iff.2 hbit]
      exact Bool.noConfusion

/-! ## What the search finds -/

/-- **The closest contacts**: some of those stored, as many as asked for if there are, by their
distance, and none that is left out is closer. -/
structure IsClosest (b : KBucket) (id : Bytes) (n : ℕ) (result : List Contact) : Prop where
  stored : ∀ c ∈ result, c ∈ b.toArray
  ids : (result.map Contact.id).Nodup
  count : result.length = min n b.toArray.length
  sorted : result.Pairwise fun c c' => xorDistance c.id id ≤ xorDistance c'.id id
  nearest : ∀ c ∈ result, ∀ c' ∈ b.toArray, c' ∉ result → xorDistance c.id id ≤ xorDistance c'.id id

/-- The numbers tell the contacts apart, as far as their distances differ. -/
def Separates (b : KBucket) (id : Bytes) : Prop :=
  ∀ c ∈ b.toArray, ∀ c' ∈ b.toArray, distance c.id id = distance c'.id id →
    xorDistance c.id id = xorDistance c'.id id

theorem pairwise_insertionSort_distance (contacts : List Contact) (id : Bytes) :
    (contacts.insertionSort fun a b => distance a.id id ≤ distance b.id id).Pairwise
      fun a b => distance a.id id ≤ distance b.id id := by
  have : Std.Total fun a b : Contact => distance a.id id ≤ distance b.id id :=
    ⟨fun a b => le_total _ _⟩
  have : IsTrans Contact fun a b => distance a.id id ≤ distance b.id id := ⟨fun a b c => le_trans⟩
  exact List.pairwise_insertionSort _ contacts

/-- **The search ends and finds the closest contacts**, where the numbers tell them apart. -/
theorem Kept.closest (h : b.Kept idLength) (hid : id.length = idLength) (hseparates : b.Separates id)
    {fuel : ℕ} (hfuel : size b.root < fuel) :
    ∃ result, b.closest fuel id n = some result ∧ b.IsClosest id n result := by
  obtain ⟨collected, hloop, done, rest, hsplit, hcollected, hend⟩ :=
    @collects_closestTurn id n fuel [b.root] 0 [] (.inr ⟨h.chain.linear, by simp⟩)
      (by simpa using hfuel)
  rw [List.flatMap_singleton] at hsplit
  rw [List.nil_append] at hcollected
  have hlengths : ∀ c ∈ b.toArray, c.id.length = id.length :=
    fun c hc => (h.wf.lengths c hc).trans hid.symm
  have hvisit := pairwise_visit h.wf.placed hlengths h.ids
  have hperm : (collected ++ rest.flatten).Perm b.toArray := by
    rw [hcollected, ← List.flatten_append, ← hsplit]
    exact perm_visit id b.root 0
  rw [List.length_nil, hsplit, List.pairwise_append] at hvisit
  have hfar : ∀ c ∈ collected, ∀ c' ∈ rest.flatten, xorDistance c.id id < xorDistance c'.id id := by
    intro c hc c' hc'
    rw [hcollected] at hc
    obtain ⟨near, hnear, hc⟩ := List.mem_flatten.1 hc
    obtain ⟨far, hrest, hc'⟩ := List.mem_flatten.1 hc'
    exact hvisit.2.2 near hnear far hrest c hc c' hc'
  have hin : ∀ c ∈ collected, c ∈ b.toArray :=
    fun c hc => hperm.mem_iff.1 (List.mem_append_left _ hc)
  obtain ⟨sorted, hsorted⟩ : ∃ sorted, (collected.insertionSort fun a b =>
    distance a.id id ≤ distance b.id id) = sorted := ⟨_, rfl⟩
  have hsortperm : sorted.Perm collected := hsorted ▸ List.perm_insertionSort _ collected
  -- the order of the numbers is that of the distances
  have hexact : sorted.Pairwise fun c c' => xorDistance c.id id ≤ xorDistance c'.id id := by
    have hnumbers := pairwise_insertionSort_distance collected id
    rw [hsorted] at hnumbers
    refine List.Pairwise.imp_of_mem ?_ hnumbers
    intro c c' hc hc' hle
    have hstored := hin c (hsortperm.mem_iff.1 hc)
    have hstored' := hin c' (hsortperm.mem_iff.1 hc')
    exact xorDistance_le_of_distance_le (hlengths c hstored) (hlengths c' hstored') hle
      (hseparates c hstored c' hstored')
  have htake : ∀ c ∈ sorted.take n, c ∈ collected :=
    fun c hc => hsortperm.mem_iff.1 (List.mem_of_mem_take hc)
  refine ⟨sorted.take n, ?_, ?_⟩
  · rw [KBucket.closest, hloop, Option.map_some, hsorted]
  · constructor
    · exact fun c hc => hin c (htake c hc)
    · have hnodup := (hperm.map Contact.id).nodup_iff.2 h.ids
      rw [List.map_append, List.nodup_append] at hnodup
      exact ((hsortperm.map Contact.id).nodup_iff.2 hnodup.1).sublist
        ((List.take_sublist n sorted).map Contact.id)
    · have hlength := hperm.length_eq
      rw [List.length_append] at hlength
      rw [List.length_take, hsortperm.length_eq]
      rcases hend with rfl | hn
      · rw [List.flatten_nil, List.length_nil] at hlength
        omega
      · omega
    · exact hexact.sublist (List.take_sublist n sorted)
    · intro c hc c' hc' hout
      rcases List.mem_append.1 (hperm.mem_iff.2 hc') with hmem | hmem
      · -- it is behind the first ones
        have hdrop : c' ∈ sorted.drop n := by
          have hsplit' := hsortperm.mem_iff.2 hmem
          rw [← List.take_append_drop n sorted] at hsplit'
          exact (List.mem_append.1 hsplit').resolve_left hout
        have hpairs := hexact
        rw [← List.take_append_drop n sorted, List.pairwise_append] at hpairs
        exact hpairs.2.2 c hc c' hdrop
      · exact (hfar c (htake c hc) c' hmem).le

/-- **After any calls the closest contacts are found**, where the numbers of their distances tell
them apart; and ids of at most six bytes are always told apart. -/
theorem closest_run (localNodeId : Bytes) (k concurrency idLength fuel : ℕ) (calls : List Call)
    (hcalls : ∀ call ∈ calls, call.HasIdLength idLength)
    (hrun : (new localNodeId k concurrency).run fuel calls = some b)
    (hid : id.length = idLength) :
    (b.Separates id → ∀ n, ∀ turns, size b.root < turns →
      ∃ result, b.closest turns id n = some result ∧ b.IsClosest id n result) ∧
      (idLength ≤ 6 → b.Separates id) := by
  have hkept := (kept_new localNodeId k concurrency idLength).run hcalls hrun
  refine ⟨fun hseparates n turns hturns => hkept.closest hid hseparates hturns, fun hshort => ?_⟩
  intro c hc c' hc' heq
  rwa [distance_eq_xorDistance ((hkept.wf.lengths c hc).trans hid.symm) (hid ▸ hshort),
    distance_eq_xorDistance ((hkept.wf.lengths c' hc').trans hid.symm) (hid ▸ hshort)] at heq

/-- A contact with this id. -/
def ofId (id : Bytes) : Contact :=
  ⟨{ id := some id, address := none, udpPort := .null, tcpPort := .null, vectorClock := none }, rfl⟩

/-- Two contacts that differ in their last bit, far from the id of zeros. -/
def nearContact : Contact := ofId (128 :: List.replicate 63 0)

def farContact : Contact := ofId (128 :: List.replicate 62 0 ++ [1])

/-- **The distances are rounded to one number**, and the first one that was added is found. -/
theorem not_isClosest_sample : ∃ b, (new (List.replicate 64 0) 16 3).run 513
      [.add farContact, .add nearContact] = some b ∧
    b.closest 2 (List.replicate 64 0) 1 = some [farContact] ∧
    ¬ b.IsClosest (List.replicate 64 0) 1 [farContact] := by
  have hfound : ((new (List.replicate 64 0) 16 3).run 513
      [.add farContact, .add nearContact]).map (fun b =>
        (b.closest 2 (List.replicate 64 0) 1, b.toArray)) =
          some (some [farContact], [farContact, nearContact]) := by decide +kernel
  obtain ⟨b, hrun, hb⟩ := Option.map_eq_some_iff.1 hfound
  obtain ⟨hclosest, hstored⟩ := Prod.mk.inj hb
  refine ⟨b, hrun, hclosest, fun h => ?_⟩
  have hle := h.nearest farContact List.mem_cons_self nearContact
    (hstored ▸ List.mem_cons_of_mem _ List.mem_cons_self) (by decide +kernel)
  exact absurd hle (by decide +kernel)

/-- With ids of one byte it is the closer one. -/
theorem closest_run_sample : ∃ b, (new [0] 16 3).run 9 [.add (ofId [129]), .add (ofId [128])] =
    some b ∧ ∃ result, b.closest 2 [0] 1 = some result ∧ b.IsClosest [0] 1 result := by
  have hsize : ((new [0] 16 3).run 9 [.add (ofId [129]), .add (ofId [128])]).map
      (fun b => size b.root) = some 1 := by decide +kernel
  obtain ⟨b, hrun, hb⟩ := Option.map_eq_some_iff.1 hsize
  obtain ⟨hclosest, hseparates⟩ := @closest_run b [0] [0] 16 3 1 9
    [.add (ofId [129]), .add (ofId [128])] (by
      intro call hcall
      simp only [List.mem_cons, List.not_mem_nil, or_false] at hcall
      rcases hcall with rfl | rfl
      · rfl
      · rfl) hrun rfl
  exact ⟨b, hrun, hclosest (hseparates (by omega)) 1 2 (by omega)⟩

end KBucket

end Kademlia

end TsEthereum
