import TsEthereum.Mpt.Missing

/-!
# Merkle proofs

`proof/proof.ts`: a proof is a list of nodes. The verifier stores each under
its digest in a trie of its own, with the root it was given, and reads the
key there. Whatever the nodes are, those it reads are the tree's: it throws,
or returns what the tree stores (`get_proofTrie`).
-/

namespace TsEthereum

open RadixTree RadixTree.Frames MPTOpts

/-- The errors of the proof functions. -/
inductive ProofError where
  | unexpectedRoot
  | invalidProofNodes
  | invalidProof
  | trie (e : MPTError)
  deriving DecidableEq

/-- The text of each error. -/
def ProofError.message : ProofError → String
  | .unexpectedRoot => "The provided proof does not have the expected trie root"
  | .invalidProofNodes => "Invalid proof nodes given"
  | .invalidProof => "Invalid proof provided"
  | .trie e => e.message

/-- The default options, over a hash. -/
def MPTOpts.defaults (useKeyHashingFunction : HashFunction) : MPTOpts where
  useKeyHashing := false
  useKeyHashingFunction := useKeyHashingFunction
  keyPrefix := none
  useRootPersistence := false
  useNodePruning := false

/-- The options of the verifier's trie: it has the hash of the trie the proof
is for. -/
def MPTOpts.proofOpts (o : MPTOpts) : MPTOpts := .defaults o.useKeyHashingFunction

/-- The operations that store the nodes of a proof. -/
def proofPuts (o : MPTOpts) (proof : List Bytes) : List BatchDBOp :=
  proof.map fun nodeValue => .put (o.dbKey (o.hash nodeValue)) nodeValue

/-- **`updateMPTFromMerkleProof`**: the trie with the nodes in its store, and
the key of the first. -/
def updateMPTFromMerkleProof (o : MPTOpts) (trie : MerklePatriciaTrie) (proof : List Bytes)
    (shouldVerifyRoot : Bool) : Except ProofError (MerklePatriciaTrie × Option Bytes) :=
  let root := proof.head?.map fun nodeValue => o.dbKey (o.hash nodeValue)
  if shouldVerifyRoot = true ∧ root.isSome ∧ root ≠ some trie._root then .error .unexpectedRoot
  else .ok ({ trie with _db := trie._db.batch (proofPuts o proof) }, root)

/-- `new MerklePatriciaTrie({ root, .. })`, over an empty store. -/
def newMPT (o : MPTOpts) (root : Bytes) : Except ProofError MerklePatriciaTrie :=
  match (MerklePatriciaTrie.create o).setRoot o root with
  | .ok trie => .ok trie
  | .error e => .error (.trie e)

/-- `get(key, true)` in a trie made of a proof: a missing node makes the proof
invalid. -/
def getProven (o : MPTOpts) (trie : MerklePatriciaTrie) (key : Bytes) :
    Except ProofError (Option NestedUint8Array) :=
  match trie.get o key true with
  | .ok value => .ok value
  | .error .missingNode => .error .invalidProof
  | .error e => .error (.trie e)

/-- **`verifyMPTWithMerkleProof`** of `proof.ts`: `o` are the options of the
trie it is given, of which it uses nothing else. -/
def verifyMPTWithMerkleProof (o : MPTOpts) (rootHash key : Bytes) (proof : List Bytes) :
    Except ProofError (Option NestedUint8Array) := do
  let proofTrie ← newMPT o.proofOpts rootHash
  match updateMPTFromMerkleProof o.proofOpts proofTrie proof true with
  | .error _ => .error .invalidProofNodes
  | .ok (proofTrie, _) => getProven o.proofOpts proofTrie (o.appliedKey key)

/-- The verifier's trie. -/
def proofTrie (o : MPTOpts) (root : Bytes) (proof : List Bytes) : MerklePatriciaTrie where
  _root := root
  _db := MapDB.empty.batch (proofPuts o proof)

variable {o : MPTOpts} {T : Tree} {S : Set Bytes} {proof : List Bytes}

/-! ## The tree under the verifier's options -/

theorem hash_proofOpts (msg : Bytes) : o.proofOpts.hash msg = o.hash msg := rfl

theorem dbKey_proofOpts (key : Bytes) : o.proofOpts.dbKey key = key := rfl

theorem appliedKey_proofOpts (key : Bytes) : o.proofOpts.appliedKey key = key := rfl

theorem refOf_proofOpts (raw : NestedUint8Array) : o.proofOpts.refOf raw = o.refOf raw := rfl

theorem raw_proofOpts (T : Tree) : o.proofOpts.raw T = o.raw T := by
  induction T with
  | empty => rfl
  | leaf p v => rfl
  | extension p c ih => simp only [raw, ih, refOf_proofOpts]
  | branch cs w ih => simp only [raw, ih, refOf_proofOpts]

theorem enc_proofOpts (T : Tree) : o.proofOpts.enc T = o.enc T := by
  rw [enc, enc, raw_proofOpts]

theorem rootHash_proofOpts (T : Tree) : o.proofOpts.rootHash T = o.rootHash T := by
  rw [rootHash, rootHash, enc_proofOpts, hash_proofOpts]

/-! ## What the verifier's store holds -/

theorem get_proofTrie_mem {root key value : Bytes}
    (h : (proofTrie o.proofOpts root proof)._db.get key = some value) :
    value ∈ proof ∧ key = o.hash value := by
  have hmem := MapDB.mem_log_of_get h
  unfold proofTrie proofPuts at hmem
  rw [MapDB.log_batch] at hmem
  simp only [MapDB.empty, List.append_nil, List.mem_reverse, List.map_map, List.mem_map,
    Function.comp_apply, BatchDBOp.entry, Prod.mk.injEq, Option.some.injEq] at hmem
  obtain ⟨b, hb, hkey, rfl⟩ := hmem
  exact ⟨hb, hkey.symm⟩

theorem get_proofTrie_ne_none {root b : Bytes} (hb : b ∈ proof) :
    (proofTrie o.proofOpts root proof)._db.get (o.hash b) ≠ none := by
  have hmem : (o.hash b, some b) ∈ (proofTrie o.proofOpts root proof)._db.log := by
    unfold proofTrie proofPuts
    rw [MapDB.log_batch]
    simp only [MapDB.empty, List.append_nil, List.mem_reverse, List.map_map, List.mem_map,
      Function.comp_apply]
    exact ⟨b, hb, rfl⟩
  rcases MapDB.exists_get_or_deleted hmem with ⟨value, hvalue⟩ | hdel
  · rw [hvalue]
    simp
  · unfold proofTrie proofPuts at hdel
    rw [MapDB.log_batch] at hdel
    simp [MapDB.empty, BatchDBOp.entry] at hdel

/-- The strings hashed for the tree and the proof do not collide, and the
tree's nodes fit an array. -/
structure ProofFree (o : MPTOpts) (S : Set Bytes) (T : Tree) (proof : List Bytes) : Prop where
  inj : Set.InjOn o.hash S
  tree : o.HashedIn S T
  proof : ∀ b ∈ proof, b ∈ S
  bounded : o.HashedIn { b | b.length < arrayBound } T

namespace ProofFree

theorem lookupNode (h : ProofFree o S T proof) (root : Bytes) {s : Tree} (hs : s ≠ .empty)
    (hmem : o.enc s ∈ S) (hlen : (o.enc s).length < arrayBound) :
    (proofTrie o.proofOpts root proof).lookupNode o.proofOpts (.bytes (o.rootHash s)) =
      if (proofTrie o.proofOpts root proof)._db.get (o.rootHash s) = none then
        .error .missingNode
      else .ok (o.proofOpts.node s) := by
  rw [← rootHash_proofOpts, ← dbKey_proofOpts (o := o) (o.proofOpts.rootHash s)]
  refine lookupNode_of_get hs (by rwa [enc_proofOpts]) fun value hv => ?_
  rw [dbKey_proofOpts, rootHash_proofOpts] at hv
  obtain ⟨hin, hkey⟩ := get_proofTrie_mem hv
  rw [enc_proofOpts]
  exact (h.inj hmem (h.proof value hin) hkey).symm

theorem lookupNode_ref (h : ProofFree o S T proof) {root : Bytes} {s : Tree} (hs : s ≠ .empty)
    (hmem : 32 ≤ (o.enc s).length → o.enc s ∈ S ∧ (o.enc s).length < arrayBound) :
    (proofTrie o.proofOpts root proof).lookupNode o.proofOpts (o.proofOpts.ref s) =
      if 32 ≤ (o.enc s).length ∧
          (proofTrie o.proofOpts root proof)._db.get (o.rootHash s) = none then
        .error .missingNode
      else .ok (o.proofOpts.node s) := by
  rcases Nat.lt_or_ge (o.enc s).length 32 with hlt | hle
  · rw [ref_of_lt hs (by rwa [enc_proofOpts]), if_neg (by omega)]
    exact decodeRawMPTNode_raw _
  · rw [ref_of_le (by rwa [enc_proofOpts]), rootHash_proofOpts,
      h.lookupNode _ hs (hmem hle).1 (hmem hle).2]
    simp [hle]

theorem below (h : ProofFree o S T proof) : T.Below fun s => 32 ≤ (o.enc s).length →
    o.enc s ∈ S ∧ (o.enc s).length < arrayBound :=
  (h.tree.2.and h.bounded.2).mono fun _ hs hlen => ⟨hs.1 hlen, hs.2 hlen⟩

theorem readable (h : ProofFree o S T proof) (root : Bytes) :
    T.Below (Readable o.proofOpts (proofTrie o.proofOpts root proof)) := by
  refine h.below.mono fun s hs hne => ?_
  rw [h.lookupNode_ref hne hs]
  split
  · exact .inr rfl
  · exact .inl rfl

theorem present (h : ProofFree o S T proof) (root : Bytes)
    (hall : T.Below fun s => 32 ≤ (o.enc s).length → o.enc s ∈ proof) :
    T.Below (Present o.proofOpts (proofTrie o.proofOpts root proof)) := by
  refine (h.below.and hall).mono fun s hs hne => ?_
  rw [h.lookupNode_ref hne hs.1, if_neg]
  rintro ⟨hlen, hnone⟩
  exact get_proofTrie_ne_none (hs.2 hlen) hnone

end ProofFree

/-! ## Soundness -/

theorem get_proofTrie_empty (h : ProofFree o S .empty proof) (key : Bytes)
    (x : Option NestedUint8Array) :
    (proofTrie o.proofOpts (o.rootHash .empty) proof).get o.proofOpts key true ≠ .ok x := by
  have hroot : (proofTrie o.proofOpts (o.rootHash .empty) proof).lookupNode o.proofOpts
      (.bytes (o.rootHash .empty)) = .error .missingNode ∨
      (proofTrie o.proofOpts (o.rootHash .empty) proof).lookupNode o.proofOpts
        (.bytes (o.rootHash .empty)) = .error .invalidNode := by
    unfold MerklePatriciaTrie.lookupNode
    simp only [dbKey_proofOpts]
    cases hv : (proofTrie o.proofOpts (o.rootHash .empty) proof)._db.get (o.rootHash .empty) with
    | none => exact .inl rfl
    | some value =>
      -- what is stored there is the empty string's encoding, which is no node
      obtain ⟨hin, hkey⟩ := get_proofTrie_mem hv
      have hvalue : o.enc .empty = value := h.inj h.tree.1 (h.proof value hin) hkey
      have hinvalid : decodeMPTNode (o.enc .empty) = .error .invalidNode := by
        have henc : o.enc .empty = RLP_EMPTY_STRING := rfl
        rw [henc]
        decide +kernel
      rw [← hvalue]
      exact .inr hinvalid
  unfold MerklePatriciaTrie.get MerklePatriciaTrie.findPath MerklePatriciaTrie.visit proofTrie
  unfold proofTrie at hroot
  rcases hroot with hroot | hroot <;>
  · simp only [hroot]
    simp

/-- **A read in the verifier's trie** throws, or returns what the tree
stores. -/
theorem get_proofTrie (h : ProofFree o S T proof) (hwf : T.WellFormed) {key : Bytes}
    {x : Option NestedUint8Array}
    (hget : (proofTrie o.proofOpts (o.rootHash T) proof).get o.proofOpts key true = .ok x) :
    x = got (T.lookup (bytesToNibbles key)) := by
  rcases eq_or_ne T .empty with rfl | hne
  · exact absurd hget (get_proofTrie_empty h key x)
  · have hread := h.readable (o.rootHash T)
    have hroot := h.lookupNode (o.rootHash T) hne h.tree.1 h.bounded.1
    split at hroot
    · unfold MerklePatriciaTrie.get at hget
      rw [findPath_of_root_missing hroot] at hget
      cases hget
    · rw [← appliedKey_proofOpts (o := o) key]
      rcases get_of_ends (findPath_ends hne hwf hread hroot _) rfl with hok | hmiss
      · exact Except.ok.inj (hget.symm.trans hok)
      · obtain ⟨-, -, -, -, -, -, -, -, hthrow⟩ := hmiss
        rw [hthrow] at hget
        cases hget

theorem newMPT_eq {root : Bytes} (hroot : root.length = 32) :
    newMPT o.proofOpts root = .ok ⟨root, .empty⟩ := by
  have hset : (MerklePatriciaTrie.create o.proofOpts).setRoot o.proofOpts root =
      .ok ⟨root, .empty⟩ := if_neg (by simp [EMPTY_TRIE_ROOT, hroot])
  rw [newMPT, hset]

theorem verify_eq (root key : Bytes) (hroot : root.length = 32) :
    verifyMPTWithMerkleProof o root key proof =
      if proof ≠ [] ∧ proof.head?.map o.hash ≠ some root then .error .invalidProofNodes
      else getProven o.proofOpts (proofTrie o.proofOpts root proof) (o.appliedKey key) := by
  have hhead : (proof.head?.map fun nodeValue =>
      o.proofOpts.dbKey (o.proofOpts.hash nodeValue)) = proof.head?.map o.hash := rfl
  unfold verifyMPTWithMerkleProof updateMPTFromMerkleProof
  rw [newMPT_eq hroot, ok_bind]
  simp only [hhead, Option.isSome_map, true_and]
  cases proof with
  | nil => rfl
  | cons b proof =>
    by_cases hb : some (o.hash b) = some root
    · simp [hb, proofTrie]
    · simp [hb]

/-- **Soundness**: whatever the proof, what is returned is what the tree
stores. -/
theorem verify_sound (h : ProofFree o S T proof) (hwf : T.WellFormed) {key : Bytes}
    {x : Option NestedUint8Array}
    (hverify : verifyMPTWithMerkleProof o (o.rootHash T) key proof = .ok x) :
    x = got (T.lookup (bytesToNibbles (o.appliedKey key))) := by
  rw [verify_eq (o.rootHash T) key (by rw [rootHash, length_hash])] at hverify
  split at hverify
  · cases hverify
  · refine get_proofTrie h hwf ?_
    unfold getProven at hverify
    split at hverify
    · next value hget => rw [hget, Except.ok.inj hverify]
    · cases hverify
    · cases hverify

/-! ## A proof of everything -/

/-- The nodes a tree refers to by their digests. -/
def referred (o : MPTOpts) : Tree → List Bytes
  | .extension _ c => (if 32 ≤ (o.enc c).length then [o.enc c] else []) ++ referred o c
  | .branch cs _ => (List.finRange 16).flatMap fun i =>
    (if 32 ≤ (o.enc (cs i)).length then [o.enc (cs i)] else []) ++ referred o (cs i)
  | _ => []

theorem below_referred (T : Tree) :
    T.Below fun s => 32 ≤ (o.enc s).length → o.enc s ∈ referred o T := by
  induction T with
  | empty => trivial
  | leaf p v => trivial
  | extension p c ih =>
    refine ⟨fun hlen => ?_, ih.mono fun s hs hlen => List.mem_append_right _ (hs hlen)⟩
    exact List.mem_append_left _ (by rw [if_pos hlen]; exact List.mem_singleton_self _)
  | branch cs w ih =>
    intro i
    have hmem {b : Bytes} (hb : b ∈ (if 32 ≤ (o.enc (cs i)).length then [o.enc (cs i)] else []) ++
        referred o (cs i)) : b ∈ referred o (.branch cs w) :=
      List.mem_flatMap.2 ⟨i, List.mem_finRange i, hb⟩
    refine ⟨fun hlen => hmem ?_, (ih i).mono fun s hs hlen => hmem ?_⟩
    · exact List.mem_append_left _ (by rw [if_pos hlen]; exact List.mem_singleton_self _)
    · exact List.mem_append_right _ (hs hlen)

theorem of_mem_referred {Q : Bytes → Prop} {T : Tree}
    (h : T.Below fun s => 32 ≤ (o.enc s).length → Q (o.enc s)) :
    ∀ b ∈ referred o T, Q b := by
  have hself {c : Tree} (hc : 32 ≤ (o.enc c).length → Q (o.enc c)) {b : Bytes}
      (hb : b ∈ if 32 ≤ (o.enc c).length then [o.enc c] else []) : Q b := by
    split at hb
    · next hlen =>
      rw [List.mem_singleton.1 hb]
      exact hc hlen
    · cases hb
  induction T with
  | empty => intro b hb; cases hb
  | leaf p v => intro b hb; cases hb
  | extension p c ih =>
    intro b hb
    rcases List.mem_append.1 hb with hb | hb
    · exact hself h.1 hb
    · exact ih h.2 b hb
  | branch cs w ih =>
    intro b hb
    obtain ⟨i, -, hb⟩ := List.mem_flatMap.1 hb
    rcases List.mem_append.1 hb with hb | hb
    · exact hself (h i).1 hb
    · exact ih i (h i).2 b hb

theorem whole_referred (h : ProofFree o S T (o.enc T :: referred o T)) (hne : T ≠ .empty) :
    Whole o.proofOpts (proofTrie o.proofOpts (o.rootHash T) (o.enc T :: referred o T)) T := by
  have hall : T.Below fun s => 32 ≤ (o.enc s).length → o.enc s ∈ o.enc T :: referred o T :=
    (below_referred T).mono fun s hs hlen => List.mem_cons_of_mem _ (hs hlen)
  have hroot := h.lookupNode (o.rootHash T) hne h.tree.1 h.bounded.1
  have hstored : (proofTrie o.proofOpts (o.rootHash T) (o.enc T :: referred o T))._db.get
      (o.rootHash T) ≠ none := get_proofTrie_ne_none List.mem_cons_self
  rw [if_neg hstored] at hroot
  exact ⟨fun _ => hroot, h.present (o.rootHash T) hall⟩

/-- **Completeness**: given every node, the verifier reads what the tree
stores. -/
theorem verify_referred (h : ProofFree o S T (o.enc T :: referred o T)) (hlive : T.Live)
    (hne : T ≠ .empty) (key : Bytes) :
    verifyMPTWithMerkleProof o (o.rootHash T) key (o.enc T :: referred o T) =
      .ok (got (T.lookup (bytesToNibbles (o.appliedKey key)))) := by
  have hget := (whole_referred h hne).get hlive hne (o.appliedKey key) true
  rw [appliedKey_proofOpts] at hget
  rw [verify_eq (o.rootHash T) key (by rw [rootHash, length_hash]), if_neg (by simp [rootHash]),
    getProven, hget]

/-! ## Where `get` agrees -/

/-- A node is in the store, or in the node above it. -/
def Stored (o : MPTOpts) (t : MerklePatriciaTrie) (s : Tree) : Prop :=
  32 ≤ (o.enc s).length → t._db.get (o.dbKey (o.rootHash s)) ≠ none

/-- **The nodes on the way down a key are in the store**, the root's and
those below it. -/
def WayStored (o : MPTOpts) (t : MerklePatriciaTrie) (T : Tree) (k : Nibbles) : Prop :=
  (T ≠ .empty → t._db.get (o.dbKey (o.rootHash T)) ≠ none) ∧ T.Along (Stored o t) k

variable {t : MerklePatriciaTrie}

theorem Represents.lookupNode_of_stored (h : Represents o t T) (hfree : CollisionFree o t._db)
    {s : Tree} (hs : s ≠ .empty) (hlogged : 32 ≤ (o.enc s).length → Logged o t._db (o.enc s))
    (hstored : Stored o t s) : t.lookupNode o (o.ref s) = .ok (o.node s) := by
  rw [lookupNode_ref h.addressed hfree hs fun hlen => .inr (.inr (hlogged hlen)), if_neg]
  rintro ⟨hlen, hnone⟩
  exact hstored hlen hnone

theorem Represents.lookupNode_root_of_stored (h : Represents o t T)
    (hfree : CollisionFree o t._db) (hne : T ≠ .empty)
    (hstored : t._db.get (o.dbKey (o.rootHash T)) ≠ none) :
    t.lookupNode o (.bytes t._root) = .ok (o.node T) := by
  have hroot := lookupNode_rootHash h.addressed hfree hne (.inr (.inr (h.rootLogged hne)))
  rwa [if_neg hstored, ← h.root] at hroot

theorem Represents.along_present (h : Represents o t T) (hfree : CollisionFree o t._db)
    {k : Nibbles} (hway : T.Along (Stored o t) k) : T.Along (Present o t) k := by
  refine (hway.and (h.below.along k)).mono fun s hs => ?_
  intro hne
  exact h.lookupNode_of_stored hfree hne hs.2 hs.1

theorem get_of_along {throwIfMissing : Bool} (hne : T ≠ .empty) (hwf : T.WellFormed)
    (hread : T.Below (Readable o t)) (hroot : t.lookupNode o (.bytes t._root) = .ok (o.node T))
    {key : Bytes} (hway : T.Along (Present o t) (bytesToNibbles (o.appliedKey key))) :
    t.get o key throwIfMissing = .ok (got (T.lookup (bytesToNibbles (o.appliedKey key)))) := by
  rcases get_of_ends (findPath_ends hne hwf hread hroot _) rfl with hget | ⟨f, fs, c, r, hT, hK, hc, hmiss, -⟩
  · exact hget
  · -- a missing node would be one of those on the way
    rw [hT, hK] at hway
    have hpresent := (Along.of_plug hway).1 hc
    rw [hmiss] at hpresent
    cases hpresent

theorem Represents.get_of_wayStored (h : Represents o t T) (hfree : CollisionFree o t._db)
    {key : Bytes} (hway : WayStored o t T (bytesToNibbles (o.appliedKey key))) :
    t.get o key false = .ok (got (T.lookup (bytesToNibbles (o.appliedKey key)))) := by
  rcases eq_or_ne T .empty with rfl | hne
  · exact h.get hfree ⟨fun hne => absurd rfl hne, trivial⟩ key
  · exact get_of_along hne h.live.wellFormed (h.readable hfree)
      (h.lookupNode_root_of_stored hfree hne (hway.1 hne)) (h.along_present hfree hway.2)

theorem present_of_visit {throwIfMissing : Bool} {c : Tree} {stack : List MPTNode}
    {next : MPTNode → Except MPTError Path} {p : Path} (hread : Readable o t c) (hc : c ≠ .empty)
    (h : t.visit o throwIfMissing (o.ref c) stack next = .ok p)
    (hnode : throwIfMissing = true ∨ p.node ≠ none) :
    t.lookupNode o (o.ref c) = .ok (o.node c) ∧ next (o.node c) = .ok p := by
  unfold MerklePatriciaTrie.visit at h
  rcases hread hc with hok | hmiss
  · rw [hok] at h
    exact ⟨hok, h⟩
  · rw [hmiss] at h
    cases throwIfMissing with
    | true => cases h
    | false =>
      cases h
      exact absurd rfl (hnode.resolve_left Bool.false_ne_true)

/-- **A walk that found its node met none that is missing**, nor did one that would have thrown, by
induction on the tree. -/
theorem along_of_onFound {throwIfMissing : Bool} {s : Tree} (hwf : s.WellFormed)
    (hread : s.Below (Readable o t)) {fuel : ℕ} {r : Nibbles} {above : List MPTNode} {p : Path}
    (h : t.onFound o throwIfMissing fuel r above (o.node s) = .ok p)
    (hnode : throwIfMissing = true ∨ p.node ≠ none) : s.Along (Present o t) r := by
  induction s generalizing fuel r above with
  | empty => trivial
  | leaf q v => trivial
  | extension q c ih =>
    obtain ⟨fuel, rfl⟩ : ∃ n, fuel = n + 1 := by
      cases fuel with
      | zero => cases h
      | succ n => exact ⟨n, rfl⟩
    unfold Along
    have hc : c ≠ .empty := by
      rintro rfl
      cases hwf.2.1
    simp only [MPTOpts.node, MerklePatriciaTrie.onFound] at h
    cases hr : r.dropPrefix? q with
    | none => trivial
    | some rest =>
      rw [hr] at h
      obtain ⟨hpresent, hnext⟩ := present_of_visit hread.1 hc h hnode
      exact ⟨fun _ => hpresent, ih hwf.2.2 hread.2 hnext⟩
  | branch cs w ih =>
    obtain ⟨fuel, rfl⟩ : ∃ n, fuel = n + 1 := by
      cases fuel with
      | zero => cases h
      | succ n => exact ⟨n, rfl⟩
    cases r with
    | nil => trivial
    | cons i rest =>
      simp only [MPTOpts.node, MerklePatriciaTrie.onFound, getBranch_ref] at h
      unfold Along
      by_cases hi : cs i = .empty
      · rw [hi]
        exact ⟨fun hne => absurd rfl hne, trivial⟩
      · rw [if_neg hi] at h
        obtain ⟨hpresent, hnext⟩ := present_of_visit (hread i).1 hi h hnode
        exact ⟨fun _ => hpresent, ih i (hwf.2 i) (hread i).2 hnext⟩

theorem Represents.wayStored_of_get (h : Represents o t T) (hfree : CollisionFree o t._db)
    {key : Bytes} {x : NestedUint8Array} (hget : t.get o key false = .ok (some x)) :
    WayStored o t T (bytesToNibbles (o.appliedKey key)) := by
  unfold MerklePatriciaTrie.get at hget
  obtain ⟨p, hp, hvalue⟩ := bind_eq_ok.1 hget
  have hnode : p.node ≠ none := by
    intro hnone
    rw [hnone] at hvalue
    cases hvalue
  rcases eq_or_ne T .empty with rfl | hne
  · exact ⟨fun hne => absurd rfl hne, trivial⟩
  · have hroot := lookupNode_rootHash h.addressed hfree hne (.inr (.inr (h.rootLogged hne)))
    rw [← h.root] at hroot
    split at hroot
    · rw [findPath_of_root_missing hroot] at hp
      cases hp
      exact absurd rfl hnode
    · next hstored =>
      rw [h.root] at hstored
      refine ⟨fun _ => hstored, ?_⟩
      unfold MerklePatriciaTrie.findPath MerklePatriciaTrie.visit at hp
      rw [hroot] at hp
      have halong := along_of_onFound h.live.wellFormed (h.readable hfree) hp (.inr hnode)
      have hboth := halong.and (h.below.along (bytesToNibbles (o.appliedKey key)))
      refine hboth.mono fun s hs hlen hnone => ?_
      have hs' : s ≠ .empty := by
        rintro rfl
        rw [length_enc_empty] at hlen
        omega
      have hpresent := hs.1 hs'
      rw [lookupNode_ref h.addressed hfree hs' fun hlen => .inr (.inr (hs.2 hlen)),
        if_pos ⟨hlen, hnone⟩] at hpresent
      cases hpresent

theorem Represents.get_of_not_bound (h : Represents o t T) (hfree : CollisionFree o t._db)
    {key : Bytes} (hnone : T.lookup (bytesToNibbles (o.appliedKey key)) = none) :
    t.get o key false = .ok none := by
  have hway (hway : WayStored o t T (bytesToNibbles (o.appliedKey key))) :
      t.get o key false = .ok none := by
    rw [h.get_of_wayStored hfree hway, hnone]
    rfl
  rcases eq_or_ne T .empty with rfl | hne
  · exact hway ⟨fun hne => absurd rfl hne, trivial⟩
  · obtain ⟨val, hget⟩ := h.exists_get hfree hne key
    cases val with
    | none => exact hget
    | some x => exact hway (h.wayStored_of_get hfree hget)

/-! ## The theorem -/

theorem Represents.proofFree (h : Represents o t T) (hfree : CollisionFree o t._db)
    (hinj : Set.InjOn o.hash (hashedStrings o t._db ∪ { b | b ∈ proof })) :
    ProofFree o (hashedStrings o t._db ∪ { b | b ∈ proof }) T proof := by
  have hroot : o.enc T ∈ hashedStrings o t._db := by
    rcases eq_or_ne T .empty with rfl | hne
    · exact .inl rfl
    · exact .inr (.inr (h.rootLogged hne))
  exact ⟨hinj, ⟨.inl hroot, h.below.mono fun s hs hlen => .inl (.inr (.inr (hs hlen)))⟩,
    fun b hb => .inr hb,
    ⟨hfree.bounded _ hroot, h.below.mono fun s hs hlen => hfree.bounded _ (.inr (.inr (hs hlen)))⟩⟩

theorem Represents.union_referred (h : Represents o t T) (hne : T ≠ .empty) :
    hashedStrings o t._db ∪ { b | b ∈ o.enc T :: referred o T } = hashedStrings o t._db := by
  have hin : ∀ b ∈ o.enc T :: referred o T, b ∈ hashedStrings o t._db := by
    refine List.forall_mem_cons.2 ⟨.inr (.inr (h.rootLogged hne)), ?_⟩
    exact of_mem_referred (h.below.mono fun s hs hlen => .inr (.inr (hs hlen)))
  exact Set.union_eq_left.2 hin

/-- **Merkle proofs are sound exactly for the keys whose way is stored**, or
that are not bound. For every trie built by `put` and `del`, with any
options, and every key: whatever list of nodes is offered, as long as no
two of the strings hashed collide, the verifier throws or returns what
`get` returns, if and only if the tree binds nothing under the key or the
trie's own store has every node on its way. -/
theorem proof_sound_iff (ops : List TrieOp)
    (hfree : ∀ pre t, pre <+: ops → run (MerklePatriciaTrie.step o) (.create o) pre = .ok t →
      CollisionFree o t._db)
    (ht : run (MerklePatriciaTrie.step o) (.create o) ops = .ok t) (key : Bytes) :
    (∀ proof x, Set.InjOn o.hash (hashedStrings o t._db ∪ { b | b ∈ proof }) →
        verifyMPTWithMerkleProof o t._root key proof = .ok x → t.get o key false = .ok x) ↔
      ∃ T, Represents o t T ∧ (T.lookup (bytesToNibbles (o.appliedKey key)) = none ∨
        WayStored o t T (bytesToNibbles (o.appliedKey key))) := by
  have hfree' := hfree ops t List.prefix_rfl ht
  obtain ⟨T, hT⟩ := exists_represents_of_run hfree ht
  constructor
  · intro hsound
    refine ⟨T, hT, ?_⟩
    rcases eq_or_ne T .empty with rfl | hne
    · exact .inl rfl
    · cases hv : T.lookup (bytesToNibbles (o.appliedKey key)) with
      | none => exact .inl rfl
      | some v =>
        -- given all nodes, the verifier returns the value, and so `get` must
        right
        have hinj : Set.InjOn o.hash
            (hashedStrings o t._db ∪ { b | b ∈ o.enc T :: referred o T }) := by
          rw [hT.union_referred hne]
          exact hfree'.inj
        have hverify := verify_referred (hT.proofFree hfree' hinj) hT.live hne key
        rw [← hT.root, hv] at hverify
        exact hT.wayStored_of_get hfree' (hsound _ _ hinj hverify)
  · rintro ⟨T', hT', hway⟩ proof x hinj hverify
    rw [hT'.root] at hverify
    have hx := verify_sound (hT'.proofFree hfree' hinj) hT'.live.wellFormed hverify
    rcases hway with hnone | hway
    · rw [hT'.get_of_not_bound hfree' hnone, hx, hnone]
      rfl
    · rw [hT'.get_of_wayStored hfree' hway, hx]

/-! ## A proof of a node that is gone -/

/-- The nodes of the second key. -/
def sharedLeafProof : List Bytes :=
  [[245, 196, 130, 48, 170, 1, 160] ++ sharedLeafDigest ++ List.replicate 15 128,
    [228, 130, 48, 170, 160] ++ List.replicate 32 7]

theorem sharedLeafProof_inj : Set.InjOn sharedLeafOpts.hash
    (hashedStrings sharedLeafOpts sharedLeafTrie._db ∪ { b | b ∈ sharedLeafProof }) := by
  have hlogged : ∀ b ∈ sharedLeafProof,
      (sharedLeafOpts.dbKey (sharedLeafOpts.hash b), some b) ∈ sharedLeafTrie._db.log := by
    decide +kernel
  have hsub : hashedStrings sharedLeafOpts sharedLeafTrie._db ∪ { b | b ∈ sharedLeafProof } =
      hashedStrings sharedLeafOpts sharedLeafTrie._db :=
    Set.union_eq_left.2 fun b hb => .inr (.inr (hlogged b hb))
  rw [hsub]
  exact (sharedLeaf_free sharedLeafOps sharedLeafTrie List.prefix_rfl run_sharedLeaf).inj

/-- The equivalence for the second key of a trie that lost its leaf. -/
theorem proof_sound_iff_sharedLeaf :
    (∀ proof x, Set.InjOn sharedLeafOpts.hash
          (hashedStrings sharedLeafOpts sharedLeafTrie._db ∪ { b | b ∈ proof }) →
        verifyMPTWithMerkleProof sharedLeafOpts sharedLeafTrie._root [0x10, 0xaa] proof = .ok x →
          sharedLeafTrie.get sharedLeafOpts [0x10, 0xaa] false = .ok x) ↔
      ∃ T, Represents sharedLeafOpts sharedLeafTrie T ∧
        (T.lookup (bytesToNibbles (sharedLeafOpts.appliedKey [0x10, 0xaa])) = none ∨
          WayStored sharedLeafOpts sharedLeafTrie T
            (bytesToNibbles (sharedLeafOpts.appliedKey [0x10, 0xaa]))) :=
  proof_sound_iff sharedLeafOps sharedLeaf_free run_sharedLeaf [0x10, 0xaa]

/-- **A proof that returns another value than `get`**: the trie pruned a leaf
it still refers to, so `get` returns nothing, and the proof supplies it. -/
theorem proof_of_pruned_leaf :
    ¬ ∀ (o : MPTOpts) (ops : List TrieOp) (t : MerklePatriciaTrie),
      (∀ pre t, pre <+: ops → run (MerklePatriciaTrie.step o) (.create o) pre = .ok t →
        CollisionFree o t._db) →
      run (MerklePatriciaTrie.step o) (.create o) ops = .ok t →
      ∀ key proof x, Set.InjOn o.hash (hashedStrings o t._db ∪ { b | b ∈ proof }) →
        verifyMPTWithMerkleProof o t._root key proof = .ok x → t.get o key false = .ok x := by
  intro h
  have hverify : verifyMPTWithMerkleProof sharedLeafOpts sharedLeafTrie._root [0x10, 0xaa]
      sharedLeafProof = .ok (some (.bytes (List.replicate 32 7))) := by decide +kernel
  have hget : sharedLeafTrie.get sharedLeafOpts [0x10, 0xaa] false = .ok none := by
    decide +kernel
  have hclaim := h sharedLeafOpts sharedLeafOps sharedLeafTrie sharedLeaf_free run_sharedLeaf
    [0x10, 0xaa] sharedLeafProof _ sharedLeafProof_inj hverify
  rw [hget] at hclaim
  cases hclaim

end TsEthereum
