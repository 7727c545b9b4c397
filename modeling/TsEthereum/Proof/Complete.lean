import TsEthereum.Proof.Merkle

/-!
# Merkle proofs are complete

`createMerkleProof` writes out the nodes that `findPath` stacks: where the way of a key is
in the store, they are the nodes on that way (`createMerkleProof_eq`), and those are all
that the verifier reads. Where one is missing the proof ends above it, and the verifier,
which misses it too, throws (`proof_complete_iff`).
-/

namespace TsEthereum

open RadixTree RadixTree.Frames MPTOpts

variable {o : MPTOpts} {t : MerklePatriciaTrie} {T : Tree} {S : Set Bytes} {proof : List Bytes}

/-- **`createMerkleProof`**: the nodes of the stack, from the root's down. -/
def createMerkleProof (o : MPTOpts) (t : MerklePatriciaTrie) (key : Bytes) :
    Except MPTError (List Bytes) := do
  let path ← t.findPath o (o.appliedKey key) false
  .ok (path.stack.reverse.map MPTNode.serialize)

/-- The nodes on the way down a key, that of the tree first. -/
def way : Tree → Nibbles → List Tree
  | .empty, _ => []
  | .leaf p v, _ => [.leaf p v]
  | .extension p c, k =>
    .extension p c :: match k.dropPrefix? p with
      | some r => way c r
      | none => []
  | .branch cs v, [] => [.branch cs v]
  | .branch cs v, i :: r => .branch cs v :: way (cs i) r

theorem head?_way (hne : T ≠ .empty) (k : Nibbles) : (way T k).head? = some T := by
  cases T with
  | empty => exact absurd rfl hne
  | leaf p v => rfl
  | extension p c => rfl
  | branch cs v => cases k <;> rfl

theorem self_mem_way (hne : T ≠ .empty) (k : Nibbles) : T ∈ way T k :=
  List.mem_of_mem_head? (head?_way hne k)

theorem ne_empty_of_mem_way {k : Nibbles} {s : Tree} (h : s ∈ way T k) : s ≠ .empty := by
  induction T generalizing k with
  | empty => cases h
  | leaf p v =>
    rw [List.mem_singleton.1 h]
    simp
  | extension p c ih =>
    rw [way] at h
    rcases List.mem_cons.1 h with rfl | h
    · simp
    · cases hr : k.dropPrefix? p with
      | none =>
        rw [hr] at h
        cases h
      | some r =>
        rw [hr] at h
        exact ih h
  | branch cs v ih =>
    cases k with
    | nil =>
      rw [List.mem_singleton.1 h]
      simp
    | cons i r =>
      rcases List.mem_cons.1 h with rfl | h
      · simp
      · exact ih i h

theorem along_way (T : Tree) (k : Nibbles) : T.Along (fun s => s ≠ .empty → s ∈ way T k) k := by
  induction T generalizing k with
  | empty => trivial
  | leaf p v => trivial
  | extension p c ih =>
    unfold Along
    rw [way]
    cases hr : k.dropPrefix? p with
    | none => trivial
    | some r =>
      refine ⟨fun hne => List.mem_cons_of_mem _ (self_mem_way hne r), (ih r).mono fun s hs hne => ?_⟩
      exact List.mem_cons_of_mem _ (hs hne)
  | branch cs v ih =>
    cases k with
    | nil => trivial
    | cons i r =>
      refine ⟨fun hne => List.mem_cons_of_mem _ (self_mem_way hne r), (ih i r).mono fun s hs hne => ?_⟩
      exact List.mem_cons_of_mem _ (hs hne)

theorem visit_of_present {throwIfMissing : Bool} {c : Tree} (hc : c ≠ .empty)
    (hread : Present o t c) (stack : List MPTNode) (next : MPTNode → Except MPTError Path) :
    t.visit o throwIfMissing (o.ref c) stack next = next (o.node c) := by
  unfold MerklePatriciaTrie.visit
  rw [hread hc]

/-- **A walk that misses no node stacks the nodes of the way**, by induction on the tree. -/
theorem onFound_way {throwIfMissing : Bool} {s : Tree} (hs : s ≠ .empty) (hwf : s.WellFormed)
    {fuel : ℕ} {r : Nibbles} (hfuel : r.length < fuel) (hway : s.Along (Present o t) r)
    (above : List MPTNode) :
    ∃ p, t.onFound o throwIfMissing fuel r above (o.node s) = .ok p ∧
      p.stack = ((way s r).map o.node).reverse ++ above := by
  induction s generalizing fuel r above with
  | empty => exact absurd rfl hs
  | leaf q v =>
    obtain ⟨fuel, rfl⟩ : ∃ n, fuel = n + 1 := ⟨fuel - 1, by omega⟩
    simp only [MPTOpts.node, MerklePatriciaTrie.onFound]
    split
    · exact ⟨_, rfl, rfl⟩
    · exact ⟨_, rfl, rfl⟩
  | extension q c ih =>
    obtain ⟨fuel, rfl⟩ : ∃ n, fuel = n + 1 := ⟨fuel - 1, by omega⟩
    have hc : c ≠ .empty := by
      rintro rfl
      cases hwf.2.1
    unfold Along at hway
    rw [way]
    simp only [MPTOpts.node, MerklePatriciaTrie.onFound]
    cases hr : r.dropPrefix? q with
    | none => exact ⟨_, rfl, rfl⟩
    | some rest =>
      rw [hr] at hway
      have hrest := dropPrefix?_eq_some.1 hr
      have hq : 0 < q.length := List.length_pos_iff.2 hwf.1
      have hlt : rest.length < fuel := by
        rw [hrest, List.length_append] at hfuel
        omega
      -- the child is stored, so that the walk goes on with it
      obtain ⟨p, hp, hstack⟩ := ih hc hwf.2.2 hlt hway.2 (o.node (.extension q c) :: above)
      refine ⟨p, ?_, ?_⟩
      · dsimp only
        rw [visit_of_present hc hway.1, if_neg hwf.1]
        exact hp
      · rw [hstack]
        simp
  | branch cs v ih =>
    obtain ⟨fuel, rfl⟩ : ∃ n, fuel = n + 1 := ⟨fuel - 1, by omega⟩
    simp only [MPTOpts.node, MerklePatriciaTrie.onFound]
    cases r with
    | nil => exact ⟨_, rfl, rfl⟩
    | cons i rest =>
      rw [way]
      simp only [getBranch_ref]
      -- an empty slot ends the walk at the branch
      by_cases hi : cs i = .empty
      · rw [if_pos hi, hi]
        exact ⟨_, rfl, rfl⟩
      · rw [if_neg hi]
        have hlt : rest.length < fuel := by
          rw [List.length_cons] at hfuel
          omega
        obtain ⟨p, hp, hstack⟩ := ih i hi (hwf.2 i) hlt hway.2 (o.node (.branch cs v) :: above)
        refine ⟨p, ?_, ?_⟩
        · dsimp only
          rw [visit_of_present hi hway.1]
          exact hp
        · rw [hstack]
          simp

theorem Represents.createMerkleProof_eq (h : Represents o t T) (hfree : CollisionFree o t._db)
    (hne : T ≠ .empty) {key : Bytes} (hway : WayStored o t T (bytesToNibbles (o.appliedKey key))) :
    createMerkleProof o t key = .ok ((way T (bytesToNibbles (o.appliedKey key))).map o.enc) := by
  have hroot := h.lookupNode_root_of_stored hfree hne (hway.1 hne)
  obtain ⟨p, hp, hstack⟩ := onFound_way hne h.live.wellFormed
    (Nat.lt_succ_self _) (h.along_present hfree hway.2) []
  unfold createMerkleProof MerklePatriciaTrie.findPath MerklePatriciaTrie.visit
  rw [hroot]
  dsimp only
  rw [hp, ok_bind, hstack, List.append_nil, List.reverse_reverse, List.map_map]
  congr 1
  refine List.map_congr_left fun s hs => ?_
  exact serialize_node (ne_empty_of_mem_way hs)

/-! ## What the verifier reads -/

theorem ProofFree.present_of_mem (h : ProofFree o S T proof) {root : Bytes} {s : Tree}
    (hmem : 32 ≤ (o.enc s).length → o.enc s ∈ S ∧ (o.enc s).length < arrayBound)
    (hproof : s ≠ .empty → o.enc s ∈ proof) :
    Present o.proofOpts (proofTrie o.proofOpts root proof) s := by
  intro hne
  rw [h.lookupNode_ref hne hmem, if_neg]
  exact fun hnone => get_proofTrie_ne_none (hproof hne) hnone.2

theorem verify_way (h : ProofFree o S T proof) (hlive : T.Live) (hne : T ≠ .empty) {key : Bytes}
    (hproof : proof = (way T (bytesToNibbles (o.appliedKey key))).map o.enc) :
    verifyMPTWithMerkleProof o (o.rootHash T) key proof =
      .ok (got (T.lookup (bytesToNibbles (o.appliedKey key)))) := by
  have hhead : proof.head? = some (o.enc T) := by rw [hproof, List.head?_map, head?_way hne]; rfl
  have hmem {s : Tree} (hs : s ∈ way T (bytesToNibbles (o.appliedKey key))) : o.enc s ∈ proof := by
    rw [hproof]
    exact List.mem_map_of_mem hs
  have hroot := h.lookupNode (o.rootHash T) hne h.tree.1 h.bounded.1
  have hin : (proofTrie o.proofOpts (o.rootHash T) proof)._db.get (o.rootHash T) ≠ none :=
    get_proofTrie_ne_none (hmem (self_mem_way hne _))
  rw [if_neg hin] at hroot
  have halong : T.Along (Present o.proofOpts (proofTrie o.proofOpts (o.rootHash T) proof))
      (bytesToNibbles (o.appliedKey key)) :=
    ((along_way T _).and (h.below.along _)).mono fun s hs =>
      h.present_of_mem hs.2 fun hne => hmem (hs.1 hne)
  have hget : (proofTrie o.proofOpts (o.rootHash T) proof).get o.proofOpts (o.appliedKey key) true =
      .ok (got (T.lookup (bytesToNibbles (o.appliedKey key)))) :=
    get_of_along hne hlive.wellFormed (h.readable _) hroot
      (by rwa [appliedKey_proofOpts])
  rw [verify_eq (o.rootHash T) key (by rw [rootHash, length_hash]), if_neg, getProven, hget]
  rw [hhead]
  exact fun hc => hc.2 rfl

/-! ## A proof that ends above a missing node -/

theorem stack_of_onFound {Q : MPTNode → Prop} {throwIfMissing : Bool} {s : Tree}
    (hwf : s.WellFormed) (hread : s.Below (Readable o t))
    (hQ : s.Below fun c => c ≠ .empty → t.lookupNode o (o.ref c) = .ok (o.node c) → Q (o.node c))
    {fuel : ℕ} {r : Nibbles} {above : List MPTNode} (hself : Q (o.node s))
    (habove : ∀ n ∈ above, Q n) {p : Path}
    (h : t.onFound o throwIfMissing fuel r above (o.node s) = .ok p) : ∀ n ∈ p.stack, Q n := by
  -- a step ends at the stack, or goes on below
  have hvisit {c : Tree} {stack : List MPTNode} {next : MPTNode → Except MPTError Path}
      (hc : c ≠ .empty) (hread : Readable o t c) (hstack : ∀ n ∈ stack, Q n)
      (hnext : t.lookupNode o (o.ref c) = .ok (o.node c) → next (o.node c) = .ok p →
        ∀ n ∈ p.stack, Q n)
      (h : t.visit o throwIfMissing (o.ref c) stack next = .ok p) : ∀ n ∈ p.stack, Q n := by
    unfold MerklePatriciaTrie.visit at h
    rcases hread hc with hok | hmiss
    · rw [hok] at h
      exact hnext hok h
    · rw [hmiss] at h
      dsimp only at h
      split at h
      · cases h
      · cases h
        exact hstack
  induction s generalizing fuel r above with
  | empty =>
    cases fuel with
    | zero => cases h
    | succ fuel =>
      have hstack := List.forall_mem_cons.2 ⟨hself, habove⟩
      cases r with
      | nil =>
        cases h
        exact hstack
      | cons i rest =>
        cases h
        exact hstack
  | leaf q v =>
    have hstack := List.forall_mem_cons.2 ⟨hself, habove⟩
    cases fuel with
    | zero => cases h
    | succ fuel =>
      simp only [MPTOpts.node, MerklePatriciaTrie.onFound] at h
      split at h
      · cases h
        exact hstack
      · cases h
        exact hstack
  | extension q c ih =>
    have hstack := List.forall_mem_cons.2 ⟨hself, habove⟩
    have hc : c ≠ .empty := by
      rintro rfl
      cases hwf.2.1
    cases fuel with
    | zero => cases h
    | succ fuel =>
      simp only [MPTOpts.node, MerklePatriciaTrie.onFound] at h
      cases hr : r.dropPrefix? q with
      | none =>
        rw [hr] at h
        cases h
        exact hstack
      | some rest =>
        rw [hr] at h
        dsimp only at h
        rw [if_neg hwf.1] at h
        exact hvisit hc hread.1 hstack
          (fun hok hnext => ih hwf.2.2 hread.2 hQ.2 (hQ.1 hc hok) hstack hnext) h
  | branch cs v ih =>
    have hstack := List.forall_mem_cons.2 ⟨hself, habove⟩
    cases fuel with
    | zero => cases h
    | succ fuel =>
      cases r with
      | nil =>
        cases h
        exact hstack
      | cons i rest =>
        simp only [MPTOpts.node, MerklePatriciaTrie.onFound, getBranch_ref] at h
        by_cases hi : cs i = .empty
        · rw [if_pos hi] at h
          cases h
          exact hstack
        · rw [if_neg hi] at h
          exact hvisit hi (hread i).1 hstack
            (fun hok hnext => ih i (hwf.2 i) (hread i).2 (hQ i).2 ((hQ i).1 hi hok) hstack hnext) h

/-- **The nodes of a proof are in the store**, but for those that are inside another. -/
theorem Represents.stored_of_mem_proof (h : Represents o t T) (hfree : CollisionFree o t._db)
    (hne : T ≠ .empty) (hroot : t._db.get (o.dbKey (o.rootHash T)) ≠ none) {key : Bytes}
    (hproof : createMerkleProof o t key = .ok proof) :
    ∀ b ∈ proof, 32 ≤ b.length → t._db.get (o.dbKey (o.hash b)) ≠ none := by
  unfold createMerkleProof MerklePatriciaTrie.findPath MerklePatriciaTrie.visit at hproof
  rw [h.lookupNode_root_of_stored hfree hne hroot] at hproof
  obtain ⟨p, hp, hsame⟩ := bind_eq_ok.1 hproof
  cases hsame
  have hstored := stack_of_onFound
    (Q := fun n => 32 ≤ n.serialize.length → t._db.get (o.dbKey (o.hash n.serialize)) ≠ none)
    h.live.wellFormed (h.readable hfree) ?_ ?_ (fun n hn => absurd hn List.not_mem_nil) hp
  · intro b hb
    obtain ⟨n, hn, rfl⟩ := List.mem_map.1 hb
    exact hstored n (List.mem_reverse.1 hn)
  · refine h.below.mono fun c hlog hc hok => ?_
    rw [serialize_node hc]
    intro hlen hnone
    rw [lookupNode_ref h.addressed hfree hc fun hlen => .inr (.inr (hlog hlen)),
      if_pos ⟨hlen, hnone⟩] at hok
    cases hok
  · rw [serialize_node hne]
    exact fun _ => hroot

theorem Represents.wayStored_of_verify (h : Represents o t T) (hfree : CollisionFree o t._db)
    (hne : T ≠ .empty) {key : Bytes} (hproof : createMerkleProof o t key = .ok proof)
    (hinj : Set.InjOn o.hash (hashedStrings o t._db ∪ { b | b ∈ proof }))
    {x : Option NestedUint8Array}
    (hverify : verifyMPTWithMerkleProof o t._root key proof = .ok x) :
    WayStored o t T (bytesToNibbles (o.appliedKey key)) := by
  have hpf := h.proofFree hfree hinj
  rw [h.root, verify_eq (o.rootHash T) key (by rw [rootHash, length_hash])] at hverify
  split at hverify
  · cases hverify
  · rw [getProven] at hverify
    obtain ⟨y, hget⟩ : ∃ y, (proofTrie o.proofOpts (o.rootHash T) proof).get o.proofOpts
        (o.appliedKey key) true = .ok y := by
      split at hverify
      · exact ⟨_, by assumption⟩
      · cases hverify
      · cases hverify
    -- the root is read, so it is in the proof
    obtain ⟨p, hp, -⟩ := bind_eq_ok.1 hget
    rw [appliedKey_proofOpts] at hp
    have hroot := hpf.lookupNode (o.rootHash T) hne hpf.tree.1 hpf.bounded.1
    split at hroot
    · rw [findPath_of_root_missing hroot] at hp
      cases hp
    rename_i hin
    have hproofne : proof ≠ [] := by
      rintro rfl
      exact hin rfl
    have hrootStored : t._db.get (o.dbKey (o.rootHash T)) ≠ none := by
      intro hnone
      have hmiss := lookupNode_rootHash h.addressed hfree hne (.inr (.inr (h.rootLogged hne)))
      rw [if_pos hnone, ← h.root] at hmiss
      unfold createMerkleProof at hproof
      rw [findPath_of_root_missing hmiss] at hproof
      cases hproof
      exact hproofne rfl
    refine ⟨fun _ => hrootStored, ?_⟩
    have hread : (proofTrie o.proofOpts (o.rootHash T) proof).lookupNode o.proofOpts
        (.bytes (proofTrie o.proofOpts (o.rootHash T) proof)._root) = .ok (o.proofOpts.node T) :=
      hroot
    unfold MerklePatriciaTrie.findPath MerklePatriciaTrie.visit at hp
    rw [hread] at hp
    have halong := along_of_onFound h.live.wellFormed (hpf.readable (o.rootHash T)) hp (.inl rfl)
    refine (halong.and (hpf.below.along _)).mono fun s hs hlen => ?_
    have hs' : s ≠ .empty := by
      rintro rfl
      rw [length_enc_empty] at hlen
      omega
    have hpresent := hs.1 hs'
    rw [hpf.lookupNode_ref hs' hs.2] at hpresent
    split at hpresent
    · cases hpresent
    · rename_i hmem
      obtain ⟨value, hvalue⟩ := Option.ne_none_iff_exists'.1 fun hnone => hmem ⟨hlen, hnone⟩
      obtain ⟨hvmem, hkey⟩ := get_proofTrie_mem hvalue
      have hsame : o.enc s = value := hinj (hs.2 hlen).1 (.inr hvmem) hkey
      have hstored := h.stored_of_mem_proof hfree hne hrootStored hproof value hvmem
      rw [← hsame] at hstored
      exact hstored hlen

/-- **Merkle proofs are complete exactly for the keys whose way is stored.** For every trie
that is not empty, built by `put` and `del` with any options, and every key, bound or not: as
long as no two of the strings hashed collide, the verifier accepts the proof of the key and
returns what `get` returns, if and only if the trie's own store has every node on the way. -/
theorem proof_complete_iff (ops : List TrieOp)
    (hfree : ∀ pre t, pre <+: ops → run (MerklePatriciaTrie.step o) (.create o) pre = .ok t →
      CollisionFree o t._db)
    (ht : run (MerklePatriciaTrie.step o) (.create o) ops = .ok t)
    (hne : t._root ≠ o.EMPTY_TRIE_ROOT) (key : Bytes)
    (hinj : ∀ proof, createMerkleProof o t key = .ok proof →
      Set.InjOn o.hash (hashedStrings o t._db ∪ { b | b ∈ proof })) :
    (∃ proof x, createMerkleProof o t key = .ok proof ∧ t.get o key false = .ok x ∧
        verifyMPTWithMerkleProof o t._root key proof = .ok x) ↔
      ∃ T, Represents o t T ∧ WayStored o t T (bytesToNibbles (o.appliedKey key)) := by
  have hfree' := hfree ops t List.prefix_rfl ht
  constructor
  · rintro ⟨proof, x, hproof, -, hverify⟩
    obtain ⟨T, hT⟩ := exists_represents_of_run hfree ht
    have hT' : T ≠ .empty := fun he => hne ((hT.root_eq_empty_iff hfree').2 he)
    exact ⟨T, hT, hT.wayStored_of_verify hfree' hT' hproof (hinj proof hproof) hverify⟩
  · rintro ⟨T, hT, hway⟩
    have hT' : T ≠ .empty := fun he => hne ((hT.root_eq_empty_iff hfree').2 he)
    have hproof := hT.createMerkleProof_eq hfree' hT' hway
    refine ⟨_, _, hproof, hT.get_of_wayStored hfree' hway, ?_⟩
    rw [hT.root]
    exact verify_way (hT.proofFree hfree' (hinj _ hproof)) hT.live hT' rfl

/-! ## A proof of a node that is gone -/

/-- The root's node of the trie that lost its leaf. -/
def sharedLeafRoot : Bytes :=
  [245, 196, 130, 48, 170, 1, 160] ++ sharedLeafDigest ++ List.replicate 15 128

theorem sharedLeaf_inj {proof : List Bytes} (hproof : proof = [sharedLeafRoot]) :
    Set.InjOn sharedLeafOpts.hash
      (hashedStrings sharedLeafOpts sharedLeafTrie._db ∪ { b | b ∈ proof }) := by
  have hlogged : (sharedLeafOpts.dbKey (sharedLeafOpts.hash sharedLeafRoot), some sharedLeafRoot) ∈
      sharedLeafTrie._db.log := by
    decide +kernel
  have hsub : hashedStrings sharedLeafOpts sharedLeafTrie._db ∪ { b | b ∈ proof } =
      hashedStrings sharedLeafOpts sharedLeafTrie._db := by
    refine Set.union_eq_left.2 fun b hb => ?_
    rw [hproof] at hb
    rw [List.mem_singleton.1 hb]
    exact .inr (.inr hlogged)
  rw [hsub]
  exact (sharedLeaf_free sharedLeafOps sharedLeafTrie List.prefix_rfl run_sharedLeaf).inj

/-- A key that is not there is proved by the root's node. -/
theorem proof_complete_iff_absent :
    (∃ proof x, createMerkleProof sharedLeafOpts sharedLeafTrie [0x20, 0xaa] = .ok proof ∧
        sharedLeafTrie.get sharedLeafOpts [0x20, 0xaa] false = .ok x ∧
        verifyMPTWithMerkleProof sharedLeafOpts sharedLeafTrie._root [0x20, 0xaa] proof = .ok x) ↔
      ∃ T, Represents sharedLeafOpts sharedLeafTrie T ∧ WayStored sharedLeafOpts sharedLeafTrie T
        (bytesToNibbles (sharedLeafOpts.appliedKey [0x20, 0xaa])) := by
  refine proof_complete_iff sharedLeafOps sharedLeaf_free run_sharedLeaf (by decide +kernel)
    [0x20, 0xaa] fun proof hproof => sharedLeaf_inj ?_
  have hroot : createMerkleProof sharedLeafOpts sharedLeafTrie [0x20, 0xaa] =
      .ok [sharedLeafRoot] := by decide +kernel
  exact Except.ok.inj (hproof.symm.trans hroot)

/-- **A proof that is not accepted**: the trie pruned a leaf it still refers to, so the proof ends
above it. -/
theorem proof_of_missing_leaf :
    ¬ ∀ (o : MPTOpts) (ops : List TrieOp) (t : MerklePatriciaTrie) (n : ℕ),
      o.useKeyHashing = false → (∀ op ∈ ops, op.key.length = n) →
      (∀ pre t, pre <+: ops → run (MerklePatriciaTrie.step o) (.create o) pre = .ok t →
        CollisionFree o t._db) →
      run (MerklePatriciaTrie.step o) (.create o) ops = .ok t → t._root ≠ o.EMPTY_TRIE_ROOT →
      ∀ key, key.length = n → (∀ proof, createMerkleProof o t key = .ok proof →
        Set.InjOn o.hash (hashedStrings o t._db ∪ { b | b ∈ proof })) →
      ∃ proof x, createMerkleProof o t key = .ok proof ∧ t.get o key false = .ok x ∧
        verifyMPTWithMerkleProof o t._root key proof = .ok x := by
  intro h
  have hroot : createMerkleProof sharedLeafOpts sharedLeafTrie [0x10, 0xaa] =
      .ok [sharedLeafRoot] := by decide +kernel
  have hverify : verifyMPTWithMerkleProof sharedLeafOpts sharedLeafTrie._root [0x10, 0xaa]
      [sharedLeafRoot] = .error .invalidProof := by decide +kernel
  obtain ⟨proof, x, hproof, -, hok⟩ := h sharedLeafOpts sharedLeafOps sharedLeafTrie 2 rfl
    (by decide) sharedLeaf_free run_sharedLeaf (by decide +kernel) [0x10, 0xaa] rfl
    fun proof hproof => sharedLeaf_inj (Except.ok.inj (hproof.symm.trans hroot))
  rw [Except.ok.inj (hproof.symm.trans hroot), hverify] at hok
  cases hok

end TsEthereum
