import TsEthereum.Proof.Range

/-!
# The proof that nothing follows

A proof without elements is accepted when its key is not found and
`hasRightElement` finds nothing to the right of the key's path. That walk
gives up at any leaf, also at one whose path is greater than what is left of
the key: `HidesRight` is the tree where it does so with nothing else to the
right, and `zero_elements_sound_iff` says that only there the proof lies.
-/

namespace TsEthereum

open RadixTree RadixTree.Frames MPTOpts

/-! ## What `hasRightElement` answers -/

/-- **The answer of `hasRightElement` on a tree**; `none` is the `TypeError`
of a key that ends at a branch. -/
def rightOf : Tree → Nibbles → Option Bool
  | .extension p c, k =>
    match k.dropPrefix? p with
    | some r => rightOf c r
    | none => some (decide (k < p))
  | .branch _ _, [] => none
  | .branch cs _, i :: k =>
    if ∃ j, i < j ∧ cs j ≠ .empty then some true
    else if cs i = .empty then some false
    else rightOf (cs i) k
  | _, _ => some false

/-- **The key leaves the tree at a leaf that follows it**, and nothing else
stands to the right of its path. -/
def HidesRight : Tree → Nibbles → Prop
  | .leaf p _, k => k < p
  | .extension p c, k =>
    match k.dropPrefix? p with
    | some r => HidesRight c r
    | none => False
  | .branch cs _, i :: k => (∀ j, i < j → cs j = .empty) ∧ HidesRight (cs i) k
  | _, _ => False

theorem matches_iff (p k : Nibbles) :
    (k.length < p.length ∨ nibblesCompare p (k.take p.length) ≠ .eq) ↔ ¬ p <+: k := by
  rw [Ne, nibblesCompare_eq_eq, List.prefix_iff_eq_take]
  constructor
  · rintro (hlt | hne) heq
    · have hlen := congrArg List.length heq
      rw [List.length_take] at hlen
      omega
    · exact hne heq
  · exact fun h => .inr h

variable {o : MPTOpts} {t : MerklePatriciaTrie}

theorem hasRightLoop_extension {fuel : ℕ} {p k : Nibbles} {c : Tree} :
    Range.hasRightLoop o t (fuel + 1) (o.node (.extension p c)) k =
      match k.dropPrefix? p with
      | some r => ofTrie (t.lookupNode o (o.ref c)) >>= fun node => Range.hasRightLoop o t fuel node r
      | none => .ok (decide (k < p)) := by
  have hstep : Range.hasRightLoop o t (fuel + 1) (o.node (.extension p c)) k =
      if k.length < p.length ∨ nibblesCompare p (k.take p.length) ≠ .eq then
        .ok (nibblesCompare p k = .gt)
      else ofTrie (t.lookupNode o (o.ref c)) >>= fun node =>
        Range.hasRightLoop o t fuel node (k.drop p.length) := rfl
  rw [hstep]
  cases hr : k.dropPrefix? p with
  | none =>
    rw [if_pos ((matches_iff p k).2 (dropPrefix?_eq_none.1 hr))]
    simp only [nibblesCompare_eq_gt]
  | some r =>
    obtain rfl := dropPrefix?_eq_some.1 hr
    have hpre : ¬ ¬ p <+: p ++ r := fun h => h (List.prefix_append p r)
    rw [if_neg (mt (matches_iff p (p ++ r)).1 hpre), List.drop_left]

theorem hasRightLoop_branch {fuel : ℕ} {cs : Nibble → Tree} {w : Option Value} {i : Nibble}
    {k : Nibbles} :
    Range.hasRightLoop o t (fuel + 1) (o.node (.branch cs w)) (i :: k) =
      if ∃ j, i < j ∧ cs j ≠ .empty then .ok true
      else if cs i = .empty then .ok false
      else ofTrie (t.lookupNode o (o.ref (cs i))) >>= fun node =>
        Range.hasRightLoop o t fuel node k := by
  have hsome (j : Nibble) :
      (MPTNode.getBranch (fun i => o.ref (cs i)) j).isSome = true ↔ cs j ≠ .empty := by
    rw [getBranch_ref]
    split <;> simp_all
  simp only [MPTOpts.node, Range.hasRightLoop, hsome]
  by_cases hright : ∃ j, i < j ∧ cs j ≠ .empty
  · simp only [if_pos hright]
  · simp only [if_neg hright, getBranch_ref]
    by_cases hi : cs i = .empty
    · simp only [if_pos hi]
    · simp only [if_neg hi]

/-- **The walk answers what the tree says**, if it returns: by induction on
the tree. -/
theorem hasRightLoop_ok {s : Tree} (hs : s ≠ .empty) (hwf : s.WellFormed)
    (hread : s.Below (Readable o t)) {fuel : ℕ} {k : Nibbles} {b : Bool}
    (h : Range.hasRightLoop o t fuel (o.node s) k = .ok b) : rightOf s k = some b := by
  induction s generalizing fuel k with
  | empty => exact absurd rfl hs
  | leaf p v =>
    cases fuel with
    | zero => cases h
    | succ fuel =>
      cases h
      rfl
  | extension p c ih =>
    cases fuel with
    | zero => cases h
    | succ fuel =>
      rw [hasRightLoop_extension] at h
      unfold rightOf
      cases hr : k.dropPrefix? p with
      | none =>
        rw [hr] at h
        exact congrArg some (Except.ok.inj h)
      | some r =>
        rw [hr] at h
        have hc : c ≠ .empty := by
          rintro rfl
          cases hwf.2.1
        obtain ⟨node, hnode, h⟩ := bind_eq_ok.1 h
        rcases hread.1 hc with hok | hmiss
        · rw [hok] at hnode
          cases hnode
          exact ih hc hwf.2.2 hread.2 h
        · rw [hmiss] at hnode
          cases hnode
  | branch cs w ih =>
    cases fuel with
    | zero => cases h
    | succ fuel =>
      cases k with
      | nil => cases h
      | cons i k =>
        rw [hasRightLoop_branch] at h
        unfold rightOf
        by_cases hright : ∃ j, i < j ∧ cs j ≠ .empty
        · rw [if_pos hright] at h ⊢
          exact congrArg some (Except.ok.inj h)
        · rw [if_neg hright] at h ⊢
          by_cases hi : cs i = .empty
          · rw [if_pos hi] at h ⊢
            exact congrArg some (Except.ok.inj h)
          · rw [if_neg hi] at h ⊢
            obtain ⟨node, hnode, h⟩ := bind_eq_ok.1 h
            rcases (hread i).1 hi with hok | hmiss
            · rw [hok] at hnode
              cases hnode
              exact ih i hi (hwf.2 i) (hread i).2 h
            · rw [hmiss] at hnode
              cases hnode

theorem hasRightLoop_eq {s : Tree} (hs : s ≠ .empty) (hwf : s.WellFormed)
    (hpresent : s.Below (Present o t)) {fuel : ℕ} {k : Nibbles} (hfuel : k.length < fuel) {b : Bool}
    (h : rightOf s k = some b) : Range.hasRightLoop o t fuel (o.node s) k = .ok b := by
  induction s generalizing fuel k with
  | empty => exact absurd rfl hs
  | leaf p v =>
    obtain ⟨fuel, rfl⟩ : ∃ n, fuel = n + 1 := ⟨fuel - 1, by omega⟩
    cases h
    rfl
  | extension p c ih =>
    obtain ⟨fuel, rfl⟩ : ∃ n, fuel = n + 1 := ⟨fuel - 1, by omega⟩
    rw [hasRightLoop_extension]
    unfold rightOf at h
    cases hr : k.dropPrefix? p with
    | none =>
      rw [hr] at h
      exact congrArg Except.ok (Option.some.inj h)
    | some r =>
      rw [hr] at h
      have hc : c ≠ .empty := by
        rintro rfl
        cases hwf.2.1
      obtain rfl := dropPrefix?_eq_some.1 hr
      have hp := List.length_pos_iff.2 hwf.1
      rw [List.length_append] at hfuel
      simp only [hpresent.1 hc, ofTrie, ok_bind]
      exact ih hc hwf.2.2 hpresent.2 (by omega) h
  | branch cs w ih =>
    obtain ⟨fuel, rfl⟩ : ∃ n, fuel = n + 1 := ⟨fuel - 1, by omega⟩
    cases k with
    | nil => cases h
    | cons i k =>
      rw [hasRightLoop_branch]
      unfold rightOf at h
      by_cases hright : ∃ j, i < j ∧ cs j ≠ .empty
      · rw [if_pos hright] at h ⊢
        exact congrArg Except.ok (Option.some.inj h)
      · rw [if_neg hright] at h ⊢
        by_cases hi : cs i = .empty
        · rw [if_pos hi] at h ⊢
          exact congrArg Except.ok (Option.some.inj h)
        · rw [if_neg hi] at h ⊢
          rw [List.length_cons] at hfuel
          simp only [(hpresent i).1 hi, ofTrie, ok_bind]
          exact ih i hi (hwf.2 i) (hpresent i).2 (by omega) h

/-! ## What the answer says -/

/-- A path that comes before a key without being its start comes before it
with anything below. -/
theorem append_lt_of_lt {p k : Nibbles} (hlt : p < k) (hpre : ¬ p <+: k) (r : Nibbles) :
    p ++ r < k := by
  induction p generalizing k with
  | nil => exact absurd List.nil_prefix hpre
  | cons a p ih =>
    cases k with
    | nil => exact absurd hlt (List.not_lt_nil _)
    | cons b k =>
      rcases List.cons_lt_cons_iff.1 hlt with hab | ⟨rfl, hlt'⟩
      · exact List.cons_lt_cons_iff.2 (.inl hab)
      · have hpre' : ¬ p <+: k := fun h => hpre (List.cons_prefix_cons.2 ⟨rfl, h⟩)
        exact List.cons_lt_cons_iff.2 (.inr ⟨rfl, ih hlt' hpre'⟩)

theorem lt_of_rightOf {s : Tree} (hlive : s.Live) {k : Nibbles} (hright : rightOf s k = some false)
    (hnone : s.lookup k = none) (hhides : ¬ HidesRight s k) {k' : Nibbles} {v : Value}
    (hk' : s.lookup k' = some v) : k' < k := by
  induction s generalizing k k' with
  | empty => cases hk'
  | leaf p w =>
    have hp : k' = p := by
      by_contra hne
      simp [hne] at hk'
    subst hp
    have hne : k ≠ k' := by
      rintro rfl
      simp at hnone
    exact lt_of_le_of_ne (not_lt.1 hhides) hne.symm
  | extension p c ih =>
    rw [lookup_extension, Option.bind_eq_some_iff] at hk'
    obtain ⟨r', hr', hk'⟩ := hk'
    obtain rfl := dropPrefix?_eq_some.1 hr'
    unfold rightOf at hright
    unfold HidesRight at hhides
    cases hr : k.dropPrefix? p with
    | none =>
      rw [hr] at hright
      have hpre := dropPrefix?_eq_none.1 hr
      have hle : p ≤ k := not_lt.1 (of_decide_eq_false (Option.some.inj hright))
      have hne : p ≠ k := fun h => hpre (h ▸ List.prefix_rfl)
      exact append_lt_of_lt (lt_of_le_of_ne hle hne) hpre r'
    | some r =>
      obtain rfl := dropPrefix?_eq_some.1 hr
      rw [hr] at hright hhides
      rw [lookup_extension, hr] at hnone
      exact List.append_left_lt (ih hlive.2.2 hright hnone hhides hk')
  | branch cs w ih =>
    cases k with
    | nil => cases hright
    | cons i k =>
      cases k' with
      | nil => exact List.nil_lt_cons i k
      | cons j k' =>
        unfold rightOf at hright
        have hno : ¬ ∃ j, i < j ∧ cs j ≠ .empty := by
          intro h
          rw [if_pos h] at hright
          cases hright
        rw [if_neg hno] at hright
        have hj : cs j ≠ .empty := by
          intro he
          rw [lookup_branch_cons, he] at hk'
          cases hk'
        rcases lt_trichotomy j i with hji | rfl | hij
        · exact List.cons_lt_cons_iff.2 (.inl hji)
        · rw [if_neg hj] at hright
          have hempty : ∀ j', j < j' → cs j' = .empty := fun j' hlt => by
            by_contra hne
            exact hno ⟨j', hlt, hne⟩
          have hbelow : ¬ HidesRight (cs j) k := fun h => hhides ⟨hempty, h⟩
          exact List.cons_lt_cons_iff.2
            (.inr ⟨rfl, ih j (hlive.2 j) hright hnone hbelow hk'⟩)
        · exact absurd ⟨j, hij, hj⟩ hno

theorem rightOf_of_hidesRight {s : Tree} {k : Nibbles} (h : HidesRight s k) :
    rightOf s k = some false ∧ s.lookup k = none ∧ ∃ k' v, s.lookup k' = some v ∧ k < k' := by
  induction s generalizing k with
  | empty => cases h
  | leaf p v =>
    have hlt : k < p := h
    exact ⟨rfl, by simp [hlt.ne], p, v, by simp, hlt⟩
  | extension p c ih =>
    unfold HidesRight at h
    unfold rightOf
    cases hr : k.dropPrefix? p with
    | none =>
      rw [hr] at h
      cases h
    | some r =>
      rw [hr] at h
      obtain ⟨hright, hnone, k', v, hk', hlt⟩ := ih h
      refine ⟨hright, by rw [lookup_extension, hr]; exact hnone, p ++ k', v, by simpa using hk', ?_⟩
      rw [dropPrefix?_eq_some.1 hr]
      exact List.append_left_lt hlt
  | branch cs w ih =>
    cases k with
    | nil => cases h
    | cons i k =>
      obtain ⟨hempty, h⟩ := h
      obtain ⟨hright, hnone, k', v, hk', hlt⟩ := ih i h
      have hi : cs i ≠ .empty := by
        intro he
        rw [he] at h
        cases h
      have hno : ¬ ∃ j, i < j ∧ cs j ≠ .empty := by
        rintro ⟨j, hij, hj⟩
        exact hj (hempty j hij)
      refine ⟨?_, hnone, i :: k', v, hk', List.cons_lt_cons_iff.2 (.inr ⟨rfl, hlt⟩)⟩
      unfold rightOf
      rw [if_neg hno, if_neg hi]
      exact hright

/-! ## The verifier -/

/-- The trie the verifier works on: of the root it was given, over the nodes
of the proof. -/
theorem createMPTFromProof_eq {root : Bytes} (hroot : root.length = 32) (proof : List Bytes) :
    Range.createMPTFromProof o.proofOpts (some root) proof =
      if proof ≠ [] ∧ proof.head?.map o.hash ≠ some root then .error .unexpectedRoot
      else .ok (proofTrie o.proofOpts root proof) := by
  have hset : (proofTrie o.proofOpts root proof).setRoot o.proofOpts root =
      .ok (proofTrie o.proofOpts root proof) := if_neg (by simp [EMPTY_TRIE_ROOT, hroot])
  have hbatch : MerklePatriciaTrie.mk root (MapDB.empty.batch (proofPuts o.proofOpts proof)) =
      proofTrie o.proofOpts root proof := rfl
  have hhead : (proof.head?.map fun nodeValue =>
      o.proofOpts.dbKey (o.proofOpts.hash nodeValue)) = proof.head?.map o.hash := rfl
  have hpersist : (proofTrie o.proofOpts root proof).persistRoot o.proofOpts =
      proofTrie o.proofOpts root proof := rfl
  unfold Range.createMPTFromProof updateMPTFromMerkleProof
  simp only [Option.getD_some, newMPT_eq hroot, ok_bind, hhead, hbatch, Option.isSome_map,
    Option.isSome_some, true_and]
  cases proof with
  | nil => rfl
  | cons b proof =>
    by_cases hb : some (o.hash b) = some root
    · simp only [List.head?_cons, Option.map_some, hb, hset, hpersist, ok_bind, ne_eq, not_true,
        and_false, if_false]
    · simp [hb]

/-- **What the zero element proof does**: the key is read, and then what
follows it. -/
theorem verifyZeroElements_eq_ok {root : Bytes} (hroot : root.length = 32) {firstKey : Bytes}
    {proof : List Bytes} {b : Bool} :
    Range.verifyMerkleRangeProof root (some firstKey) none [] [] (some proof)
        o.useKeyHashingFunction = .ok b ↔
      b = false ∧ ¬ (proof ≠ [] ∧ proof.head?.map o.hash ≠ some root) ∧
        (proofTrie o.proofOpts root proof).get o.proofOpts firstKey true = .ok none ∧
        Range.hasRightElement o.proofOpts (proofTrie o.proofOpts root proof)
          (some (bytesToNibbles firstKey)) = .ok false := by
  have hzero : Range.verifyMerkleRangeProof root (some firstKey) none [] [] (some proof)
      o.useKeyHashingFunction =
      Range.verifyZeroElements o.proofOpts root (bytesToNibbles firstKey) proof := by
    simp [Range.verifyMerkleRangeProof, proofOpts]
  rw [hzero, Range.verifyZeroElements, Range.verifyMPTWithMerkleProof, createMPTFromProof_eq hroot,
    nibblesTypeToPackedBytes_bytesToNibbles]
  constructor
  · intro h
    by_cases hhead : proof ≠ [] ∧ proof.head?.map o.hash ≠ some root
    · rw [if_pos hhead] at h
      cases h
    · rw [if_neg hhead, ok_bind] at h
      cases hget : (proofTrie o.proofOpts root proof).get o.proofOpts firstKey true with
      | error e => cases e <;> simp [getProven, hget, ofProof] at h
      | ok value =>
        simp only [getProven, hget, ofProof, ok_bind, ite_error_eq_ok, not_not] at h
        obtain ⟨rfl, h⟩ := h
        obtain ⟨right, hright, h⟩ := bind_eq_ok.1 h
        cases right with
        | true => cases h
        | false => exact ⟨(Except.ok.inj h).symm, hhead, rfl, hright⟩
  · rintro ⟨rfl, hhead, hget, hright⟩
    rw [if_neg hhead, ok_bind, getProven, hget]
    simp [ofProof, hright]

theorem zeroElements_sound (h : ProofFree o S T proof) (hlive : T.Live) {firstKey : Bytes}
    (hhides : ¬ HidesRight T (bytesToNibbles firstKey)) {b : Bool}
    (hverify : Range.verifyMerkleRangeProof (o.rootHash T) (some firstKey) none [] [] (some proof)
      o.useKeyHashingFunction = .ok b) {k : Nibbles} {v : Value} (hk : T.lookup k = some v) :
    k < bytesToNibbles firstKey := by
  obtain ⟨-, -, hget, hright⟩ :=
    (verifyZeroElements_eq_ok (by rw [rootHash, length_hash])).1 hverify
  rcases eq_or_ne T .empty with rfl | hne
  · cases hk
  · have hnone : T.lookup (bytesToNibbles firstKey) = none := by
      have hgot := get_proofTrie h hlive.wellFormed hget
      cases hv : T.lookup (bytesToNibbles firstKey) with
      | none => rfl
      | some w =>
        rw [hv] at hgot
        cases hgot
    obtain ⟨node, hnode, hloop⟩ := bind_eq_ok.1 hright
    have hroot := h.lookupNode (o.rootHash T) hne h.tree.1 h.bounded.1
    have hfound : node = o.proofOpts.node T := by
      change ofTrie ((proofTrie o.proofOpts (o.rootHash T) proof).lookupNode o.proofOpts
        (.bytes (o.rootHash T))) = .ok node at hnode
      rw [hroot] at hnode
      split at hnode
      · cases hnode
      · exact (Except.ok.inj hnode).symm
    rw [hfound] at hloop
    have hanswer := hasRightLoop_ok hne hlive.wellFormed (h.readable _) hloop
    exact lt_of_rightOf hlive hanswer hnone hhides hk

theorem zeroElements_accepted (h : ProofFree o S T (o.enc T :: referred o T)) (hlive : T.Live)
    {firstKey : Bytes} (hhides : HidesRight T (bytesToNibbles firstKey)) :
    Range.verifyMerkleRangeProof (o.rootHash T) (some firstKey) none [] []
      (some (o.enc T :: referred o T)) o.useKeyHashingFunction = .ok false := by
  have hne : T ≠ .empty := by
    rintro rfl
    exact hhides
  obtain ⟨hanswer, hnone, -⟩ := rightOf_of_hidesRight hhides
  have hw := whole_referred h hne
  have hget := hw.get hlive hne firstKey true
  rw [appliedKey_proofOpts, hnone] at hget
  refine (verifyZeroElements_eq_ok (by rw [rootHash, length_hash])).2
    ⟨rfl, by simp [rootHash], hget, ?_⟩
  have hloop := hasRightLoop_eq hne hlive.wellFormed hw.below
    (Nat.lt_succ_self (bytesToNibbles firstKey).length) hanswer
  unfold Range.hasRightElement
  rw [hw.root hne]
  exact hloop

/-- **The zero element proof is sound exactly where no leaf hides.** For
every trie built by `put` and `del`, with any options, and every key:
whatever list of nodes is accepted, as long as no two of the strings hashed
collide, every key of the tree comes before the key, if and only if the key
does not leave the tree at a leaf that follows it with nothing else to the
right. -/
theorem zero_elements_sound_iff (ops : List TrieOp)
    (hfree : ∀ pre t, pre <+: ops → run (MerklePatriciaTrie.step o) (.create o) pre = .ok t →
      CollisionFree o t._db)
    (ht : run (MerklePatriciaTrie.step o) (.create o) ops = .ok t) (firstKey : Bytes) :
    ∃ T, Represents o t T ∧
      ((∀ proof b, Set.InjOn o.hash (hashedStrings o t._db ∪ { b | b ∈ proof }) →
          Range.verifyMerkleRangeProof t._root (some firstKey) none [] [] (some proof)
            o.useKeyHashingFunction = .ok b →
          ∀ k v, T.lookup k = some v → k < bytesToNibbles firstKey) ↔
        ¬ HidesRight T (bytesToNibbles firstKey)) := by
  have hfree' := hfree ops t List.prefix_rfl ht
  obtain ⟨T, hT⟩ := exists_represents_of_run hfree ht
  refine ⟨T, hT, ?_⟩
  rw [hT.root]
  constructor
  · intro hsound hhides
    have hne : T ≠ .empty := by
      rintro rfl
      exact hhides
    have hinj : Set.InjOn o.hash
        (hashedStrings o t._db ∪ { b | b ∈ o.enc T :: referred o T }) := by
      rw [hT.union_referred hne]
      exact hfree'.inj
    have haccepted := zeroElements_accepted (hT.proofFree hfree' hinj) hT.live hhides
    obtain ⟨-, -, k, v, hk, hlt⟩ := rightOf_of_hidesRight hhides
    exact lt_asymm hlt (hsound _ _ hinj haccepted k v hk)
  · intro hhides proof b hinj hverify k v hk
    exact zeroElements_sound (hT.proofFree hfree' hinj) hT.live hhides hverify hk

/-! ## A leaf that hides -/

/-- The trie of one leaf. -/
def oneLeafTrie : MerklePatriciaTrie :=
  match (MerklePatriciaTrie.create prefixKeysOpts).put prefixKeysOpts [0x12] [1] false with
  | .ok t => t
  | .error _ => .create prefixKeysOpts

theorem run_oneLeaf :
    run (MerklePatriciaTrie.step prefixKeysOpts) (.create prefixKeysOpts)
      [.put [0x12] [1] false] = .ok oneLeafTrie := by
  decide +kernel

theorem oneLeaf_free (pre : List TrieOp) (t : MerklePatriciaTrie)
    (hpre : pre <+: [.put [0x12] [1] false])
    (ht : run (MerklePatriciaTrie.step prefixKeysOpts) (.create prefixKeysOpts) pre = .ok t) :
    CollisionFree prefixKeysOpts t._db :=
  prefixKeys_free pre t (hpre.trans ⟨_, rfl⟩) ht

/-- The equivalence for a key before the only one. -/
theorem zero_elements_sound_iff_oneLeaf :
    ∃ T, Represents prefixKeysOpts oneLeafTrie T ∧
      ((∀ proof b, Set.InjOn prefixKeysOpts.hash
            (hashedStrings prefixKeysOpts oneLeafTrie._db ∪ { b | b ∈ proof }) →
          Range.verifyMerkleRangeProof oneLeafTrie._root (some [0x11]) none [] [] (some proof)
            prefixKeysOpts.useKeyHashingFunction = .ok b →
          ∀ k v, T.lookup k = some v → k < bytesToNibbles [0x11]) ↔
        ¬ HidesRight T (bytesToNibbles [0x11])) :=
  zero_elements_sound_iff [.put [0x12] [1] false] oneLeaf_free run_oneLeaf [0x11]

/-- **A proof that nothing follows, though a key does**: the only leaf is
not on the key's path, and `hasRightElement` does not look at its own. -/
theorem zeroElements_of_oneLeaf :
    ¬ ∀ (o : MPTOpts) (ops : List TrieOp) (t : MerklePatriciaTrie),
      (∀ pre t, pre <+: ops → run (MerklePatriciaTrie.step o) (.create o) pre = .ok t →
        CollisionFree o t._db) →
      run (MerklePatriciaTrie.step o) (.create o) ops = .ok t →
      ∀ firstKey proof b, (∀ op ∈ ops, op.key.length = firstKey.length) →
        Set.InjOn o.hash (hashedStrings o t._db ∪ { b | b ∈ proof }) →
        Range.verifyMerkleRangeProof t._root (some firstKey) none [] [] (some proof)
          o.useKeyHashingFunction = .ok b →
        ∀ key, firstKey ≤ key → t.get o key false = .ok none := by
  intro h
  have hlogged : ∀ b ∈ ([[196, 130, 32, 18, 1]] : List Bytes), (prefixKeysOpts.dbKey
      (prefixKeysOpts.hash b), some b) ∈ oneLeafTrie._db.log := by
    decide +kernel
  have hsub : hashedStrings prefixKeysOpts oneLeafTrie._db ∪ { b | b ∈ [[196, 130, 32, 18, 1]] } =
      hashedStrings prefixKeysOpts oneLeafTrie._db :=
    Set.union_eq_left.2 fun b hb => .inr (.inr (hlogged b hb))
  have hinj : Set.InjOn prefixKeysOpts.hash
      (hashedStrings prefixKeysOpts oneLeafTrie._db ∪ { b | b ∈ [[196, 130, 32, 18, 1]] }) := by
    rw [hsub]
    exact (oneLeaf_free _ _ List.prefix_rfl run_oneLeaf).inj
  have haccepted : Range.verifyMerkleRangeProof oneLeafTrie._root (some [0x11]) none [] []
      (some [[196, 130, 32, 18, 1]]) prefixKeysOpts.useKeyHashingFunction = .ok false := by
    decide +kernel
  have hget : oneLeafTrie.get prefixKeysOpts [0x12] false = .ok (some (.bytes [1])) := by
    decide +kernel
  have hclaim := h prefixKeysOpts [.put [0x12] [1] false] oneLeafTrie oneLeaf_free run_oneLeaf
    [0x11] _ _ (by simp [TrieOp.key]) hinj haccepted [0x12] (by decide)
  rw [hget] at hclaim
  cases hclaim

end TsEthereum
