import TsEthereum.Mpt.Bindings

/-!
# The root depends on the bindings only

Over keys of one length no branch has a value: a key that ended at it would
be shorter than those below. Deletions are then right and leave the tree
canonical, so the tree, and with it the root, is determined by what the
calls bound.
-/

namespace TsEthereum

open RadixTree RadixTree.Frames MPTOpts

/-! ## Deleting from a canonical tree -/

/-- **A deletion from a canonical tree over keys of one length** is right,
and leaves a canonical tree. -/
theorem Removal.canonical {T T' : Tree} {K : Nibbles} (h : Removal T K T') (hT : T.Canonical)
    (hlen : ∀ k v, T.lookup k = some v → k.length = K.length) :
    T'.Canonical ∧ T'.lookup = Function.update T.lookup K none := by
  have hright : ¬ Lossy T K → T'.lookup = Function.update T.lookup K none :=
    (h.lookup_iff hT.live).2
  cases h with
  | off fs s r hT' hK hr =>
    refine ⟨hT, hright ?_⟩
    rw [hT', hK]
    exact not_lossy_of_leaves hr
  | empty hT' => exact ⟨hT, hright (by rw [hT']; exact id)⟩
  | found fs s r hT' hK hs =>
    subst hT' hK
    rcases hs with ⟨v, rfl⟩ | ⟨hb, rfl⟩
    · cases fs with
      | nil => exact ⟨trivial, hright id⟩
      | cons f fs =>
        cases f with
        | extension p => cases Shaped.isBranch_of_plug hT
        | branch cs w i =>
          -- a value of the branch would be under a key shorter than its leaf's
          have hw : w = none := by
            by_contra hne
            obtain ⟨x, rfl⟩ := Option.ne_none_iff_exists'.1 hne
            have hat := lookup_plug_append fs ((Frame.branch cs (some x) i).plug (.leaf r v)) []
            rw [List.append_nil] at hat
            have hshort := hlen (path fs) x hat
            simp [Frame.path] at hshort
          subst hw
          refine ⟨removedAt_canonical hT, hright ?_⟩
          rw [lossy_plug]
          simp [Frame.plug, Frame.path, LossyBelow]
    · -- a branch has a child, and below it a longer key
      cases s with
      | branch cs w =>
        have hbranch : (branch cs w).Canonical := Shaped.of_plug hT
        obtain ⟨i, hi⟩ : ∃ i, cs i ≠ .empty := by
          rcases exists_two_ways hbranch.1 with ⟨-, i, hi⟩ | ⟨i, -, -, hi, -⟩ <;> exact ⟨i, hi⟩
        obtain ⟨k, v, hk⟩ := Canonical.exists_lookup (hbranch.2 i) hi
        have hat := lookup_plug_append fs (.branch cs w) (i :: k)
        rw [lookup_branch_cons, hk] at hat
        have hlong := hlen _ _ hat
        simp at hlong
      | _ => cases hb

/-! ## Runs over keys of one length -/

/-- The key a call counts for. -/
def MPTOpts.keyOf (o : MPTOpts) (op : TrieOp) : Bytes := o.callKey op.key op.skipKeyTransform

/-- A trie that never deleted a node, with a canonical tree of the bindings
`m`, all under keys of `n` bytes. -/
structure FollowsCanonical (o : MPTOpts) (t : MerklePatriciaTrie) (m : Bytes → Option Bytes)
    (n : ℕ) (T : Tree) : Prop where
  represents : Represents o t T
  kept : Kept t._db
  canonical : T.Canonical
  binds : Binds T.lookup m
  length : ∀ k, (m k).isSome → k.length = n

variable {o : MPTOpts} {t : MerklePatriciaTrie} {T : Tree} {m : Bytes → Option Bytes} {n : ℕ}

theorem followsCanonical_create :
    FollowsCanonical o (.create o) (fun _ => none) n .empty :=
  ⟨represents_create, fun _ => List.not_mem_nil, trivial, .empty, fun _ h => by cases h⟩

theorem FollowsCanonical.length_lookup (h : FollowsCanonical o t m n T) {k : Nibbles} {v : Value}
    (hk : T.lookup k = some v) : k.length = 2 * n := by
  obtain ⟨key, rfl⟩ := h.binds.bytes k v hk
  have hm := h.binds.agree key
  rw [hk] at hm
  rw [length_bytesToNibbles, h.length key (by rw [← hm]; rfl)]

/-- **A call under a key of the length** leaves a canonical tree of its
bindings. -/
theorem FollowsCanonical.step (h : FollowsCanonical o t m n T) (hfree : CollisionFree o t._db)
    (hprune : o.useNodePruning = false) {op : TrieOp} (hop : op.Allowed o)
    (hlen : (o.keyOf op).length = n) :
    ∃ t' T', t.step o op = .ok t' ∧
      FollowsCanonical o t' (Function.update m (o.keyOf op) op.bound) n T' := by
  obtain ⟨t', T', ht', hkept', hT', hchange⟩ := h.represents.step hfree h.kept hprune hop
  have hlength : ∀ k, (Function.update m (o.keyOf op) op.bound k).isSome → k.length = n := by
    intro k hk
    rcases eq_or_ne k (o.keyOf op) with rfl | hne
    · exact hlen
    · rw [Function.update_of_ne hne] at hk
      exact h.length k hk
  refine ⟨t', T', ht', ?_⟩
  cases op with
  | put key value skip =>
    obtain ⟨v, rfl, rfl⟩ := hchange
    refine ⟨hT', hkept', Shaped.insert canonicalRule h.canonical _ v, ?_, hlength⟩
    rw [lookup_insert]
    exact h.binds.update (o.callKey key skip) (some v)
  | del key skip =>
    have hK : (bytesToNibbles (o.callKey key skip)).length = 2 * n := by
      rw [length_bytesToNibbles]
      exact congrArg (2 * ·) hlen
    obtain ⟨hcanonical, hlookup⟩ := Removal.canonical hchange h.canonical fun k v hk => by
      rw [hK, h.length_lookup hk]
    refine ⟨hT', hkept', hcanonical, ?_, hlength⟩
    rw [hlookup]
    exact h.binds.update (o.callKey key skip) none

/-- **A run under keys of one length** ends in a canonical tree of its
bindings. -/
theorem exists_followsCanonical (hprune : o.useNodePruning = false) (ops : List TrieOp)
    (hallowed : ∀ op ∈ ops, op.Allowed o) (hlen : ∀ op ∈ ops, (o.keyOf op).length = n)
    (hfree : ∀ pre t, pre <+: ops → run (MerklePatriciaTrie.step o) (.create o) pre = .ok t →
      CollisionFree o t._db) :
    ∃ t T, run (MerklePatriciaTrie.step o) (.create o) ops = .ok t ∧
      FollowsCanonical o t (bindings o.keyOf ops) n T := by
  induction ops using List.reverseRecOn with
  | nil => exact ⟨_, .empty, rfl, followsCanonical_create⟩
  | append_singleton ops op ih =>
    have hpre : ops <+: ops ++ [op] := List.prefix_append ops [op]
    obtain ⟨t, T, ht, hfollow⟩ := ih (fun op' hop => hallowed op' (hpre.subset hop))
      (fun op' hop => hlen op' (hpre.subset hop)) fun pre u hu => hfree pre u (hu.trans hpre)
    obtain ⟨t', T', ht', hfollow'⟩ := hfollow.step (hfree ops t hpre ht) hprune
      (hallowed op (by simp)) (hlen op (by simp))
    rw [← bindings_concat] at hfollow'
    exact ⟨t', T', by rw [run_concat, ht, ok_bind, ht'], hfollow'⟩

/-- Two runs that leave the same bindings, under the keys as the trie stores
them, leave the same root. -/
theorem root_eq_of_bindings_keyOf (hprune : o.useNodePruning = false) {ops ops' : List TrieOp}
    (hallowed : ∀ op ∈ ops ++ ops', op.Allowed o)
    (hlen : ∀ op ∈ ops ++ ops', (o.keyOf op).length = n)
    (hfree : ∀ pre t, pre <+: ops ∨ pre <+: ops' →
      run (MerklePatriciaTrie.step o) (.create o) pre = .ok t → CollisionFree o t._db)
    (hm : bindings o.keyOf ops = bindings o.keyOf ops') :
    ∃ t t', run (MerklePatriciaTrie.step o) (.create o) ops = .ok t ∧
      run (MerklePatriciaTrie.step o) (.create o) ops' = .ok t' ∧ t._root = t'._root := by
  obtain ⟨t, T, ht, hT⟩ := exists_followsCanonical (n := n) hprune ops
    (fun op hop => hallowed op (List.mem_append_left _ hop))
    (fun op hop => hlen op (List.mem_append_left _ hop)) fun pre u hu => hfree pre u (.inl hu)
  obtain ⟨t', T', ht', hT'⟩ := exists_followsCanonical (n := n) hprune ops'
    (fun op hop => hallowed op (List.mem_append_right _ hop))
    (fun op hop => hlen op (List.mem_append_right _ hop)) fun pre u hu => hfree pre u (.inr hu)
  have hlookup : T.lookup = T'.lookup := hT.binds.unique (hm ▸ hT'.binds)
  have htree : T = T' := hT.canonical.eq_of_lookup hT'.canonical hlookup
  exact ⟨t, t', ht, ht', by rw [hT.represents.root, hT'.represents.root, htree]⟩

/-! ## Under the keys of the calls -/

theorem bindings_congr {keyOf keyOf' : TrieOp → Bytes} {ops : List TrieOp} {k k' : Bytes}
    (h : ∀ op ∈ ops, keyOf op = k ↔ keyOf' op = k') :
    bindings keyOf ops k = bindings keyOf' ops k' := by
  induction ops using List.reverseRecOn with
  | nil => rfl
  | append_singleton ops op ih =>
    have hop := h op (by simp)
    rw [bindings_concat, bindings_concat, Function.update_apply, Function.update_apply,
      ih fun op' hop' => h op' (List.mem_append_left _ hop')]
    simp only [eq_comm (a := k), eq_comm (a := k'), hop]

theorem bindings_eq_none {keyOf : TrieOp → Bytes} {ops : List TrieOp} {k : Bytes}
    (h : ∀ op ∈ ops, keyOf op ≠ k) : bindings keyOf ops k = none := by
  induction ops using List.reverseRecOn with
  | nil => rfl
  | append_singleton ops op ih =>
    rw [bindings_concat, Function.update_of_ne (h op (by simp)).symm]
    exact ih fun op' hop' => h op' (List.mem_append_left _ hop')

theorem bindings_comp {f : Bytes → Bytes} {keyOf : TrieOp → Bytes} {ops ops' : List TrieOp}
    (hkey : ∀ op ∈ ops ++ ops', keyOf op = f op.key)
    (hinj : Set.InjOn f { key | ∃ op ∈ ops ++ ops', op.key = key })
    (hm : bindings TrieOp.key ops = bindings TrieOp.key ops') :
    bindings keyOf ops = bindings keyOf ops' := by
  funext x
  by_cases hx : ∃ op ∈ ops ++ ops', f op.key = x
  · obtain ⟨op, hop, rfl⟩ := hx
    have hcongr {l : List TrieOp} (hl : ∀ op ∈ l, op ∈ ops ++ ops') :
        bindings keyOf l (f op.key) = bindings TrieOp.key l op.key := by
      refine bindings_congr fun op' hop' => ?_
      rw [hkey op' (hl op' hop')]
      exact hinj.eq_iff ⟨op', hl op' hop', rfl⟩ ⟨op, hop, rfl⟩
    rw [hcongr fun _ => List.mem_append_left _, hcongr fun _ => List.mem_append_right _, hm]
  · have hne {l : List TrieOp} (hl : ∀ op ∈ l, op ∈ ops ++ ops') :
        ∀ op ∈ l, keyOf op ≠ x := fun op hop he =>
      hx ⟨op, hl op hop, by rw [← hkey op (hl op hop), he]⟩
    rw [bindings_eq_none (hne fun _ => List.mem_append_left _),
      bindings_eq_none (hne fun _ => List.mem_append_right _)]

/-- **The root depends on the bindings only.** For every trie that does not
prune and any two sequences of calls under keys of one length, with values
that are not empty: both return, and when they leave the same bindings they
leave the same root. Where keys are hashed, the calls are all with the same
flag, and no two of the keys hashed collide. -/
theorem root_eq_of_bindings (o : MPTOpts) (hprune : o.useNodePruning = false)
    (ops ops' : List TrieOp) (n : ℕ) (hlen : ∀ op ∈ ops ++ ops', op.key.length = n)
    (hallowed : ∀ op ∈ ops ++ ops', op.Allowed o)
    (hhashed : o.useKeyHashing = true →
      Set.InjOn o.hash { key | ∃ op ∈ ops ++ ops', op.key = key } ∧
      ∃ skip, ∀ op ∈ ops ++ ops', op.skipKeyTransform = skip)
    (hfree : ∀ pre t, pre <+: ops ∨ pre <+: ops' →
      run (MerklePatriciaTrie.step o) (.create o) pre = .ok t → CollisionFree o t._db)
    (hm : bindings TrieOp.key ops = bindings TrieOp.key ops') :
    ∃ t t', run (MerklePatriciaTrie.step o) (.create o) ops = .ok t ∧
      run (MerklePatriciaTrie.step o) (.create o) ops' = .ok t' ∧ t._root = t'._root := by
  -- the keys are used as they are, or their digests
  have hplain (hkey : ∀ op ∈ ops ++ ops', o.keyOf op = op.key) :
      ∃ t t', run (MerklePatriciaTrie.step o) (.create o) ops = .ok t ∧
        run (MerklePatriciaTrie.step o) (.create o) ops' = .ok t' ∧ t._root = t'._root :=
    root_eq_of_bindings_keyOf hprune hallowed (fun op hop => by rw [hkey op hop, hlen op hop])
      hfree (bindings_comp (f := id) hkey Function.injective_id.injOn hm)
  by_cases hk : o.useKeyHashing = true
  · obtain ⟨hinj, skip, hskip⟩ := hhashed hk
    cases skip with
    | true =>
      refine hplain fun op hop => ?_
      rw [keyOf, callKey, hskip op hop, if_pos rfl]
    | false =>
      have hkey : ∀ op ∈ ops ++ ops', o.keyOf op = o.hash op.key := fun op hop => by
        rw [keyOf, callKey, hskip op hop, if_neg (by simp), appliedKey, if_pos hk]
      exact root_eq_of_bindings_keyOf hprune hallowed
        (fun op hop => by rw [hkey op hop, length_hash]) hfree (bindings_comp hkey hinj hm)
  · refine hplain fun op hop => ?_
    rw [keyOf, callKey, appliedKey, if_neg hk, ite_self]

/-! ## Two orders -/

/-- The digests of the roots below. -/
def twoOrdersOpts : MPTOpts := plainOpts [
    ([128],
      [86, 232, 31, 23, 27, 204, 85, 166, 255, 131, 69, 230, 146, 192, 248, 110, 91, 72, 224, 27,
        153, 108, 173, 192, 1, 98, 47, 181, 227, 99, 180, 33]),
    ([196, 130, 32, 18, 1],
      [45, 227, 50, 83, 140, 37, 89, 70, 237, 32, 4, 212, 255, 215, 7, 216, 149, 43, 254, 40,
        189, 106, 62, 93, 197, 104, 11, 99, 164, 152, 246, 44]),
    ([196, 130, 32, 19, 2],
      [59, 5, 193, 247, 20, 120, 37, 9, 141, 115, 37, 18, 220, 219, 172, 30, 18, 82, 74, 166, 47,
        112, 152, 27, 138, 147, 136, 245, 114, 142, 211, 241]),
    ([213, 128, 194, 51, 2, 194, 52, 3, 128, 128, 128, 128, 128, 128, 128, 128, 128, 128, 128,
      128, 128, 128],
      [94, 253, 238, 85, 143, 115, 74, 165, 199, 117, 112, 115, 127, 74, 44, 19, 92, 157, 207,
        139, 32, 187, 75, 23, 45, 116, 113, 151, 33, 41, 183, 202]),
    ([215, 17, 213, 128, 128, 194, 32, 1, 194, 32, 2, 128, 128, 128, 128, 128, 128, 128, 128, 128,
      128, 128, 128, 128],
      [218, 229, 77, 224, 6, 172, 122, 136, 76, 26, 210, 128, 72, 215, 119, 39, 74, 186, 30, 30,
        143, 35, 179, 19, 162, 177, 182, 48, 90, 59, 29, 116]),
    ([232, 128, 213, 128, 128, 194, 32, 1, 194, 32, 2, 128, 128, 128, 128, 128, 128, 128, 128,
      128, 128, 128, 128, 128, 194, 52, 3, 128, 128, 128, 128, 128, 128, 128, 128, 128, 128, 128,
      128, 128, 128],
      [53, 228, 236, 144, 147, 141, 222, 107, 66, 236, 119, 164, 69, 15, 39, 18, 182, 206, 199,
        14, 104, 140, 215, 67, 211, 129, 91, 124, 141, 113, 60, 122])] (by decide)

/-- Two keys put in order, and put in the other with a third that is deleted
again. -/
def inOrder : List TrieOp := [.put [0x12] [1] false, .put [0x13] [2] false]

/-- See `inOrder`. -/
def outOfOrder : List TrieOp :=
  [.put [0x13] [2] false, .put [0x24] [3] false, .put [0x12] [1] false, .del [0x24] false]

theorem bindings_inOrder : bindings TrieOp.key inOrder = bindings TrieOp.key outOfOrder := by
  funext key
  by_cases h12 : key = [0x12]
  · rw [h12]
    decide
  · by_cases h13 : key = [0x13]
    · rw [h13]
      decide
    · by_cases h24 : key = [0x24]
      · rw [h24]
        decide
      · have hne : ∀ op ∈ inOrder ++ outOfOrder, op.key ≠ key := by
          simp [inOrder, outOfOrder, TrieOp.key, Ne.symm h12, Ne.symm h13, Ne.symm h24]
        rw [bindings_eq_none fun op hop => hne op (List.mem_append_left _ hop),
          bindings_eq_none fun op hop => hne op (List.mem_append_right _ hop)]

/-- The two orders leave one root. -/
theorem root_eq_of_bindings_inOrder :
    ∃ t t', run (MerklePatriciaTrie.step twoOrdersOpts) (.create twoOrdersOpts) inOrder = .ok t ∧
      run (MerklePatriciaTrie.step twoOrdersOpts) (.create twoOrdersOpts) outOfOrder = .ok t' ∧
      t._root = t'._root := by
  refine root_eq_of_bindings twoOrdersOpts rfl inOrder outOfOrder 1 (by decide)
    (by decide) (fun h => by cases h) (fun pre t hpre ht => ?_) bindings_inOrder
  rcases hpre with hpre | hpre
  · exact .of_inits (by decide +kernel) hpre ht
  · exact .of_inits (by decide +kernel) hpre ht

end TsEthereum
