import TsEthereum.Mpt.Bindings

/-!
# Calls over a store that lacks nodes

A trie that prunes can lose nodes it still refers to. Its calls go on: a
`put` whose walk stops above a missing node writes its value there, and
links the nodes above by the end of the key instead of its start. Whatever
comes of it is a tree again, so every trie represents one
(`exists_represents_of_run`), and what is missing is all that can go wrong.
-/

namespace TsEthereum

open RadixTree RadixTree.Frames MPTOpts

variable {o : MPTOpts} {t : MerklePatriciaTrie} {T : Tree}

/-! ## A stack linked by another key -/

theorem relinkTree_framePlug {R : (Nibble → Tree) → Option Value → Prop} (hR : ShapeRule R)
    {f : Frame Nibble Value} {s last : Tree} (hs : (f.plug s).Shaped R) (hlast : last.Shaped R)
    (hne : last ≠ .empty) (hb : s.isBranch → last.isBranch) (key : Nibbles) :
    (relinkTree key last (f.plug s)).2.Shaped R ∧ (relinkTree key last (f.plug s)).2 ≠ .empty ∧
      ((f.plug s).isBranch → (relinkTree key last (f.plug s)).2.isBranch) := by
  cases f with
  | extension p =>
    exact ⟨⟨hs.1, hb hs.2.1, hlast⟩, by simp [Frame.plug, relinkTree], fun h => by cases h⟩
  | branch cs w i =>
    obtain ⟨hrule, hchildren⟩ := hs
    simp only [Frame.plug, relinkTree]
    cases key.getLast? with
    | none => exact ⟨⟨hrule, hchildren⟩, by simp, fun _ => rfl⟩
    | some j =>
      exact ⟨⟨hR.child hne hrule, forall_update (P := fun u => u.Shaped R) hlast hchildren⟩,
        by simp, fun _ => rfl⟩

/-- **Linked by any key, the nodes of a descent have the shape of a tree**,
by induction on the steps. -/
theorem relinked_shaped {R : (Nibble → Tree) → Option Value → Prop} (hR : ShapeRule R)
    {fs : List (Frame Nibble Value)} {s last : Tree} (hT : (plug fs s).Shaped R)
    (hlast : last.Shaped R) (hne : last ≠ .empty) (hb : s.isBranch → last.isBranch)
    {key : Nibbles} {root : Tree}
    (hroot : (last :: relinked key (ancestors fs s) last).getLast? = some root) :
    root.Shaped R ∧ ∀ u ∈ last :: relinked key (ancestors fs s) last, u ≠ .empty := by
  induction fs generalizing s last key with
  | nil =>
    obtain rfl : last = root := by simpa [relinked] using hroot
    exact ⟨hlast, by simpa [relinked] using hne⟩
  | cons f fs ih =>
    have hf : (f.plug s).Shaped R := Shaped.of_plug (show (plug fs (f.plug s)).Shaped R from hT)
    obtain ⟨hshape, hne', hb'⟩ := relinkTree_framePlug hR hf hlast hne hb key
    rw [ancestors_cons, relinked, List.getLast?_cons_cons] at hroot
    obtain ⟨hres, hall⟩ := ih (s := f.plug s) hT hshape hne' hb' hroot
    refine ⟨hres, ?_⟩
    rw [ancestors_cons, relinked]
    exact List.forall_mem_cons.2 ⟨hne, hall⟩

theorem below_relinkTree {P : Tree → Prop} {f : Frame Nibble Value} {s last : Tree}
    (hs : (f.plug s).Below P) (hlast : P last ∧ last.Below P) (key : Nibbles) :
    (relinkTree key last (f.plug s)).2.Below P := by
  cases f with
  | extension p => exact hlast
  | branch cs w i =>
    simp only [Frame.plug, relinkTree]
    cases key.getLast? with
    | none => exact hs
    | some j => exact forall_update (P := fun u => P u ∧ u.Below P) hlast hs

/-- **What the linked nodes refer to**: what the old ones did, and each
other. -/
theorem below_relinked {P : Tree → Prop} {fs : List (Frame Nibble Value)} {s last : Tree}
    (hT : (plug fs s).Below P) (hlast : last.Below P) {key : Nibbles} {root : Tree}
    (hall : ∀ u ∈ last :: relinked key (ancestors fs s) last, P u)
    (hroot : (last :: relinked key (ancestors fs s) last).getLast? = some root) :
    root.Below P := by
  induction fs generalizing s last key with
  | nil =>
    obtain rfl : last = root := by simpa [relinked] using hroot
    exact hlast
  | cons f fs ih =>
    have hf : (f.plug s).Below P := (below_plug.1 (show (plug fs (f.plug s)).Below P from hT)).2.1
    rw [ancestors_cons, relinked] at hall
    rw [ancestors_cons, relinked, List.getLast?_cons_cons] at hroot
    obtain ⟨hself, hall⟩ := List.forall_mem_cons.1 hall
    exact ih (s := f.plug s) hT (below_relinkTree hf ⟨hself, hlast⟩ key) hall hroot

/-! ## `put` above a missing node -/

theorem isBranch_insert_nil {f : Frame Nibble Value} {c : Tree} (hwf : (f.plug c).WellFormed)
    (v : Value) : ((f.plug c).insert [] v).isBranch := by
  cases f with
  | branch cs w i => rfl
  | extension p =>
    cases p with
    | nil => exact absurd rfl hwf.1
    | cons a p => simp [Frame.plug, RadixTree.insert, divide, RadixTree.extend, stem, RadixTree.graft,
        isBranch, List.dropPrefix?]

/-- The nodes a `put` of `key` writes when the walk stopped at `s`, above a
missing node. -/
def misplaced (key : Bytes) (fs : List (Frame Nibble Value)) (s : Tree) (v : Value) : List Tree :=
  s.insert [] v :: relinked (spliceEnd (bytesToNibbles key) (ownPath (s.insert [] v)).length)
    (ancestors fs s) (s.insert [] v)

theorem updateNode_missing (t : MerklePatriciaTrie) {f : Frame Nibble Value}
    {fs : List (Frame Nibble Value)} {c : Tree} (hlive : (plug (f :: fs) c).Live) (key : Bytes)
    (v : Value) :
    ∃ T' dels puts, T'.Live ∧ Writes o (plug (f :: fs) c) T' puts ∧
      (∀ op ∈ dels, ∃ key, op = .del key) ∧
      t.updateNode o key v [] (stackOf o fs (f.plug c)) = .ok (t.stored o T' (dels ++ puts)) := by
  have hT : (plug fs (f.plug c)).Live := hlive
  have hwf : (f.plug c).WellFormed := Live.wellFormed (Shaped.of_plug hT)
  have hs : Leaves (f.plug c) [] ∨ ((f.plug c).isBranch ∧ ([] : Nibbles) = []) := by
    cases f with
    | extension p => exact .inl (.extension fun h => hwf.1 (List.prefix_nil.1 h))
    | branch cs w i => exact .inr ⟨rfl, rfl⟩
  have hleaf : ∀ p w, f.plug c ≠ .leaf p w := by cases f <;> simp [Frame.plug]
  obtain ⟨gs, top, dels, puts, stack', hprep, hlink, heq⟩ := MerklePatriciaTrie.insertPrepared
    (o := o) t hs key v ((ancestors fs (f.plug c)).map o.node) fun p w h => absurd h (hleaf p w)
  -- without nibbles left there is a branch to put the value in, and nothing below it
  obtain rfl : gs = [] := by
    cases gs with
    | nil => rfl
    | cons g gs =>
      have hb : (plug (g :: gs) top).isBranch := by
        rw [hprep.tree]
        exact isBranch_insert_nil hwf v
      exact absurd (List.append_eq_nil_iff.1 hprep.key).1 (path_ne_nil hb)
  obtain rfl : stack' = [] := List.forall₂_nil_right_iff.1 hlink
  obtain rfl : top = (f.plug c).insert [] v := hprep.tree
  have hshape : ((f.plug c).insert [] v).Live := Shaped.insert liveRule (Shaped.of_plug hT) [] v
  have hstack : List.Forall₂ o.StandsFor ((ancestors fs (f.plug c)).map o.node)
      (ancestors fs (f.plug c)) := by
    refine List.forall₂_map_left_iff.2 (List.forall₂_same.2 fun u hu => ?_)
    exact .node (ne_empty_of_mem_ancestors hu)
  obtain ⟨root, hroot⟩ : ∃ root, (misplaced key fs (f.plug c) v).getLast? = some root :=
    ⟨_, List.getLast?_eq_some_getLast (List.cons_ne_nil _ _)⟩
  obtain ⟨hlive', hall⟩ := relinked_shaped liveRule hT hshape hprep.top_ne
    (fun _ => isBranch_insert_nil hwf v) hroot
  refine ⟨root, dels, puts ++ o.saveOps (misplaced key fs (f.plug c) v), hlive', ⟨?_, ?_, ?_⟩,
    fun op hop => ⟨_, (hprep.deletes op hop).2⟩, ?_⟩
  · intro op hop
    rcases List.mem_append.1 hop with hop | hop
    · exact hprep.stores op hop
    · exact stores_saveOps hall op hop
  · exact List.mem_append_right _ (putNode_getLast?_mem_saveOps hroot)
  · intro P hP hbelow
    have hplug : (plug fs (f.plug c)).Below P := hbelow
    obtain ⟨-, hs, -⟩ := below_plug.1 hplug
    have hcov : Covers o puts P := ⟨hP.small, fun u hu => hP.put u (List.mem_append_left _ hu)⟩
    obtain ⟨-, htop⟩ := hprep.below P hcov hs
    exact below_relinked hplug htop (fun u hu => hP.of_mem_saveOps hu) hroot
  · rw [stackOf, List.map_cons, heq]
    simp only [List.nil_append]
    rw [MerklePatriciaTrie.saveStack_eq t hprep.top_ne hstack _ _ hroot, ok_bind,
      List.append_assoc]
    rfl

/-! ## Every trie represents a tree -/

theorem deleteHashes_dels (stack : List MPTNode) :
    ∀ op ∈ MerklePatriciaTrie.deleteHashes o stack, ∃ key, op = .del key := by
  intro op hop
  obtain ⟨n, -, rfl⟩ := List.mem_map.1 hop
  exact ⟨_, rfl⟩

namespace Represents

/-- A walk in a trie that lacks nodes: its root is missing, or it ends in
one of the listed ways. -/
theorem findPath_ends (h : Represents o t T) (hfree : CollisionFree o t._db) (hne : T ≠ .empty)
    (key : Bytes) (throwIfMissing : Bool) :
    t.lookupNode o (.bytes t._root) = .error .missingNode ∨
      Ends o t throwIfMissing T (bytesToNibbles key) (t.findPath o key throwIfMissing) := by
  have hmem : o.enc T ∈ hashedStrings o t._db := .inr (.inr (h.rootLogged hne))
  have hroot := lookupNode_rootHash h.addressed hfree hne hmem
  rw [← h.root] at hroot
  split at hroot
  · exact .inl hroot
  · exact .inr (TsEthereum.findPath_ends hne h.live.wellFormed (h.readable hfree) hroot key)

theorem exists_get (h : Represents o t T) (hfree : CollisionFree o t._db) (hne : T ≠ .empty)
    (key : Bytes) : ∃ val, t.get o key false = .ok val := by
  rcases h.findPath_ends hfree hne (o.appliedKey key) false with hmiss | hends
  · refine ⟨none, ?_⟩
    unfold MerklePatriciaTrie.get
    rw [findPath_of_root_missing hmiss]
    rfl
  · rcases get_of_ends hends rfl with hget | ⟨-, -, -, -, -, -, -, -, hget⟩
    · exact ⟨_, hget⟩
    · exact ⟨none, hget⟩

theorem exists_of_updateNode (h : Represents o t T) {key : Bytes} {p : Path}
    (hends : Ends o t false T (bytesToNibbles key) (.ok p)) (v : Value) {t' : MerklePatriciaTrie}
    (ht' : t.updateNode o key v p.remaining p.stack = .ok t') : ∃ T', Represents o t' T' := by
  have hwhole (hw : WalkEnds o T (bytesToNibbles key) p) : ∃ T', Represents o t' T' := by
    obtain ⟨dels, puts, hwrites, hdels, heq⟩ := updateNode_of_walkEnds (t := t) hw v
    cases heq.symm.trans ht'
    exact ⟨_, h.stored hwrites (Shaped.insert liveRule h.live _ v) fun op hop =>
      have ⟨s, hs⟩ := (hdels op hop).2
      ⟨_, hs⟩⟩
  generalize hx : Except.ok p = x at hends
  cases hends with
  | leaf fs r w hT hK =>
    cases hx
    exact hwhole (.found fs (.leaf r w) r hT hK (.inl ⟨w, rfl⟩))
  | branch fs cs w hT hK =>
    cases hx
    exact hwhole (.found fs (.branch cs w) [] hT (by rw [hK, List.append_nil]) (.inr ⟨rfl, rfl⟩))
  | off fs s r hT hK hr =>
    cases hx
    exact hwhole (.off fs s r hT hK hr)
  | missing f fs c r hT hK hc hmiss _ =>
    cases hx
    subst hT
    obtain ⟨T', dels, puts, hlive, hwrites, hdels, heq⟩ := updateNode_missing t h.live key v
    cases heq.symm.trans ht'
    exact ⟨T', h.stored hwrites hlive hdels⟩
  | thrown => cases hx

theorem exists_of_put (h : Represents o t T) (hfree : CollisionFree o t._db) {key : Bytes}
    (hroot : ¬ (o.useRootPersistence = true ∧ key = ROOT_DB_KEY)) (v : Value)
    {skipKeyTransform : Bool} {t' : MerklePatriciaTrie}
    (ht' : t.put o key v skipKeyTransform = .ok t') : ∃ T', Represents o t' T' := by
  rcases eq_or_ne T .empty with rfl | hne
  · obtain ⟨u, hu, hrep⟩ := h.createInitialNode (o.callKey key skipKeyTransform) v
    rw [put_empty hroot v skipKeyTransform ((h.root_eq_empty_iff hfree).2 rfl), hu] at ht'
    cases ht'
    exact ⟨_, hrep.persistRoot⟩
  · have hnempty : t._root ≠ o.EMPTY_TRIE_ROOT := fun he => hne ((h.root_eq_empty_iff hfree).1 he)
    obtain ⟨val, hget⟩ := h.exists_get hfree hne key
    rcases h.findPath_ends hfree hne (o.callKey key skipKeyTransform) false with hmiss | hends
    · have hp : t.findPath o (o.callKey key skipKeyTransform) false = .ok ⟨none, [], []⟩ :=
        findPath_of_root_missing hmiss _
      rw [put_eq hroot v skipKeyTransform hnempty hp hget] at ht'
      cases ht'
    · cases hp : t.findPath o (o.callKey key skipKeyTransform) false with
      | error e =>
        rw [hp] at hends
        cases hends with
        | thrown f fs c r hT hK hc hmiss hthrow => cases hthrow
      | ok p =>
        rw [hp] at hends
        rw [put_eq hroot v skipKeyTransform hnempty hp hget] at ht'
        obtain ⟨u, hu, ht'⟩ := bind_eq_ok.1 ht'
        obtain ⟨T', hT'⟩ := h.exists_of_updateNode hends v hu
        cases ht'
        refine ⟨T', (hT'.deleted fun op hop => ?_).persistRoot⟩
        split at hop
        · exact deleteHashes_dels p.stack op hop
        · cases hop

theorem exists_of_deleteNode (h : Represents o t T) (hfree : CollisionFree o t._db)
    {fs : List (Frame Nibble Value)} {s : Tree} {r : Nibbles} (hT : T = plug fs s)
    (hs : FoundAt s r) {key : Bytes} (hK : bytesToNibbles key = path fs ++ r)
    {t' : MerklePatriciaTrie} (ht' : t.deleteNode o key (stackOf o fs s) = .ok t') :
    ∃ T', Represents o t' T' := by
  subst hT
  cases fs with
  | nil =>
    cases (MerklePatriciaTrie.deleteNode_root t key (o.node s)).symm.trans ht'
    exact ⟨.empty, h.emptied⟩
  | cons f fs =>
    have hread : ∀ j, childList (childrenLeft (f :: fs) s) = [j] →
        t.lookupNode o (o.ref (childrenLeft (f :: fs) s j)) =
          .ok (o.node (childrenLeft (f :: fs) s j)) := by
      intro j hj
      have hne := (childList_eq_singleton hj).1
      obtain ⟨n, hn⟩ := MerklePatriciaTrie.read_of_deleteNode t hs hK ht' hj
      rcases of_below_childrenLeft (h.readable hfree) hs hne hne with hok | hmiss
      · exact hok
      · rw [hmiss] at hn
        cases hn
    obtain ⟨dels, puts, hwrites, hdels, heq⟩ :=
      MerklePatriciaTrie.deleteNode_removedAt t h.live.wellFormed hs hK hread
    cases heq.symm.trans ht'
    refine ⟨_, h.stored hwrites (removedAt_live h.live hs) fun op hop => ?_⟩
    exact del_of_deleteNode (hdels op hop).2

theorem exists_of_del (h : Represents o t T) (hfree : CollisionFree o t._db) {key : Bytes}
    {skipKeyTransform : Bool} {t' : MerklePatriciaTrie}
    (ht' : t.del o key skipKeyTransform = .ok t') : ∃ T', Represents o t' T' := by
  have hfound {fs : List (Frame Nibble Value)} {s : Tree} {r : Nibbles} (hT : T = plug fs s)
      (hs : FoundAt s r) (hK : bytesToNibbles (o.callKey key skipKeyTransform) = path fs ++ r)
      (hp : t.findPath o (o.callKey key skipKeyTransform) false =
        .ok ⟨some (o.node s), [], stackOf o fs s⟩) : ∃ T', Represents o t' T' := by
    rw [del_eq, hp, ok_bind] at ht'
    obtain ⟨u, hu, ht'⟩ := bind_eq_ok.1 ht'
    obtain ⟨T', hT'⟩ := h.exists_of_deleteNode hfree hT hs hK hu
    cases ht'
    refine ⟨T', Represents.persistRoot ?_⟩
    split
    · exact hT'.deleted (deleteHashes_dels _)
    · exact hT'
  have hnone {p : Path} (hp : t.findPath o (o.callKey key skipKeyTransform) false = .ok p)
      (hnode : p.node = none) : ∃ T', Represents o t' T' := by
    rw [del_eq, hp, ok_bind, hnode] at ht'
    cases ht'
    exact ⟨T, h.persistRoot⟩
  rcases eq_or_ne T .empty with rfl | hne
  · exact hnone (findPath_of_root_missing (h.lookup_root_empty hfree) _) rfl
  · rcases h.findPath_ends hfree hne (o.callKey key skipKeyTransform) false with hmiss | hends
    · exact hnone (findPath_of_root_missing hmiss _) rfl
    · generalize hx : t.findPath o (o.callKey key skipKeyTransform) false = x at hends
      cases hends with
      | leaf fs r v hT hK => exact hfound hT (.inl ⟨v, rfl⟩) hK hx
      | branch fs cs v hT hK =>
        exact hfound hT (.inr ⟨rfl, rfl⟩) (by rw [hK, List.append_nil]) hx
      | off fs s r hT hK hr => exact hnone hx rfl
      | missing f fs c r hT hK hc hmiss hthrow => exact hnone hx rfl
      | thrown f fs c r hT hK hc hmiss hthrow => cases hthrow

theorem exists_of_step (h : Represents o t T) (hfree : CollisionFree o t._db) {op : TrieOp}
    {t' : MerklePatriciaTrie} (ht' : t.step o op = .ok t') : ∃ T', Represents o t' T' := by
  cases op with
  | del key skip => exact h.exists_of_del hfree ht'
  | put key value skip =>
    by_cases hroot : o.useRootPersistence = true ∧ key = ROOT_DB_KEY
    · rw [step_rootKey hroot] at ht'
      cases ht'
    · rcases eq_or_ne value [] with rfl | hne
      · have hdel : t.step o (.put key [] skip) = t.del o key false := if_neg hroot
        rw [hdel] at ht'
        exact h.exists_of_del hfree ht'
      · exact h.exists_of_put hfree hroot ⟨value, hne⟩ ht'

end Represents

theorem exists_represents_of_run {ops : List TrieOp}
    (hfree : ∀ pre t, pre <+: ops → run (MerklePatriciaTrie.step o) (.create o) pre = .ok t →
      CollisionFree o t._db)
    (ht : run (MerklePatriciaTrie.step o) (.create o) ops = .ok t) : ∃ T, Represents o t T := by
  induction ops using List.reverseRecOn generalizing t with
  | nil =>
    cases ht
    exact ⟨.empty, represents_create⟩
  | append_singleton ops op ih =>
    have hpre : ops <+: ops ++ [op] := List.prefix_append ops [op]
    rw [run_concat] at ht
    obtain ⟨u, hu, hop⟩ := bind_eq_ok.1 ht
    obtain ⟨T, hT⟩ := ih (fun pre u hpre' => hfree pre u (hpre'.trans hpre)) hu
    exact hT.exists_of_step (hfree ops u hpre hu) hop

/-! ## A trie that lacks a node -/

/-- The digest of a leaf two keys below share. -/
def sharedLeafDigest : Bytes :=
  [117, 145, 104, 89, 196, 105, 227, 239, 83, 71, 7, 178, 47, 215, 125, 216, 135, 165, 61, 197, 49,
   188, 106, 60, 29, 164, 248, 134, 90, 255, 38, 199]

/-- A trie that prunes, over the hash with these digests: of the empty root,
of the first root, of the shared leaf, and of the two roots after. -/
def sharedLeafOpts : MPTOpts where
  useKeyHashing := false
  useKeyHashingFunction := .ofDigests
    [([0x80],
        [86, 232, 31, 23, 27, 204, 85, 166, 255, 131, 69, 230, 146, 192, 248, 110, 91, 72, 224, 27,
         153, 108, 173, 192, 1, 98, 47, 181, 227, 99, 180, 33]),
      ([229, 131, 32, 0, 170, 160] ++ List.replicate 32 7,
        [215, 9, 58, 119, 46, 115, 181, 95, 59, 30, 209, 74, 68, 84, 67, 38, 242, 232, 33, 29, 190,
         152, 85, 122, 206, 51, 196, 241, 21, 196, 169, 154]),
      ([228, 130, 48, 170, 160] ++ List.replicate 32 7, sharedLeafDigest),
      ([248, 81, 160] ++ sharedLeafDigest ++ [160] ++ sharedLeafDigest ++ List.replicate 15 128,
        [162, 158, 254, 110, 173, 33, 254, 132, 128, 194, 230, 184, 27, 116, 219, 195, 3, 63, 170,
         151, 58, 72, 158, 32, 111, 61, 130, 26, 94, 26, 42, 70]),
      ([245, 196, 130, 48, 170, 1, 160] ++ sharedLeafDigest ++ List.replicate 15 128,
        [165, 137, 102, 108, 86, 90, 150, 151, 75, 131, 180, 211, 237, 243, 30, 175, 14, 185, 204,
         24, 143, 223, 138, 74, 170, 174, 243, 138, 134, 78, 63, 220])]
    (by decide)
  keyPrefix := none
  useRootPersistence := false
  useNodePruning := true

/-- Two keys with one value, and another value for the first. -/
def sharedLeafOps : List TrieOp :=
  [.put [0x00, 0xaa] (List.replicate 32 7) false, .put [0x10, 0xaa] (List.replicate 32 7) false,
    .put [0x00, 0xaa] [1] false]

/-- The trie they leave. -/
def sharedLeafTrie : MerklePatriciaTrie :=
  match run (MerklePatriciaTrie.step sharedLeafOpts) (.create sharedLeafOpts) sharedLeafOps with
  | .ok t => t
  | .error _ => .create sharedLeafOpts

theorem run_sharedLeaf :
    run (MerklePatriciaTrie.step sharedLeafOpts) (.create sharedLeafOpts) sharedLeafOps =
      .ok sharedLeafTrie := by
  decide +kernel

theorem sharedLeaf_free (pre : List TrieOp) (t : MerklePatriciaTrie) (hpre : pre <+: sharedLeafOps)
    (ht : run (MerklePatriciaTrie.step sharedLeafOpts) (.create sharedLeafOpts) pre = .ok t) :
    CollisionFree sharedLeafOpts t._db :=
  .of_inits (by decide +kernel) hpre ht

end TsEthereum
