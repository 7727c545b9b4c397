import TsEthereum.Mpt.Remove
import TsEthereum.Mpt.Represent

/-!
# What the calls do to the tree

Over a store that is whole, `put` inserts a key in the tree and `del`
removes what its walk finds. Both leave the root and the store of the tree
they made.
-/

namespace TsEthereum

open RadixTree RadixTree.Frames MPTOpts

/-- The key a call works on. -/
def MPTOpts.callKey (o : MPTOpts) (key : Bytes) (skipKeyTransform : Bool) : Bytes :=
  if skipKeyTransform then key else o.appliedKey key

/-- **Every node of the tree is in the store.** -/
structure Whole (o : MPTOpts) (t : MerklePatriciaTrie) (T : Tree) : Prop where
  root : T ≠ .empty → t.lookupNode o (.bytes t._root) = .ok (o.node T)
  below : T.Below (Present o t)

variable {o : MPTOpts} {t : MerklePatriciaTrie} {T : Tree}

theorem Represents.whole (h : Represents o t T) (hfree : CollisionFree o t._db)
    (hkept : Kept t._db) : Whole o t T :=
  ⟨h.lookup_root hfree hkept, h.present hfree hkept⟩

/-! ## Walks over a whole store -/

/-- The ways a walk can end when no node is missing. -/
inductive WalkEnds (o : MPTOpts) (T : Tree) (K : Nibbles) : Path → Prop
  /-- At the key's leaf, or at a branch at its end. -/
  | found (fs : List (Frame Nibble Value)) (s : Tree) (r : Nibbles) (hT : T = plug fs s)
    (hK : K = path fs ++ r) (hs : FoundAt s r) : WalkEnds o T K ⟨some (o.node s), [], stackOf o fs s⟩
  /-- Where the key leaves the tree. -/
  | off (fs : List (Frame Nibble Value)) (s : Tree) (r : Nibbles) (hT : T = plug fs s)
    (hK : K = path fs ++ r) (hr : Leaves s r) : WalkEnds o T K ⟨none, r, stackOf o fs s⟩

namespace Whole

theorem findPath (hw : Whole o t T) (hlive : T.Live) (hne : T ≠ .empty) (key : Bytes)
    (throwIfMissing : Bool) : ∃ p, t.findPath o key throwIfMissing = .ok p ∧
      WalkEnds o T (bytesToNibbles key) p := by
  have hread : T.Below (Readable o t) := hw.below.mono fun _ h => h.readable
  have hends : Ends o t throwIfMissing T (bytesToNibbles key) (t.findPath o key throwIfMissing) :=
    findPath_ends hne hlive.wellFormed hread (hw.root hne) key
  -- a node the walk would miss is one of the tree's
  have hmissing {f : Frame Nibble Value} {fs : List (Frame Nibble Value)} {c : Tree}
      (hT : T = plug (f :: fs) c) (hc : c ≠ .empty)
      (hmiss : t.lookupNode o (o.ref c) = .error .missingNode) : False := by
    obtain ⟨-, -, hway⟩ := below_plug.1 (hT ▸ hw.below)
    have hpresent := hway c (by simp [ancestors_cons, List.dropLast_cons_of_ne_nil]) hc
    rw [hmiss] at hpresent
    cases hpresent
  generalize t.findPath o key throwIfMissing = x at hends ⊢
  cases hends with
  | leaf fs r v hT hK => exact ⟨_, rfl, .found fs (.leaf r v) r hT hK (.inl ⟨v, rfl⟩)⟩
  | branch fs cs v hT hK =>
    exact ⟨_, rfl, .found fs (.branch cs v) [] hT (by rw [hK, List.append_nil]) (.inr ⟨rfl, rfl⟩)⟩
  | off fs s r hT hK hr => exact ⟨_, rfl, .off fs s r hT hK hr⟩
  | missing f fs c r hT _ hc hmiss _ => exact (hmissing hT hc hmiss).elim
  | thrown f fs c r hT _ hc hmiss _ => exact (hmissing hT hc hmiss).elim

end Whole

theorem value_of_foundAt {s : Tree} {r : Nibbles} (hs : FoundAt s r) :
    (o.node s).value = got (s.lookup r) := by
  rcases hs with ⟨v, rfl⟩ | ⟨hb, rfl⟩
  · simp [got, MPTOpts.node, MPTNode.value]
  · cases s with
    | branch cs w =>
      rw [value_node_branch, lookup_branch_nil, got]
    | _ => cases hb

theorem Whole.get (hw : Whole o t T) (hlive : T.Live) (hne : T ≠ .empty) (key : Bytes)
    (throwIfMissing : Bool) :
    t.get o key throwIfMissing = .ok (got (T.lookup (bytesToNibbles (o.appliedKey key)))) := by
  unfold MerklePatriciaTrie.get
  obtain ⟨p, hp, hends⟩ := hw.findPath hlive hne (o.appliedKey key) throwIfMissing
  rw [hp, ok_bind]
  cases hends with
  | found fs s r hT hK hs =>
    rw [hT, hK, lookup_plug_append, ← value_of_foundAt hs]
    rfl
  | off fs s r hT hK hr =>
    rw [hT, hK, lookup_plug_append, hr.lookup]
    rfl

theorem Represents.get (h : Represents o t T) (hfree : CollisionFree o t._db) (hw : Whole o t T)
    (key : Bytes) :
    t.get o key false = .ok (got (T.lookup (bytesToNibbles (o.appliedKey key)))) := by
  rcases eq_or_ne T .empty with rfl | hne
  · unfold MerklePatriciaTrie.get
    rw [findPath_of_root_missing (h.lookup_root_empty hfree)]
    rfl
  · exact hw.get h.live hne key false

/-! ## `put` -/

theorem updateNode_of_walkEnds {key : Bytes} {p : Path}
    (hends : WalkEnds o T (bytesToNibbles key) p) (v : Value) :
    ∃ dels puts, Writes o T (T.insert (bytesToNibbles key) v) puts ∧
      (∀ op ∈ dels, o.useNodePruning = true ∧ ∃ s, op = .del (o.dbKey (o.rootHash s))) ∧
      t.updateNode o key v p.remaining p.stack =
        .ok (t.stored o (T.insert (bytesToNibbles key) v) (dels ++ puts)) := by
  have hinsert {fs : List (Frame Nibble Value)} {s : Tree} {r : Nibbles}
      (hs : Leaves s r ∨ (s.isBranch ∧ r = [])) (hT : T = plug fs s)
      (hK : bytesToNibbles key = path fs ++ r) :
      ∃ dels puts, Writes o T (T.insert (bytesToNibbles key) v) puts ∧
        (∀ op ∈ dels, o.useNodePruning = true ∧ ∃ s, op = .del (o.dbKey (o.rootHash s))) ∧
        t.updateNode o key v r (stackOf o fs s) =
          .ok (t.stored o (T.insert (bytesToNibbles key) v) (dels ++ puts)) := by
    obtain ⟨dels, puts, hwrites, hdels, heq⟩ :=
      MerklePatriciaTrie.updateNode_insert (o := o) t hs hK v
    rw [hT]
    exact ⟨dels, puts, hwrites, fun op hop => ⟨(hdels op hop).1, s, (hdels op hop).2⟩, heq⟩
  cases hends with
  | found fs s r hT hK hs =>
    rcases hs with ⟨w, rfl⟩ | ⟨hb, rfl⟩
    · obtain ⟨puts, hwrites, heq⟩ := MerklePatriciaTrie.updateNode_leaf (o := o) (w := w) t hK v
      rw [hT]
      exact ⟨[], puts, hwrites, by simp, heq⟩
    · exact hinsert (.inr ⟨hb, rfl⟩) hT hK
  | off fs s r hT hK hr => exact hinsert (.inl hr) hT hK

/-- `put` below a root is a walk, the update, and the pruning of the old
path, if any. -/
theorem put_eq {key : Bytes} (hroot : ¬ (o.useRootPersistence = true ∧ key = ROOT_DB_KEY))
    (v : Value) (skipKeyTransform : Bool) (hne : t._root ≠ o.EMPTY_TRIE_ROOT) {p : Path}
    (hp : t.findPath o (o.callKey key skipKeyTransform) false = .ok p)
    {val : Option NestedUint8Array} (hget : t.get o key false = .ok val) :
    t.put o key v skipKeyTransform =
      t.updateNode o (o.callKey key skipKeyTransform) v p.remaining p.stack >>= fun t' =>
        let ops := if o.useNodePruning = true ∧ val ≠ some (.bytes v) then
          MerklePatriciaTrie.deleteHashes o p.stack else []
        .ok (({ t' with _db := t'._db.batch ops } : MerklePatriciaTrie).persistRoot o) := by
  have hv : (v : Bytes).length ≠ 0 := fun h => v.2 (List.eq_nil_of_length_eq_zero h)
  unfold callKey at hp ⊢
  unfold MerklePatriciaTrie.put
  rw [if_neg hroot, if_neg hv]
  simp only [if_neg hne, hp, hget, ok_bind]
  by_cases hprune : o.useNodePruning
  · by_cases hval : val = some (.bytes v)
    · simp only [hprune, if_true, hval, true_and, ne_eq, not_true, if_false]
    · simp only [hprune, if_true, hval, if_false, true_and, ne_eq, not_false_eq_true]
  · simp only [hprune, if_false, Bool.false_eq_true, false_and]
    rfl

theorem put_empty {key : Bytes} (hroot : ¬ (o.useRootPersistence = true ∧ key = ROOT_DB_KEY))
    (v : Value) (skipKeyTransform : Bool) (hempty : t._root = o.EMPTY_TRIE_ROOT) :
    t.put o key v skipKeyTransform =
      t.createInitialNode o (o.callKey key skipKeyTransform) v >>= fun t' =>
        .ok (t'.persistRoot o) := by
  have hv : (v : Bytes).length ≠ 0 := fun h => v.2 (List.eq_nil_of_length_eq_zero h)
  unfold MerklePatriciaTrie.put
  rw [if_neg hroot, if_neg hv]
  simp only [if_pos hempty]
  rfl

theorem Represents.put (h : Represents o t T) (hfree : CollisionFree o t._db)
    (hkept : Kept t._db) (hprune : o.useNodePruning = false) {key : Bytes}
    (hroot : ¬ (o.useRootPersistence = true ∧ key = ROOT_DB_KEY)) (v : Value)
    (skipKeyTransform : Bool) :
    ∃ t', t.put o key v skipKeyTransform = .ok t' ∧ Kept t'._db ∧
      Represents o t' (T.insert (bytesToNibbles (o.callKey key skipKeyTransform)) v) := by
  have hw := h.whole hfree hkept
  rcases eq_or_ne T .empty with rfl | hne
  · obtain ⟨t', ht', hrep⟩ := h.createInitialNode (o.callKey key skipKeyTransform) v
    rw [put_empty hroot v skipKeyTransform ((h.root_eq_empty_iff hfree).2 rfl), ht', ok_bind]
    exact ⟨_, rfl, (hkept.createInitialNode ht').persistRoot, hrep.persistRoot⟩
  · obtain ⟨p, hp, hends⟩ := hw.findPath h.live hne (o.callKey key skipKeyTransform) false
    obtain ⟨dels, puts, hwrites, hdels, hupdate⟩ := updateNode_of_walkEnds (t := t) hends v
    have hnil : dels = [] := List.eq_nil_iff_forall_not_mem.2 fun op hop => by
      have hop := (hdels op hop).1
      rw [hprune] at hop
      cases hop
    have hnempty : t._root ≠ o.EMPTY_TRIE_ROOT := fun he => hne ((h.root_eq_empty_iff hfree).1 he)
    have hrep : Represents o (t.stored o _ ([] ++ puts)) _ :=
      h.stored hwrites (Shaped.insert liveRule h.live _ v) (by simp)
    have hstored := hkept.stored hwrites.stores
      (T.insert (bytesToNibbles (o.callKey key skipKeyTransform)) v)
    rw [put_eq hroot v skipKeyTransform hnempty hp (h.get hfree hw key), hupdate, hnil, ok_bind]
    simp only [hprune, Bool.false_eq_true, false_and, if_false]
    exact ⟨_, rfl, hstored.persistRoot, hrep.persistRoot⟩

/-! ## `del` -/

/-- **The tree after a deletion**: what the walk found is removed, or nothing
is. -/
inductive Removal (T : Tree) (K : Nibbles) : Tree → Prop
  | found (fs : List (Frame Nibble Value)) (s : Tree) (r : Nibbles) (hT : T = plug fs s)
    (hK : K = path fs ++ r) (hs : FoundAt s r) : Removal T K (removedAt fs s)
  | off (fs : List (Frame Nibble Value)) (s : Tree) (r : Nibbles) (hT : T = plug fs s)
    (hK : K = path fs ++ r) (hr : Leaves s r) : Removal T K T
  | empty (hT : T = .empty) : Removal T K T

theorem Removal.lookup_iff {K : Nibbles} {T' : Tree} (h : Removal T K T') (hlive : T.Live) :
    T'.lookup = Function.update T.lookup K none ↔ ¬ Lossy T K := by
  cases h with
  | found fs s r hT hK hs =>
    rw [hT] at hlive ⊢
    rw [hK]
    exact lookup_removedAt_iff hlive hs
  | off fs s r hT hK hr =>
    rw [hT, hK]
    refine iff_of_true (Function.update_eq_self_iff.2 ?_).symm (not_lossy_of_leaves hr)
    rw [lookup_plug_append, hr.lookup]
  | empty hT =>
    rw [hT]
    exact iff_of_true (Function.update_eq_self_iff.2 rfl).symm id

theorem of_below_childrenLeft {P : Tree → Prop} {f : Frame Nibble Value}
    {fs : List (Frame Nibble Value)} {s : Tree} {r : Nibbles} (h : (plug (f :: fs) s).Below P)
    (hs : FoundAt s r) {j : Nibble} (hj : childrenLeft (f :: fs) s j ≠ .empty) :
    P (childrenLeft (f :: fs) s j) := by
  obtain ⟨hside, hbelow, -⟩ := below_plug.1 h
  rcases hs with ⟨v, rfl⟩ | ⟨hb, rfl⟩
  · cases f with
    | extension p => exact absurd rfl hj
    | branch cs w i =>
      have hleft : childrenLeft (.branch cs w i :: fs) (.leaf r v) =
          Function.update cs i .empty := rfl
      rw [hleft] at hj ⊢
      rcases eq_or_ne j i with rfl | hji
      · simp at hj
      · rw [Function.update_of_ne hji]
        exact (hside _ List.mem_cons_self j hji).1
  · cases s with
    | branch cs w => exact (hbelow j).1
    | _ => cases hb

theorem del_of_deleteNode {s : Tree} {cs : Nibble → Tree} {op : BatchDBOp}
    (h : op = .del (o.dbKey (o.rootHash s)) ∨
      ∃ j, childList cs = [j] ∧ op = siblingDel o (cs j)) : ∃ key, op = .del key := by
  rcases h with rfl | ⟨j, -, rfl⟩
  · exact ⟨_, rfl⟩
  · unfold siblingDel
    split <;> exact ⟨_, rfl⟩

theorem deleteNode_of_foundAt {fs : List (Frame Nibble Value)} {s : Tree} {r : Nibbles}
    (hw : Whole o t (plug fs s)) (h : Represents o t (plug fs s)) (hs : FoundAt s r) {key : Bytes}
    (hK : bytesToNibbles key = path fs ++ r) :
    ∃ t', t.deleteNode o key (stackOf o fs s) = .ok t' ∧ Represents o t' (removedAt fs s) ∧
      (o.useNodePruning = false → Kept t._db → Kept t'._db) := by
  cases fs with
  | nil =>
    exact ⟨_, MerklePatriciaTrie.deleteNode_root t key (o.node s), h.emptied, fun _ hkept => hkept⟩
  | cons f fs =>
    have hread : ∀ j, childList (childrenLeft (f :: fs) s) = [j] →
        t.lookupNode o (o.ref (childrenLeft (f :: fs) s j)) =
          .ok (o.node (childrenLeft (f :: fs) s j)) := fun j hj =>
      have hne := (childList_eq_singleton hj).1
      of_below_childrenLeft hw.below hs hne hne
    obtain ⟨dels, puts, hwrites, hdels, heq⟩ :=
      MerklePatriciaTrie.deleteNode_removedAt t h.live.wellFormed hs hK hread
    refine ⟨_, heq, h.stored hwrites (removedAt_live h.live hs) fun op hop =>
      del_of_deleteNode (hdels op hop).2, fun hprune hkept => ?_⟩
    have hnil : dels = [] := List.eq_nil_iff_forall_not_mem.2 fun op hop => by
      have hop := (hdels op hop).1
      rw [hprune] at hop
      cases hop
    rw [hnil]
    exact hkept.stored hwrites.stores _

/-- `del` is a walk, the deletion of what it finds, and the pruning of the
old path. -/
theorem del_eq (t : MerklePatriciaTrie) (key : Bytes) (skipKeyTransform : Bool) :
    t.del o key skipKeyTransform =
      t.findPath o (o.callKey key skipKeyTransform) false >>= fun p =>
        match p.node with
        | some _ => t.deleteNode o (o.callKey key skipKeyTransform) p.stack >>= fun t' =>
          .ok ((if o.useNodePruning then
            { t' with _db := t'._db.batch (MerklePatriciaTrie.deleteHashes o p.stack) }
          else t').persistRoot o)
        | none => .ok (t.persistRoot o) := rfl

theorem Represents.del (h : Represents o t T) (hfree : CollisionFree o t._db)
    (hkept : Kept t._db) (hprune : o.useNodePruning = false) (key : Bytes)
    (skipKeyTransform : Bool) :
    ∃ t' T', t.del o key skipKeyTransform = .ok t' ∧ Kept t'._db ∧ Represents o t' T' ∧
      Removal T (bytesToNibbles (o.callKey key skipKeyTransform)) T' := by
  have hw := h.whole hfree hkept
  rw [del_eq]
  rcases eq_or_ne T .empty with rfl | hne
  · rw [findPath_of_root_missing (h.lookup_root_empty hfree)]
    exact ⟨_, .empty, rfl, hkept.persistRoot, h.persistRoot, .empty rfl⟩
  · obtain ⟨p, hp, hends⟩ := hw.findPath h.live hne (o.callKey key skipKeyTransform) false
    rw [hp, ok_bind]
    cases hends with
    | found fs s r hT hK hs =>
      subst hT
      obtain ⟨t', heq, hrep, hkeep⟩ := deleteNode_of_foundAt hw h hs hK
      simp only [heq, ok_bind, hprune, Bool.false_eq_true, if_false]
      exact ⟨_, _, rfl, (hkeep hprune hkept).persistRoot, hrep.persistRoot,
        .found fs s r rfl hK hs⟩
    | off fs s r hT hK hr =>
      exact ⟨_, T, rfl, hkept.persistRoot, h.persistRoot, .off fs s r hT hK hr⟩

end TsEthereum
