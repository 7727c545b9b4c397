import TsEthereum.Mpt.Calls

/-!
# What a trie binds

A key is bound to the value of the last `put` not followed by a `del` of it.
A trie that never deletes nodes follows these bindings through any run, as
long as no `del` is lossy: `get_eq_bindings_iff` says that this is exactly
when all of its reads are right.
-/

namespace TsEthereum

open RadixTree RadixTree.Frames MPTOpts

namespace TrieOp

/-- The key of a call. -/
def key : TrieOp → Bytes
  | put key _ _ => key
  | del key _ => key

/-- The flag of a call. -/
def skipKeyTransform : TrieOp → Bool
  | put _ _ skipKeyTransform => skipKeyTransform
  | del _ skipKeyTransform => skipKeyTransform

/-- What a call leaves under its key. -/
def bound : TrieOp → Option Bytes
  | put _ value _ => some value
  | del _ _ => none

/-- A `put` writes a value, and not under the root's key where the root is
persisted. -/
def Allowed (o : MPTOpts) : TrieOp → Prop
  | put key value _ => value ≠ [] ∧ ¬ (o.useRootPersistence = true ∧ key = ROOT_DB_KEY)
  | del _ _ => True

instance (o : MPTOpts) (op : TrieOp) : Decidable (op.Allowed o) := by
  cases op <;> unfold Allowed <;> infer_instance

end TrieOp

/-- **What calls leave under a key**: the value of the last `put` under it
that no `del` follows. `keyOf` is the key a call counts for. -/
def bindings (keyOf : TrieOp → Bytes) (ops : List TrieOp) (key : Bytes) : Option Bytes :=
  ops.foldl (fun b op => if keyOf op = key then op.bound else b) none

theorem bindings_concat (keyOf : TrieOp → Bytes) (ops : List TrieOp) (op : TrieOp) :
    bindings keyOf (ops ++ [op]) = Function.update (bindings keyOf ops) (keyOf op) op.bound := by
  funext key
  rw [Function.update_apply, bindings, List.foldl_append, List.foldl_cons, List.foldl_nil]
  simp only [eq_comm (a := key)]
  rfl

/-! ## Bindings of a tree -/

/-- **A map over nibbles holds the bindings `m`**, and nothing under a key
that is no string of bytes. -/
structure Binds (f : Nibbles → Option Value) (m : Bytes → Option Bytes) : Prop where
  bytes : ∀ K v, f K = some v → ∃ key, K = bytesToNibbles key
  agree : ∀ key, (f (bytesToNibbles key)).map Subtype.val = m key

namespace Binds

variable {f g : Nibbles → Option Value} {m : Bytes → Option Bytes}

theorem empty : Binds (RadixTree.empty : Tree).lookup fun _ => none :=
  ⟨fun _ _ h => (nomatch h), fun _ => rfl⟩

theorem update (h : Binds f m) (key : Bytes) (x : Option Value) :
    Binds (Function.update f (bytesToNibbles key) x)
      (Function.update m key (x.map Subtype.val)) := by
  refine ⟨fun K v hK => ?_, fun key' => ?_⟩
  · rcases eq_or_ne K (bytesToNibbles key) with rfl | hne
    · exact ⟨key, rfl⟩
    · rw [Function.update_of_ne hne] at hK
      exact h.bytes K v hK
  · rcases eq_or_ne key' key with rfl | hne
    · simp
    · have hnib : bytesToNibbles key' ≠ bytesToNibbles key := fun he =>
        hne (bytesToNibbles_injective he)
      rw [Function.update_of_ne hnib, Function.update_of_ne hne, h.agree]

theorem unique (h : Binds f m) (h' : Binds g m) : f = g := by
  have hval : Function.Injective (Option.map (Subtype.val : Value → Bytes)) :=
    Option.map_injective Subtype.val_injective
  have hnone {e : Nibbles → Option Value} (he : Binds e m) {K : Nibbles}
      (hK : ¬ ∃ key, K = bytesToNibbles key) : e K = none := by
    by_contra hne
    obtain ⟨v, hv⟩ := Option.ne_none_iff_exists'.1 hne
    exact hK (he.bytes K v hv)
  funext K
  by_cases hK : ∃ key, K = bytesToNibbles key
  · obtain ⟨key, rfl⟩ := hK
    exact hval ((h.agree key).trans (h'.agree key).symm)
  · rw [hnone h hK, hnone h' hK]

end Binds

variable {o : MPTOpts} {t : MerklePatriciaTrie} {T : Tree} {m : Bytes → Option Bytes}

theorem got_eq (x : Option Value) : got x = (x.map Subtype.val).map .bytes := by
  cases x <;> rfl

theorem Represents.get_of_binds (h : Represents o t T) (hfree : CollisionFree o t._db)
    (hkept : Kept t._db) (hm : Binds T.lookup m) (key : Bytes) :
    t.get o key false = .ok ((m (o.appliedKey key)).map .bytes) := by
  rw [h.get hfree (h.whole hfree hkept), got_eq, hm.agree]

/-! ## One call -/

/-- **What a call does to the tree.** -/
def Changes (o : MPTOpts) (T : Tree) : TrieOp → Tree → Prop
  | .put key value skipKeyTransform, T' => ∃ v : Value, v = value ∧
    T' = T.insert (bytesToNibbles (o.callKey key skipKeyTransform)) v
  | .del key skipKeyTransform, T' =>
    Removal T (bytesToNibbles (o.callKey key skipKeyTransform)) T'

theorem Represents.step (h : Represents o t T) (hfree : CollisionFree o t._db)
    (hkept : Kept t._db) (hprune : o.useNodePruning = false) {op : TrieOp} (hop : op.Allowed o) :
    ∃ t' T', t.step o op = .ok t' ∧ Kept t'._db ∧ Represents o t' T' ∧ Changes o T op T' := by
  cases op with
  | put key value skipKeyTransform =>
    obtain ⟨t', ht', hkept', hrep⟩ :=
      h.put hfree hkept hprune hop.2 ⟨value, hop.1⟩ skipKeyTransform
    exact ⟨t', _, ht', hkept', hrep, ⟨value, hop.1⟩, rfl, rfl⟩
  | del key skipKeyTransform => exact h.del hfree hkept hprune key skipKeyTransform

theorem step_rootKey {key : Bytes} (h : o.useRootPersistence = true ∧ key = ROOT_DB_KEY)
    (value : Bytes) (skipKeyTransform : Bool) :
    t.step o (.put key value skipKeyTransform) = .error .rootKeyNotAllowed := if_pos h

theorem Removal.lookup_le {K : Nibbles} {T' : Tree} (h : Removal T K T') (hlive : T.Live)
    {k : Nibbles} {v : Value} (hk : T'.lookup k = some v) : T.lookup k = some v := by
  cases h with
  | found fs s r hT hK hs =>
    subst hT
    cases fs with
    | nil => cases hk
    | cons f fs =>
      rcases hs with ⟨w, rfl⟩ | ⟨hb, rfl⟩
      · cases f with
        | extension p => cases Shaped.isBranch_of_plug hlive
        | branch cs w' i =>
          rw [lookup_removedAt_leaf, Function.update_apply, Function.update_apply] at hk
          split at hk
          · next hk' =>
            have hat := lookup_plug_append fs ((Frame.branch cs w' i).plug (.leaf r w)) []
            rw [List.append_nil] at hat
            rw [hk', plug_cons, hat]
            unfold keptValue at hk
            split at hk
            · cases hk
            · exact hk
          · split at hk
            · cases hk
            · exact hk
      · cases s with
        | branch cs w =>
          rw [lookup_removedAt_branch, Function.update_apply] at hk
          split at hk
          · next hk' =>
            have hat := lookup_plug_append (f :: fs) (.branch cs w) []
            rw [List.append_nil] at hat
            rw [hk', hat]
            unfold keptValue at hk
            split at hk
            · cases hk
            · exact hk
          · exact hk
        | _ => cases hb
  | off fs s r hT hK hr => exact hk
  | empty hT => exact hk

/-- **A call leaves the bindings as they should be**: a `put` that is not of
the root's key, and a `del` of a key that is not lossy in the tree the trie
stores. -/
def Faithful (o : MPTOpts) (t : MerklePatriciaTrie) : TrieOp → Prop
  | .put key _ _ => ¬ (o.useRootPersistence = true ∧ key = ROOT_DB_KEY)
  | .del key _ => ∃ T, Represents o t T ∧ ¬ Lossy T (bytesToNibbles key)

/-- A trie whose every read is `m`'s. -/
def Reads (o : MPTOpts) (t : MerklePatriciaTrie) (m : Bytes → Option Bytes) : Prop :=
  ∀ key, t.get o key false = .ok ((m key).map .bytes)

/-- A trie that never deleted a node, and the bindings of its tree. -/
def Follows (o : MPTOpts) (t : MerklePatriciaTrie) (m : Bytes → Option Bytes) : Prop :=
  ∃ T, Represents o t T ∧ Kept t._db ∧ Binds T.lookup m

section Plain

variable (hprune : o.useNodePruning = false) (hkeys : o.useKeyHashing = false)

include hkeys in
theorem callKey_eq (key : Bytes) (skipKeyTransform : Bool) :
    o.callKey key skipKeyTransform = key := by
  simp [callKey, appliedKey, hkeys]

include hkeys in
theorem Follows.reads (h : Follows o t m) (hfree : CollisionFree o t._db) : Reads o t m := by
  obtain ⟨T, hT, hkept, hm⟩ := h
  intro key
  have happlied : o.appliedKey key = key := by simp [appliedKey, hkeys]
  rw [hT.get_of_binds hfree hkept hm, happlied]

include hprune hkeys in
theorem Follows.step (h : Follows o t m) (hfree : CollisionFree o t._db) {op : TrieOp}
    (hvalue : ∀ key skipKeyTransform, op ≠ .put key [] skipKeyTransform)
    (hop : Faithful o t op) :
    ∃ t', t.step o op = .ok t' ∧ Follows o t' (Function.update m op.key op.bound) := by
  obtain ⟨T, hT, hkept, hm⟩ := h
  have hallowed : op.Allowed o := by
    cases op with
    | put key value skip => exact ⟨fun hnil => hvalue key skip (by rw [hnil]), hop⟩
    | del key skip => trivial
  obtain ⟨t', T', ht', hkept', hT', hchange⟩ := hT.step hfree hkept hprune hallowed
  refine ⟨t', ht', T', hT', hkept', ?_⟩
  cases op with
  | put key value skip =>
    obtain ⟨v, rfl, rfl⟩ := hchange
    rw [callKey_eq hkeys]
    rw [lookup_insert]
    exact hm.update key (some v)
  | del key skip =>
    obtain ⟨S, hS, hlossy⟩ := hop
    obtain rfl := hS.unique hT hfree
    have hremoval : Removal S (bytesToNibbles key) T' := by
      rwa [Changes, callKey_eq hkeys] at hchange
    rw [(hremoval.lookup_iff hT.live).2 hlossy]
    exact hm.update key none

include hprune hkeys in
theorem Follows.faithful (h : Follows o t m) (hfree : CollisionFree o t._db) {op : TrieOp}
    {t' : MerklePatriciaTrie} (ht' : t.step o op = .ok t') (hfree' : CollisionFree o t'._db)
    (hreads : Reads o t' (Function.update m op.key op.bound)) : Faithful o t op := by
  obtain ⟨T, hT, hkept, hm⟩ := h
  cases op with
  | put key value skip =>
    intro hroot
    rw [step_rootKey hroot] at ht'
    cases ht'
  | del key skip =>
    obtain ⟨u, T', hu, hkept', hT', hremoval⟩ := hT.del hfree hkept hprune key skip
    obtain rfl : u = t' := Except.ok.inj (hu.symm.trans ht')
    rw [callKey_eq hkeys] at hremoval
    refine ⟨T, hT, (hremoval.lookup_iff hT.live).1 ?_⟩
    -- the tree left binds what the reads return, and nothing under other keys
    have hbinds : Binds T'.lookup (Function.update m key none) := by
      refine ⟨fun K v hK => hm.bytes K v (hremoval.lookup_le hT.live hK), fun key' => ?_⟩
      have hget := hT'.get hfree' (hT'.whole hfree' hkept') key'
      have happlied : o.appliedKey key' = key' := by simp [appliedKey, hkeys]
      rw [hreads, happlied, got_eq] at hget
      exact Option.map_injective (fun a b => NestedUint8Array.bytes.inj) (Except.ok.inj hget).symm
    exact hbinds.unique (hm.update key none)

/-! ## Whole runs -/

theorem follows_create : Follows o (.create o) fun _ => none :=
  ⟨.empty, represents_create, fun _ => List.not_mem_nil, .empty⟩

include hprune hkeys in
/-- **Reads are right throughout a run exactly when every call is faithful.**
For every trie that neither prunes nor hashes its keys and every sequence
of calls, in which no two of the strings hashed collide: at every point
of the run the calls before it returned and every `get` returns the value
of the last `put` under its key that no `del` follows, if and only if no
`put` is of a persisted root's key and no `del` of a key that is `Lossy`
in the tree stored at that point. -/
theorem reads_bindings_iff (ops : List TrieOp)
    (hvalues : ∀ op ∈ ops, ∀ key skipKeyTransform, op ≠ .put key [] skipKeyTransform)
    (hfree : ∀ pre t, pre <+: ops → run (MerklePatriciaTrie.step o) (.create o) pre = .ok t →
      CollisionFree o t._db) :
    (∀ pre, pre <+: ops → ∃ t, run (MerklePatriciaTrie.step o) (.create o) pre = .ok t ∧
        ∀ key, t.get o key false = .ok ((bindings TrieOp.key pre key).map .bytes)) ↔
      ∀ pre op t, pre ++ [op] <+: ops →
        run (MerklePatriciaTrie.step o) (.create o) pre = .ok t → Faithful o t op := by
  have hshorter {pre : List TrieOp} {op : TrieOp} (h : pre ++ [op] <+: ops) : pre <+: ops :=
    (List.prefix_append pre [op]).trans h
  have hvalue {pre : List TrieOp} {op : TrieOp} (h : pre ++ [op] <+: ops) :=
    hvalues op (h.subset (by simp))
  constructor
  · intro hright
    -- every point of the run follows its bindings, since the call before was found faithful
    have hfollows (pre : List TrieOp) : pre <+: ops → ∀ t,
        run (MerklePatriciaTrie.step o) (.create o) pre = .ok t →
          Follows o t (bindings TrieOp.key pre) ∧
          ∀ op, pre ++ [op] <+: ops → Faithful o t op := by
      have hnext {pre : List TrieOp} {t : MerklePatriciaTrie}
          (ht : run (MerklePatriciaTrie.step o) (.create o) pre = .ok t) (hpre : pre <+: ops)
          (hfollow : Follows o t (bindings TrieOp.key pre)) (op : TrieOp)
          (hop : pre ++ [op] <+: ops) : Faithful o t op := by
        obtain ⟨t', ht', hreads⟩ := hright (pre ++ [op]) hop
        have hstep := ht'
        rw [run_concat, ht, ok_bind] at hstep
        rw [bindings_concat] at hreads
        exact hfollow.faithful hprune hkeys (hfree pre t hpre ht) hstep
          (hfree (pre ++ [op]) t' hop ht') hreads
      induction pre using List.reverseRecOn with
      | nil =>
        intro hpre t ht
        cases ht
        exact ⟨follows_create, hnext rfl hpre follows_create⟩
      | append_singleton pre op ih =>
        intro hpre t ht
        obtain ⟨u, hu, hop⟩ := bind_eq_ok.1 (run_concat _ pre op ▸ ht)
        obtain ⟨hfollow, hfaithful⟩ := ih (hshorter hpre) u hu
        obtain ⟨t', ht', hfollow'⟩ := hfollow.step hprune hkeys
          (hfree pre u (hshorter hpre) hu) (hvalue hpre) (hfaithful op hpre)
        cases hop.symm.trans ht'
        rw [← bindings_concat] at hfollow'
        exact ⟨hfollow', hnext ht hpre hfollow'⟩
    intro pre op t hop ht
    exact (hfollows pre (hshorter hop) t ht).2 op hop
  · intro hfaithful pre hpre
    have hfollows : ∃ t, run (MerklePatriciaTrie.step o) (.create o) pre = .ok t ∧
        Follows o t (bindings TrieOp.key pre) := by
      induction pre using List.reverseRecOn with
      | nil => exact ⟨_, rfl, follows_create⟩
      | append_singleton pre op ih =>
        obtain ⟨u, hu, hfollow⟩ := ih (hshorter hpre)
        obtain ⟨t', ht', hfollow'⟩ := hfollow.step hprune hkeys
          (hfree pre u (hshorter hpre) hu) (hvalue hpre) (hfaithful pre op u hpre hu)
        rw [← bindings_concat] at hfollow'
        exact ⟨t', by rw [run_concat, hu, ok_bind, ht'], hfollow'⟩
    obtain ⟨t, ht, hfollow⟩ := hfollows
    exact ⟨t, ht, hfollow.reads hkeys (hfree pre t hpre ht)⟩

end Plain

/-! ## A value that stays -/

/-- A plain trie over the hash with these digests. -/
def plainOpts (digests : List (Bytes × Bytes)) (h : ∀ d ∈ digests, d.2.length = 32) : MPTOpts where
  useKeyHashing := false
  useKeyHashingFunction := .ofDigests digests h
  keyPrefix := none
  useRootPersistence := false
  useNodePruning := false

/-- The digests of the empty root and of the three roots below. -/
def prefixKeysOpts : MPTOpts := plainOpts
  [([0x80],
      [86, 232, 31, 23, 27, 204, 85, 166, 255, 131, 69, 230, 146, 192, 248, 110, 91, 72, 224, 27,
        153, 108, 173, 192, 1, 98, 47, 181, 227, 99, 180, 33]),
    ([196, 130, 32, 18, 1],
      [45, 227, 50, 83, 140, 37, 89, 70, 237, 32, 4, 212, 255, 215, 7, 216, 149, 43, 254, 40, 189,
        106, 62, 93, 197, 104, 11, 99, 164, 152, 246, 44]),
    ([215, 130, 0, 18, 211, 128, 128, 128, 194, 52, 2, 128, 128, 128, 128, 128, 128, 128, 128, 128,
        128, 128, 128, 1],
      [53, 6, 42, 103, 61, 23, 116, 132, 194, 190, 48, 6, 15, 78, 59, 82, 9, 200, 19, 11, 154, 110,
        120, 172, 147, 30, 14, 224, 35, 44, 110, 163]),
    ([217, 130, 0, 18, 213, 128, 128, 128, 194, 52, 2, 128, 194, 54, 3, 128, 128, 128, 128, 128,
        128, 128, 128, 128, 128, 1],
      [76, 55, 254, 94, 235, 3, 94, 173, 140, 145, 189, 75, 16, 186, 32, 168, 141, 118, 211, 241,
        244, 177, 96, 20, 35, 57, 27, 67, 213, 207, 145, 106])] (by decide)

/-- A key that is a prefix of two others, and its deletion. -/
def prefixKeys : List TrieOp :=
  [.put [0x12] [1] false, .put [0x12, 0x34] [2] false, .put [0x12, 0x56] [3] false,
    .del [0x12] false]

theorem prefixKeys_values : ∀ op ∈ prefixKeys, ∀ key skipKeyTransform,
    op ≠ .put key [] skipKeyTransform := by
  simp [prefixKeys]

theorem prefixKeys_free (pre : List TrieOp) (t : MerklePatriciaTrie) (hpre : pre <+: prefixKeys)
    (ht : run (MerklePatriciaTrie.step prefixKeysOpts) (.create prefixKeysOpts) pre = .ok t) :
    CollisionFree prefixKeysOpts t._db :=
  .of_inits (by decide +kernel) hpre ht

/-- The equivalence on a run of three `put`s and a `del`. -/
theorem reads_bindings_iff_prefixKeys :
    (∀ pre, pre <+: prefixKeys → ∃ t,
        run (MerklePatriciaTrie.step prefixKeysOpts) (.create prefixKeysOpts) pre = .ok t ∧
        ∀ key, t.get prefixKeysOpts key false =
          .ok ((bindings TrieOp.key pre key).map .bytes)) ↔
      ∀ pre op t, pre ++ [op] <+: prefixKeys →
        run (MerklePatriciaTrie.step prefixKeysOpts) (.create prefixKeysOpts) pre = .ok t →
          Faithful prefixKeysOpts t op :=
  reads_bindings_iff rfl rfl prefixKeys prefixKeys_values prefixKeys_free

/-- **A deleted key that is still read**: the branch at the end of `0x12`
has two children, so it keeps its value. -/
theorem deleted_key_is_read :
    ¬ ∀ (o : MPTOpts) (ops : List TrieOp), o.useNodePruning = false → o.useKeyHashing = false →
      (∀ op ∈ ops, ∀ key skipKeyTransform, op ≠ .put key [] skipKeyTransform) →
      (∀ pre t, pre <+: ops → run (MerklePatriciaTrie.step o) (.create o) pre = .ok t →
        CollisionFree o t._db) →
      ∀ t, run (MerklePatriciaTrie.step o) (.create o) ops = .ok t →
        ∀ key, t.get o key false = .ok ((bindings TrieOp.key ops key).map .bytes) := by
  intro h
  have hread : (run (MerklePatriciaTrie.step prefixKeysOpts) (.create prefixKeysOpts) prefixKeys >>=
      fun t => t.get prefixKeysOpts [0x12] false) = .ok (some (.bytes [1])) := by decide +kernel
  obtain ⟨t, ht, hget⟩ := bind_eq_ok.1 hread
  have hnone : bindings TrieOp.key prefixKeys [0x12] = none := by decide
  have hclaim := h prefixKeysOpts prefixKeys rfl rfl prefixKeys_values prefixKeys_free t ht [0x12]
  rw [hget, hnone] at hclaim
  cases hclaim

end TsEthereum
