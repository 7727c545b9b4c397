import TsEthereum.Mpt.Delete

/-!
# The store of a trie

`Represents o t T`: the root of the trie `t` is the root of the tree `T`,
and every node `T` refers to was stored under its hash at some time. What
the store then answers depends on the hash: where it is injective on the
strings hashed so far, `CollisionFree`, a node is read back as itself, or
was deleted since.
-/

namespace TsEthereum

open RadixTree RadixTree.Frames MPTOpts

/-! ## The log of a store -/

/-- The entry of the log an operation adds. -/
def BatchDBOp.entry : BatchDBOp → Bytes × Option Bytes
  | .put key value => (key, some value)
  | .del key => (key, none)

namespace MapDB

theorem log_batch (db : MapDB) (opStack : List BatchDBOp) :
    (db.batch opStack).log = (opStack.map BatchDBOp.entry).reverse ++ db.log := by
  induction opStack generalizing db with
  | nil => rfl
  | cons op ops ih =>
    have happly : (db.apply op).log = op.entry :: db.log := by cases op <;> rfl
    have hbatch : db.batch (op :: ops) = (db.apply op).batch ops := rfl
    rw [hbatch, ih, happly]
    simp

theorem mem_log_of_lookup {db : MapDB} {key : Bytes} {v : Option Bytes}
    (h : db.log.lookup key = some v) : (key, v) ∈ db.log := by
  obtain ⟨l, l', hl, -⟩ := List.lookup_eq_some_iff.1 h
  rw [hl]
  simp

theorem mem_log_of_get {db : MapDB} {key value : Bytes} (h : db.get key = some value) :
    (key, some value) ∈ db.log := by
  refine mem_log_of_lookup ?_
  unfold get at h
  cases hl : db.log.lookup key with
  | none => simp [hl] at h
  | some v =>
    rw [hl] at h
    exact congrArg some h

theorem exists_get_or_deleted {db : MapDB} {key : Bytes} {v : Option Bytes}
    (h : (key, v) ∈ db.log) : (∃ value, db.get key = some value) ∨ (key, none) ∈ db.log := by
  cases hl : db.log.lookup key with
  | none =>
    have hne := List.lookup_eq_none_iff.1 hl (key, v) h
    simp at hne
  | some w =>
    cases w with
    | none => exact .inr (mem_log_of_lookup hl)
    | some value => exact .inl ⟨value, by simp [get, hl]⟩

end MapDB

/-! ## Where the hash is injective -/

variable {o : MPTOpts}

theorem MPTOpts.dbKey_injective : Function.Injective o.dbKey := by
  intro a b h
  unfold dbKey at h
  split at h
  · exact List.append_cancel_left h
  · exact h

/-- A node was stored under its hash. -/
def Logged (o : MPTOpts) (db : MapDB) (b : Bytes) : Prop :=
  (o.dbKey (o.hash b), some b) ∈ db.log

/-- The strings a trie hashed: the empty string for the empty root, the root
key when keys are hashed, and what it stored under its hash. -/
def hashedStrings (o : MPTOpts) (db : MapDB) : Set Bytes :=
  { b | b = RLP_EMPTY_STRING ∨ (o.useKeyHashing = true ∧ b = ROOT_DB_KEY) ∨ Logged o db b }

/-- **No two of the strings hashed collide**, and each fits an array. -/
structure CollisionFree (o : MPTOpts) (db : MapDB) : Prop where
  inj : Set.InjOn o.hash (hashedStrings o db)
  bounded : ∀ b ∈ hashedStrings o db, b.length < arrayBound

/-- A hash given by its digests, and zeros for any other string. -/
def HashFunction.ofDigests (digests : List (Bytes × Bytes))
    (h : ∀ d ∈ digests, d.2.length = 32) : HashFunction where
  hash msg := (digests.lookup msg).getD (List.replicate 32 0)
  length_hash msg := by
    cases hl : digests.lookup msg with
    | none => simp
    | some digest =>
      obtain ⟨l, l', rfl, -⟩ := List.lookup_eq_some_iff.1 hl
      exact h (msg, digest) (by simp)

/-- The strings a trie hashed, and every value of its log. -/
def hashedList (o : MPTOpts) (db : MapDB) : List Bytes :=
  RLP_EMPTY_STRING :: (if o.useKeyHashing then [ROOT_DB_KEY] else []) ++ db.log.filterMap Prod.snd

theorem mem_hashedList {db : MapDB} {b : Bytes} (h : b ∈ hashedStrings o db) :
    b ∈ hashedList o db := by
  unfold hashedList
  rcases h with rfl | ⟨hk, rfl⟩ | h
  · simp
  · simp [hk]
  · have hmem : b ∈ db.log.filterMap Prod.snd := List.mem_filterMap.2 ⟨_, h, rfl⟩
    exact List.mem_append_right _ hmem

/-- `CollisionFree`, computed. -/
def collisionFree (o : MPTOpts) (db : MapDB) : Bool :=
  (hashedList o db).all fun b => decide (b.length < arrayBound) &&
    (hashedList o db).all fun c => o.hash b != o.hash c || b == c

theorem CollisionFree.of_collisionFree {db : MapDB} (h : collisionFree o db = true) :
    CollisionFree o db := by
  unfold collisionFree at h
  simp only [List.all_eq_true, Bool.and_eq_true, decide_eq_true_eq, Bool.or_eq_true, bne_iff_ne,
    beq_iff_eq] at h
  refine ⟨fun b hb c hc hbc => ?_, fun b hb => (h b (mem_hashedList hb)).1⟩
  rcases (h b (mem_hashedList hb)).2 c (mem_hashedList hc) with hne | heq
  · exact absurd hbc hne
  · exact heq

theorem CollisionFree.of_inits {ops : List TrieOp}
    (h : (ops.inits.all fun pre => match run (MerklePatriciaTrie.step o) (.create o) pre with
      | .ok t => collisionFree o t._db
      | .error _ => true) = true) {pre : List TrieOp} {t : MerklePatriciaTrie} (hpre : pre <+: ops)
    (ht : run (MerklePatriciaTrie.step o) (.create o) pre = .ok t) : CollisionFree o t._db := by
  have hat := List.all_eq_true.1 h pre ((List.mem_inits pre ops).2 hpre)
  rw [ht] at hat
  exact .of_collisionFree hat

/-- **The store holds nothing but nodes under their hashes**, and the root
under its own key. -/
def Addressed (o : MPTOpts) (db : MapDB) : Prop :=
  ∀ key value, (key, some value) ∈ db.log →
    key = o.dbKey (o.hash value) ∨ key = o.dbKey (o.appliedKey ROOT_DB_KEY)

theorem hash_ne_rootKey {db : MapDB} (hfree : CollisionFree o db) {b : Bytes}
    (hb : b ∈ hashedStrings o db) (hne : b ≠ ROOT_DB_KEY) :
    o.hash b ≠ o.appliedKey ROOT_DB_KEY := by
  intro h
  unfold appliedKey at h
  split at h
  · next hk => exact hne (hfree.inj hb (.inr (.inl ⟨hk, rfl⟩)) h)
  · have hlen := congrArg List.length h
    rw [length_hash] at hlen
    simp [ROOT_DB_KEY] at hlen

theorem get_hash {db : MapDB} (haddr : Addressed o db) (hfree : CollisionFree o db) {b value : Bytes}
    (hb : b ∈ hashedStrings o db) (hne : b ≠ ROOT_DB_KEY)
    (h : db.get (o.dbKey (o.hash b)) = some value) : value = b := by
  have hmem := MapDB.mem_log_of_get h
  rcases haddr _ _ hmem with hkey | hkey
  · have hhash := dbKey_injective hkey
    refine (hfree.inj hb (.inr (.inr ?_)) hhash).symm
    unfold Logged
    rwa [← hkey]
  · exact absurd (dbKey_injective hkey) (hash_ne_rootKey hfree hb hne)

theorem enc_ne_of_decode {b : Bytes} {e : Except Rlp.DecodeError Rlp.DecodeResult}
    (hb : b.length < arrayBound) (hdec : Rlp.decode b false = e)
    (hlist : ∀ raw, e ≠ .ok (.data (.list raw))) {s : Tree} (hs : s ≠ .empty) : o.enc s ≠ b := by
  intro heq
  have hlt : (Rlp.encode (o.raw s)).length < 256 ^ 8 := by
    rw [← enc, heq]
    exact Nat.lt_of_lt_of_le hb (by norm_num)
  have hraw := Rlp.decode_encode hlt
  rw [← enc, heq, hdec, raw_eq_list hs] at hraw
  exact hlist _ hraw

theorem enc_ne_rootKey {s : Tree} (h : s ≠ .empty) : o.enc s ≠ ROOT_DB_KEY :=
  have hdec : Rlp.decode ROOT_DB_KEY false = .error .remainderNotZero := by decide +kernel
  enc_ne_of_decode (by decide) hdec (by simp) h

theorem enc_ne_emptyString {s : Tree} (h : s ≠ .empty) : o.enc s ≠ RLP_EMPTY_STRING :=
  have hdec : Rlp.decode RLP_EMPTY_STRING false = .ok (.data .null) := by decide +kernel
  enc_ne_of_decode (by decide) hdec (by simp) h

/-! ## The tree of a trie -/

/-- **The trie `t` represents the tree `T`**: its root is `T`'s, and every
node `T` refers to was stored. -/
structure Represents (o : MPTOpts) (t : MerklePatriciaTrie) (T : Tree) : Prop where
  root : t._root = o.rootHash T
  live : T.Live
  addressed : Addressed o t._db
  noEmpty : ¬ Logged o t._db RLP_EMPTY_STRING
  rootLogged : T ≠ .empty → Logged o t._db (o.enc T)
  below : T.Below fun s => 32 ≤ (o.enc s).length → Logged o t._db (o.enc s)

/-- Nothing was deleted from the store. -/
def Kept (db : MapDB) : Prop := ∀ key, (key, none) ∉ db.log

variable {t : MerklePatriciaTrie} {T : Tree}

/-- A node whose digest is the key of nothing else in the store is read back
as itself, or is missing. -/
theorem lookupNode_of_get {s : Tree} (hs : s ≠ .empty) (hlen : (o.enc s).length < arrayBound)
    (hget : ∀ value, t._db.get (o.dbKey (o.rootHash s)) = some value → value = o.enc s) :
    t.lookupNode o (.bytes (o.rootHash s)) =
      if t._db.get (o.dbKey (o.rootHash s)) = none then .error .missingNode
      else .ok (o.node s) := by
  have hdec := decodeMPTNode_serialize (n := o.node s) (by rwa [serialize_node hs])
  rw [serialize_node hs] at hdec
  unfold MerklePatriciaTrie.lookupNode
  cases hv : t._db.get (o.dbKey (o.rootHash s)) with
  | none => simp [hv]
  | some value => simp [hv, hget value hv, hdec]

theorem lookupNode_rootHash (haddr : Addressed o t._db) (hfree : CollisionFree o t._db) {s : Tree}
    (hs : s ≠ .empty) (hmem : o.enc s ∈ hashedStrings o t._db) :
    t.lookupNode o (.bytes (o.rootHash s)) =
      if t._db.get (o.dbKey (o.rootHash s)) = none then .error .missingNode
      else .ok (o.node s) :=
  lookupNode_of_get hs (hfree.bounded _ hmem)
    fun _ hv => get_hash haddr hfree hmem (enc_ne_rootKey hs) hv

theorem lookupNode_ref (haddr : Addressed o t._db) (hfree : CollisionFree o t._db) {s : Tree}
    (hs : s ≠ .empty)
    (hmem : 32 ≤ (o.enc s).length → o.enc s ∈ hashedStrings o t._db) :
    t.lookupNode o (o.ref s) =
      if 32 ≤ (o.enc s).length ∧ t._db.get (o.dbKey (o.rootHash s)) = none then
        .error .missingNode
      else .ok (o.node s) := by
  rcases Nat.lt_or_ge (o.enc s).length 32 with hlt | hle
  · rw [ref_of_lt hs hlt, if_neg (by omega)]
    exact decodeRawMPTNode_raw (o.node s)
  · rw [ref_of_le hle, lookupNode_rootHash haddr hfree hs (hmem hle)]
    simp [hle]

theorem lookupNode_emptyRoot (haddr : Addressed o t._db) (hfree : CollisionFree o t._db)
    (hnone : ¬ Logged o t._db RLP_EMPTY_STRING) :
    t.lookupNode o (.bytes o.EMPTY_TRIE_ROOT) = .error .missingNode := by
  have hget : t._db.get (o.dbKey o.EMPTY_TRIE_ROOT) = none := by
    by_contra hne
    obtain ⟨value, hvalue⟩ := Option.ne_none_iff_exists'.1 hne
    have hv := get_hash haddr hfree (.inl rfl) (by decide) hvalue
    have hmem := MapDB.mem_log_of_get hvalue
    rw [hv] at hmem
    exact hnone hmem
  unfold MerklePatriciaTrie.lookupNode
  simp [hget]

namespace Represents

theorem readable (h : Represents o t T) (hfree : CollisionFree o t._db) :
    T.Below (Readable o t) := by
  refine h.below.mono fun s hlog hs => ?_
  rw [lookupNode_ref h.addressed hfree hs fun hlen => .inr (.inr (hlog hlen))]
  split
  · exact .inr rfl
  · exact .inl rfl

theorem present (h : Represents o t T) (hfree : CollisionFree o t._db) (hkept : Kept t._db) :
    T.Below (Present o t) := by
  refine h.below.mono fun s hlog hs => ?_
  rw [lookupNode_ref h.addressed hfree hs fun hlen => .inr (.inr (hlog hlen)), if_neg]
  rintro ⟨hlen, hnone⟩
  rcases MapDB.exists_get_or_deleted (hlog hlen) with ⟨value, hvalue⟩ | hdel
  · rw [← rootHash, hnone] at hvalue
    cases hvalue
  · exact hkept _ hdel

theorem lookup_root (h : Represents o t T) (hfree : CollisionFree o t._db) (hkept : Kept t._db)
    (hne : T ≠ .empty) : t.lookupNode o (.bytes t._root) = .ok (o.node T) := by
  have hlog := h.rootLogged hne
  rw [h.root, lookupNode_rootHash h.addressed hfree hne (.inr (.inr hlog)), if_neg]
  intro hnone
  rcases MapDB.exists_get_or_deleted hlog with ⟨value, hvalue⟩ | hdel
  · rw [← rootHash, hnone] at hvalue
    cases hvalue
  · exact hkept _ hdel

theorem lookup_root_empty (h : Represents o t .empty) (hfree : CollisionFree o t._db) :
    t.lookupNode o (.bytes t._root) = .error .missingNode := by
  rw [h.root, rootHash_empty]
  exact lookupNode_emptyRoot h.addressed hfree h.noEmpty

theorem root_eq_empty_iff (h : Represents o t T) (hfree : CollisionFree o t._db) :
    t._root = o.EMPTY_TRIE_ROOT ↔ T = .empty := by
  constructor
  · intro hroot
    by_contra hne
    have hlog := h.rootLogged hne
    have hmem : o.enc T ∈ hashedStrings o t._db := .inr (.inr hlog)
    rw [h.root] at hroot
    exact enc_ne_emptyString hne (hfree.inj hmem (.inl rfl) hroot)
  · rintro rfl
    rw [h.root, rootHash_empty]

end Represents

/-! ## Writing a tree -/

/-- A store after more writes: the log it had, the operations' entries and
the root's. -/
theorem log_stored (t : MerklePatriciaTrie) (T : Tree) (opStack : List BatchDBOp) :
    (t.stored o T opStack)._db.log = (if o.useRootPersistence then
        [(o.dbKey (o.appliedKey ROOT_DB_KEY), some (o.rootHash T))] else []) ++
      ((opStack.map BatchDBOp.entry).reverse ++ t._db.log) := by
  unfold MerklePatriciaTrie.stored MerklePatriciaTrie.persistRoot
  split
  · rw [← MapDB.log_batch]
    rfl
  · exact MapDB.log_batch t._db opStack

theorem root_stored (t : MerklePatriciaTrie) (T : Tree) (opStack : List BatchDBOp) :
    (t.stored o T opStack)._root = o.rootHash T := by
  unfold MerklePatriciaTrie.stored MerklePatriciaTrie.persistRoot
  split <;> rfl

/-- An entry a call may add to the log: a node under its hash, a root under
the root's key, or a deletion. -/
def Entry (o : MPTOpts) (e : Bytes × Option Bytes) : Prop :=
  ∀ value, e.2 = some value →
    (∃ u : Tree, u ≠ .empty ∧ e.1 = o.dbKey (o.rootHash u) ∧ value = o.enc u) ∨
    (e.1 = o.dbKey (o.appliedKey ROOT_DB_KEY) ∧ value.length = 32)

theorem entry_putNode {u : Tree} (hu : u ≠ .empty) : Entry o (o.putNode u).entry := by
  intro value hvalue
  exact .inl ⟨u, hu, rfl, (Option.some.inj hvalue).symm⟩

theorem entry_del (key : Bytes) : Entry o (BatchDBOp.del key).entry := by
  intro value hvalue
  cases hvalue

theorem entry_root {t : MerklePatriciaTrie} (T : Tree) (h : t._root = o.rootHash T) :
    Entry o (o.dbKey (o.appliedKey ROOT_DB_KEY), some t._root) := by
  intro value hvalue
  obtain rfl := Option.some.inj hvalue
  exact .inr ⟨rfl, by rw [h, rootHash, length_hash]⟩

namespace Represents

/-- **A longer log still represents a tree**, when its root and what the
tree refers to are in it. -/
theorem of_log (h : Represents o t T) {t' : MerklePatriciaTrie} {T' : Tree}
    (es : List (Bytes × Option Bytes)) (hlog : t'._db.log = es ++ t._db.log)
    (hes : ∀ e ∈ es, Entry o e) (hroot : t'._root = o.rootHash T') (hlive : T'.Live)
    (hrootLogged : T' ≠ .empty → Logged o t'._db (o.enc T'))
    (hbelow : T'.Below fun s => 32 ≤ (o.enc s).length → Logged o t'._db (o.enc s)) :
    Represents o t' T' := by
  refine ⟨hroot, hlive, fun key value hmem => ?_, fun hempty => ?_, hrootLogged, hbelow⟩
  · rw [hlog, List.mem_append] at hmem
    rcases hmem with hmem | hmem
    · rcases hes _ hmem value rfl with ⟨u, -, hkey, rfl⟩ | ⟨hkey, -⟩
      · exact .inl hkey
      · exact .inr hkey
    · exact h.addressed key value hmem
  · unfold Logged at hempty
    rw [hlog, List.mem_append] at hempty
    rcases hempty with hmem | hmem
    · -- a node is no empty string, and a root has 32 bytes
      rcases hes _ hmem _ rfl with ⟨u, hu, -, henc⟩ | ⟨-, hlen⟩
      · exact enc_ne_emptyString hu henc.symm
      · simp [RLP_EMPTY_STRING] at hlen
    · exact h.noEmpty hmem

theorem of_log_self (h : Represents o t T) {t' : MerklePatriciaTrie}
    (es : List (Bytes × Option Bytes)) (hlog : t'._db.log = es ++ t._db.log)
    (hes : ∀ e ∈ es, Entry o e) (hroot : t'._root = t._root) : Represents o t' T := by
  have hsub : t._db.log ⊆ t'._db.log := by
    rw [hlog]
    exact List.subset_append_right es _
  exact h.of_log es hlog hes (hroot.trans h.root) h.live (fun hne => hsub (h.rootLogged hne))
    (h.below.mono fun s hs hlen => hsub (hs hlen))

theorem stored (h : Represents o t T) {T' : Tree} {dels puts : List BatchDBOp}
    (hwrites : Writes o T T' puts) (hlive : T'.Live)
    (hdels : ∀ op ∈ dels, ∃ key, op = .del key) :
    Represents o (t.stored o T' (dels ++ puts)) T' := by
  have hput {u : Tree} (hu : o.putNode u ∈ puts) :
      Logged o (t.stored o T' (dels ++ puts))._db (o.enc u) := by
    have hmem : (o.putNode u).entry ∈ ((dels ++ puts).map BatchDBOp.entry).reverse := by
      rw [List.mem_reverse]
      exact List.mem_map_of_mem (List.mem_append_right dels hu)
    unfold Logged
    rw [log_stored, List.mem_append, List.mem_append]
    exact .inr (.inl hmem)
  have hlog := log_stored (o := o) t T' (dels ++ puts)
  rw [← List.append_assoc] at hlog
  have hsub : t._db.log ⊆ (t.stored o T' (dels ++ puts))._db.log := by
    rw [hlog]
    exact List.subset_append_right _ _
  refine h.of_log _ hlog (fun e he => ?_) (root_stored t T' _) hlive (fun _ => hput hwrites.root)
    (hwrites.below _ ⟨fun u hlt hle => absurd hlt (by omega), fun u hu _ => hput hu⟩
      (h.below.mono fun s hs hlen => hsub (hs hlen)))
  rcases List.mem_append.1 he with he | he
  · split at he
    · rw [List.mem_singleton.1 he]
      exact entry_root (t := { t with _root := o.rootHash T' }) T' rfl
    · cases he
  · obtain ⟨op, hop, rfl⟩ := List.mem_map.1 (List.mem_reverse.1 he)
    rcases List.mem_append.1 hop with hop | hop
    · obtain ⟨key, rfl⟩ := hdels op hop
      exact entry_del key
    · obtain ⟨u, hu, rfl⟩ := hwrites.stores op hop
      exact entry_putNode hu

theorem persistRoot (h : Represents o t T) : Represents o (t.persistRoot o) T := by
  unfold MerklePatriciaTrie.persistRoot
  split
  · refine h.of_log_self [(o.dbKey (o.appliedKey ROOT_DB_KEY), some t._root)] rfl
      (fun e he => ?_) rfl
    rw [List.mem_singleton.1 he]
    exact entry_root T h.root
  · exact h

theorem deleted (h : Represents o t T) {dels : List BatchDBOp}
    (hdels : ∀ op ∈ dels, ∃ key, op = .del key) :
    Represents o { t with _db := t._db.batch dels } T := by
  refine h.of_log_self _ (MapDB.log_batch t._db dels) (fun e he => ?_) rfl
  obtain ⟨op, hop, rfl⟩ := List.mem_map.1 (List.mem_reverse.1 he)
  obtain ⟨key, rfl⟩ := hdels op hop
  exact entry_del key

theorem emptied (h : Represents o t T) :
    Represents o { t with _root := o.EMPTY_TRIE_ROOT } .empty :=
  h.of_log [] rfl (by simp) rootHash_empty.symm trivial (fun hne => absurd rfl hne) trivial

theorem createInitialNode (h : Represents o t T) (key : Bytes) (v : Value) :
    ∃ t', t.createInitialNode o key v = .ok t' ∧
      Represents o t' (.leaf (bytesToNibbles key) v) := by
  have henc : (MPTNode.leaf (bytesToNibbles key) (.bytes v)).serialize =
      o.enc (.leaf (bytesToNibbles key) v) :=
    serialize_node (t := .leaf (bytesToNibbles key) v) (by simp)
  unfold MerklePatriciaTrie.createInitialNode
  simp only [henc, MerklePatriciaTrie.setRoot_hash, ok_bind]
  refine ⟨_, rfl, Represents.persistRoot ?_⟩
  refine h.of_log [(o.putNode (.leaf (bytesToNibbles key) v)).entry] rfl (fun e he => ?_)
    rfl trivial (fun _ => List.mem_cons_self) trivial
  rw [List.mem_singleton.1 he]
  exact entry_putNode (by simp)

end Represents

theorem represents_create : Represents o (MerklePatriciaTrie.create o) .empty :=
  ⟨rootHash_empty.symm, trivial, fun _ _ h => absurd h List.not_mem_nil, List.not_mem_nil,
    fun h => absurd rfl h, trivial⟩

theorem Represents.unique {T' : Tree} (h : Represents o t T) (h' : Represents o t T')
    (hfree : CollisionFree o t._db) : T = T' := by
  have hin {S : Tree} (hS : Represents o t S) : o.HashedIn (hashedStrings o t._db) S := by
    refine ⟨?_, hS.below.mono fun s hs hlen => .inr (.inr (hs hlen))⟩
    rcases eq_or_ne S .empty with rfl | hne
    · exact .inl rfl
    · exact .inr (.inr (hS.rootLogged hne))
  exact eq_of_rootHash hfree.inj hfree.bounded (hin h) (hin h') (h.root.symm.trans h'.root)

/-! ## What is never deleted -/

namespace Kept

theorem of_log {db db' : MapDB} (h : Kept db) (es : List (Bytes × Option Bytes))
    (hlog : db'.log = es ++ db.log) (hes : ∀ e ∈ es, e.2 ≠ none) : Kept db' := by
  intro key hmem
  rw [hlog, List.mem_append] at hmem
  rcases hmem with hmem | hmem
  · exact hes _ hmem rfl
  · exact h key hmem

theorem persistRoot (h : Kept t._db) : Kept (t.persistRoot o)._db := by
  unfold MerklePatriciaTrie.persistRoot
  split
  · exact h.of_log [(o.dbKey (o.appliedKey ROOT_DB_KEY), some t._root)] rfl (by simp)
  · exact h

theorem stored (h : Kept t._db) {puts : List BatchDBOp}
    (hputs : ∀ op ∈ puts, ∃ u, u ≠ .empty ∧ op = o.putNode u) (T' : Tree) :
    Kept (t.stored o T' puts)._db := by
  have hbatch : Kept (t._db.batch puts) := by
    refine h.of_log _ (MapDB.log_batch t._db puts) fun e he => ?_
    obtain ⟨op, hop, rfl⟩ := List.mem_map.1 (List.mem_reverse.1 he)
    obtain ⟨u, -, rfl⟩ := hputs op hop
    simp [putNode, BatchDBOp.entry]
  exact persistRoot (t := { _root := o.rootHash T', _db := t._db.batch puts }) hbatch

theorem createInitialNode (h : Kept t._db) {key value : Bytes} {t' : MerklePatriciaTrie}
    (ht' : t.createInitialNode o key value = .ok t') : Kept t'._db := by
  unfold MerklePatriciaTrie.createInitialNode at ht'
  simp only [MerklePatriciaTrie.setRoot_hash, ok_bind, Except.ok.injEq] at ht'
  rw [← ht']
  refine persistRoot ?_
  refine h.of_log [(_, some (MPTNode.leaf (bytesToNibbles key) (.bytes value)).serialize)]
    rfl (by simp)

end Kept

end TsEthereum
