import TsEthereum.Mpt.ValueMap

/-!
# What `getValueMap` returns

Over keys of one length the walk meets the leaves in the order of their keys, which is that
of their numbers. `getValueMap` without a limit lists the bindings of a trie exactly where
the walk covers it (`Walkable`); with a limit its next key is the right one only if no more
than one key is left (`getValueMap_iff`).
-/

namespace TsEthereum

open RadixTree RadixTree.Frames MPTOpts

variable {o : MPTOpts} {t : MerklePatriciaTrie} {T : Tree}

/-! ## The order of the keys -/

theorem ofBigEndian_cons (x : UInt8) (b : Bytes) :
    ofBigEndian (x :: b) = ofBigEndian b + 256 ^ b.length * x.toNat := by
  rw [ofBigEndian, ofBigEndian, List.reverse_cons, List.map_append, Nat.ofDigits_append,
    List.length_map, List.length_reverse]
  simp

theorem ofBigEndian_cons_lt {x y : UInt8} {a b : Bytes} (hlength : a.length = b.length)
    (h : x < y ∨ x = y ∧ ofBigEndian a < ofBigEndian b) :
    ofBigEndian (x :: a) < ofBigEndian (y :: b) := by
  rw [ofBigEndian_cons, ofBigEndian_cons, hlength]
  have ha := ofBigEndian_lt a
  rw [hlength] at ha
  rcases h with hlt | ⟨rfl, hlt⟩
  · have hxy : x.toNat + 1 ≤ y.toNat := UInt8.lt_iff_toNat_lt.1 hlt
    have hmul := Nat.mul_le_mul_left (256 ^ b.length) hxy
    rw [Nat.mul_add, Nat.mul_one] at hmul
    omega
  · omega

theorem length_packed : ∀ arr : Nibbles, (nibblesTypeToPackedBytes arr).length = arr.length / 2
  | [] => rfl
  | [_] => by simp [nibblesTypeToPackedBytes]
  | _ :: _ :: arr => by
    rw [nibblesTypeToPackedBytes, List.length_cons, length_packed arr]
    simp only [List.length_cons]
    omega

theorem packed_lt : ∀ {a b : Nibbles}, a.length % 2 = 0 → a.length = b.length → a < b →
    ofBigEndian (nibblesTypeToPackedBytes a) < ofBigEndian (nibblesTypeToPackedBytes b)
  | [], b, _, hlength, hlt => by
    rw [List.length_eq_zero_iff.1 hlength.symm] at hlt
    exact absurd hlt (lt_irrefl _)
  | [_], _, heven, _, _ => by simp at heven
  | _ :: _ :: _, [], _, hlength, _ => by simp at hlength
  | _ :: _ :: _, [_], _, hlength, _ => by simp at hlength
  | q :: r :: a, q' :: r' :: b, heven, hlength, hlt => by
    have hrest : a.length = b.length := by simpa using hlength
    have heven' : a.length % 2 = 0 := by
      simp only [List.length_cons] at heven
      omega
    have hq := q.isLt
    have hr := r.isLt
    have hq' := q'.isLt
    have hr' := r'.isLt
    have hbyte {x y : Nibble} : (UInt8.ofNat ((x.val <<< 4) + y.val)).toNat = 16 * x.val + y.val := by
      have hx := x.isLt
      have hy := y.isLt
      rw [Nat.shiftLeft_eq, toNat_ofNat (by omega)]
      omega
    rw [nibblesTypeToPackedBytes, nibblesTypeToPackedBytes]
    -- the first byte decides, unless both of its nibbles are the same
    refine ofBigEndian_cons_lt (by rw [length_packed, length_packed, hrest]) ?_
    rw [UInt8.lt_iff_toNat_lt, hbyte, hbyte]
    rcases List.cons_lt_cons_iff.1 hlt with hfirst | ⟨hq, hlt⟩
    · left
      have hfirst : q.val < q'.val := hfirst
      omega
    · rcases List.cons_lt_cons_iff.1 hlt with hsecond | ⟨hr, hlt⟩
      · left
        have hsecond : r.val < r'.val := hsecond
        rw [hq]
        omega
      · exact .inr ⟨by rw [hq, hr], packed_lt heven' hrest hlt⟩

/-! ## The bindings -/

/-- **The bindings of a tree**, in the order of their keys. -/
structure Lists (T : Tree) (B : List (Bytes × NestedUint8Array)) : Prop where
  bound : ∀ key x, (key, x) ∈ B ↔ got (T.lookup (bytesToNibbles key)) = some x
  sorted : B.Pairwise fun e e' => ofBigEndian e.1 < ofBigEndian e'.1

/-- A node with a value, as it would be listed. -/
def packedEntry (found : FoundNode) : Bytes × NestedUint8Array :=
  (nibblesTypeToPackedBytes (entryOf found).1, (entryOf found).2)

/-- The bindings of a tree over keys of one length. -/
def bindingsOf (o : MPTOpts) (T : Tree) : List (Bytes × NestedUint8Array) :=
  (valueNodes o T []).map packedEntry

theorem bindingsOf_eq (T : Tree) :
    bindingsOf o T = T.entries.map fun e => (nibblesTypeToPackedBytes e.1, .bytes e.2.1) := by
  have hmap := congrArg (List.map fun e : Nibbles × NestedUint8Array =>
    (nibblesTypeToPackedBytes e.1, e.2)) (map_entryOf_valueNodes (o := o) T [])
  rw [List.map_map, List.map_map] at hmap
  exact hmap

theorem lists_bindingsOf {n : ℕ} (hkeys : KeysOfLength T (2 * n)) : Lists T (bindingsOf o T) := by
  rw [bindingsOf_eq]
  constructor
  · intro key x
    rw [List.mem_map]
    constructor
    · rintro ⟨⟨k, v⟩, he, heq⟩
      cases heq
      have hlookup := mem_entries.1 he
      have hlength := hkeys k v hlookup
      rw [bytesToNibbles_packed (show k.length % 2 = 0 by omega), hlookup]
      rfl
    · intro hgot
      obtain ⟨v, hlookup, rfl⟩ := Option.map_eq_some_iff.1 hgot
      exact ⟨(bytesToNibbles key, v), mem_entries.2 hlookup, by
        rw [nibblesTypeToPackedBytes_bytesToNibbles]⟩
  · rw [List.pairwise_map]
    refine (pairwise_entries T).imp_of_mem fun he he' hlt => ?_
    have hlength := hkeys _ _ (mem_entries.1 he)
    have hlength' := hkeys _ _ (mem_entries.1 he')
    exact packed_lt (by omega) (by omega) hlt

theorem filterMap_listed (found : List FoundNode) :
    found.filterMap listed = (found.filter fun f => f.1.isLeaf).map packedEntry := by
  induction found with
  | nil => rfl
  | cons f found ih =>
    obtain ⟨node, currentKey⟩ := f
    cases node with
    | leaf nibbles value =>
      rw [List.filterMap_cons, List.filter_cons_of_pos rfl, List.map_cons, ← ih]
      rfl
    | extension nibbles value =>
      rw [List.filterMap_cons, List.filter_cons_of_neg Bool.false_ne_true, ← ih]
      rfl
    | branch branches value =>
      rw [List.filterMap_cons, List.filter_cons_of_neg Bool.false_ne_true, ← ih]
      rfl

/-- Some of the nodes are listed as all of the bindings where they are all of them, and leaves. -/
theorem listed_eq_iff {found : List FoundNode} (hsub : found.Sublist (valueNodes o T [])) :
    found.filterMap listed = bindingsOf o T ↔
      found = valueNodes o T [] ∧ ∀ f ∈ valueNodes o T [], f.1.isLeaf = true := by
  rw [filterMap_listed]
  constructor
  · intro h
    have hlength := congrArg List.length h
    rw [bindingsOf, List.length_map, List.length_map] at hlength
    have hle := hsub.length_le
    have hfilter := List.length_filter_le (fun f : FoundNode => f.1.isLeaf) found
    have hall := hsub.eq_of_length (by omega)
    refine ⟨hall, ?_⟩
    rw [hall] at hlength
    exact List.length_filter_eq_length_iff.1 hlength
  · rintro ⟨rfl, hleaves⟩
    rw [List.filter_eq_self.2 hleaves]
    rfl

theorem pairwise_listed {n : ℕ} (hkeys : KeysOfLength T (2 * n)) {found : List FoundNode}
    (hsub : found.Sublist (valueNodes o T [])) :
    (found.filterMap listed).Pairwise fun e e' => ofBigEndian e.1 < ofBigEndian e'.1 := by
  rw [filterMap_listed]
  exact (lists_bindingsOf (o := o) hkeys).sorted.sublist
    ((List.filter_sublist.trans hsub).map packedEntry)

/-- **No branch has a value.** -/
def LeavesOnly : Tree → Prop
  | .empty => True
  | .leaf _ _ => True
  | .extension _ c => LeavesOnly c
  | .branch cs v => v = none ∧ ∀ i, LeavesOnly (cs i)

theorem leavesOnly_iff (T : Tree) (currentKey : Nibbles) :
    LeavesOnly T ↔ ∀ f ∈ valueNodes o T currentKey, f.1.isLeaf = true := by
  induction T generalizing currentKey with
  | empty => simp [LeavesOnly, valueNodes]
  | leaf p v => simp [LeavesOnly, valueNodes, MPTOpts.node, MPTNode.isLeaf]
  | extension p c ih => exact ih (currentKey ++ p)
  | branch cs v ih =>
    rw [LeavesOnly, valueNodes, List.forall_mem_append]
    refine and_congr ?_ ?_
    · cases v with
      | none => simp
      | some v => simp [MPTOpts.node, MPTNode.isLeaf]
    · simp only [List.mem_flatMap, List.mem_finRange, true_and, forall_exists_index]
      rw [forall_comm]
      exact forall_congr' fun i => ih i (currentKey ++ [i])

/-! ## The whole walk -/

/-- The nodes of a tree as they are written. -/
def encodings (o : MPTOpts) (T : Tree) : List Bytes := (nodesOf T).map o.enc

theorem self_mem_nodesOf (hne : T ≠ .empty) : T ∈ nodesOf T := by
  cases T with
  | empty => exact absurd rfl hne
  | leaf p v => exact List.mem_singleton_self _
  | extension p c => exact List.mem_cons_self
  | branch cs v => exact List.mem_cons_self

theorem below_nodesOf (T : Tree) : T.Below fun c => c ≠ .empty → c ∈ nodesOf T := by
  induction T with
  | empty => trivial
  | leaf p v => trivial
  | extension p c ih =>
    refine ⟨fun hc => List.mem_cons_of_mem _ (self_mem_nodesOf hc), ih.mono fun s hs hne => ?_⟩
    exact List.mem_cons_of_mem _ (hs hne)
  | branch cs v ih =>
    intro i
    have hmem {s : Tree} (hs : s ∈ nodesOf (cs i)) : s ∈ nodesOf (.branch cs v) :=
      List.mem_cons_of_mem _ (List.mem_flatMap.2 ⟨i, List.mem_finRange i, hs⟩)
    exact ⟨fun hc => hmem (self_mem_nodesOf hc), (ih i).mono fun s hs hne => hmem (hs hne)⟩

/-- **What is looked up under the hash of a node is the node**, where no two of the strings hashed
collide. -/
theorem Represents.looksUp (h : Represents o t T)
    (hinj : Set.InjOn o.hash (hashedStrings o t._db ∪ { b | b ∈ encodings o T })) {s : Tree}
    (hs : s ≠ .empty) (hmem : s ∈ nodesOf T) (hlen : (o.enc s).length < arrayBound) :
    LooksUp o t s := by
  have henc : o.enc s ∈ hashedStrings o t._db ∪ { b | b ∈ encodings o T } :=
    .inr (List.mem_map_of_mem hmem)
  refine ⟨fun hc => enc_ne_emptyString hs (hinj henc (.inl (.inl rfl)) hc), ?_⟩
  refine lookupNode_of_get hs hlen fun value hv => ?_
  have hlog := MapDB.mem_log_of_get hv
  rcases h.addressed _ _ hlog with hkey | hkey
  · have hhash := dbKey_injective hkey
    refine (hinj henc (.inl (.inr (.inr ?_))) hhash).symm
    unfold Logged
    rwa [← hhash]
  · -- the root's own key is no hash of a node
    have hhash : o.hash (o.enc s) = o.appliedKey ROOT_DB_KEY := dbKey_injective hkey
    unfold appliedKey at hhash
    split at hhash
    · next hk =>
      exact absurd (hinj henc (.inl (.inr (.inl ⟨hk, rfl⟩))) hhash) (enc_ne_rootKey hs)
    · have hlength := congrArg List.length hhash
      rw [length_hash] at hlength
      simp [ROOT_DB_KEY] at hlength

theorem Represents.lookupNode_null (h : Represents o t T) :
    ∃ e, t.lookupNode o .null = .error e := by
  have hget : t._db.get (o.dbKey []) = none := by
    by_contra hne
    obtain ⟨value, hvalue⟩ := Option.ne_none_iff_exists'.1 hne
    rcases h.addressed _ _ (MapDB.mem_log_of_get hvalue) with hkey | hkey
    · have hlength := congrArg List.length (dbKey_injective hkey)
      rw [length_hash] at hlength
      cases hlength
    · have hlength := congrArg List.length (dbKey_injective hkey)
      unfold appliedKey at hlength
      split at hlength
      · rw [length_hash] at hlength
        cases hlength
      · cases hlength
  refine ⟨.missingNode, ?_⟩
  rw [MerklePatriciaTrie.lookupNode, hget]

/-- **The walk can go everywhere**: every node is where it looks it up, no two of them are alike, and
only leaves have values. -/
structure Walkable (o : MPTOpts) (t : MerklePatriciaTrie) (T : Tree) : Prop where
  root : T ≠ .empty → StoredAlone o t T
  reached : Reached o t T
  distinct : (encodings o T).Nodup
  leaves : LeavesOnly T

/-- **`walkAllValueNodes` meets some of the nodes with values, and all of them where it can go
everywhere.** -/
theorem Represents.walkAllValueNodes (h : Represents o t T) (hfree : CollisionFree o t._db)
    (hinj : Set.InjOn o.hash (hashedStrings o t._db ∪ { b | b ∈ encodings o T })) {n : ℕ}
    (hkeys : KeysOfLength T n) {fuel : ℕ} (hfuel : n + 1 < fuel) :
    ∃ found, t.walkAllValueNodes o fuel = some found ∧ found.Sublist (valueNodes o T []) ∧
      (found = valueNodes o T [] ↔
        (T ≠ .empty → StoredAlone o t T) ∧ Reached o t T ∧ (encodings o T).Nodup) := by
  rw [MerklePatriciaTrie.walkAllValueNodes, h.root]
  obtain ⟨fuel, rfl⟩ : ∃ m, fuel = m + 1 := ⟨fuel - 1, by omega⟩
  rcases eq_or_ne T .empty with rfl | hne
  · refine ⟨[], ?_, List.Sublist.slnil, ?_⟩
    · rw [rootHash_empty, MerklePatriciaTrie.walkTrie, if_pos rfl]
      rfl
    · exact iff_of_true rfl ⟨fun hc => absurd rfl hc, trivial, List.nodup_nil⟩
  · have hup {s : Tree} (hs : s ≠ .empty) (hmem : s ∈ nodesOf T)
        (hlog : 32 ≤ (o.enc s).length → Logged o t._db (o.enc s)) : LooksUp o t s := by
      refine h.looksUp hinj hs hmem ?_
      rcases Nat.lt_or_ge (o.enc s).length 32 with hlt | hle
      · exact hlt.trans (by norm_num)
      · exact hfree.bounded _ (.inr (.inr (hlog hle)))
    have hbelow : T.Below fun c => c ≠ .empty → LooksUp o t c := by
      refine (h.below.and (below_nodesOf T)).mono fun c hc hne => ?_
      exact hup hne (hc.2 hne) hc.1
    obtain ⟨hroot, halone⟩ := hup hne (self_mem_nodesOf hne) fun _ => h.rootLogged hne
    have hcovers := walkTrie_covers hne h.live h.lookupNode_null hbelow hkeys hfuel
      (fun hc => hroot (NestedUint8Array.bytes.inj hc))
      (t._db.get (o.dbKey (o.rootHash T)) ≠ none) (by rw [halone, ite_not]) []
    obtain ⟨found, visited, hwalk, hsub, hall, -⟩ := hcovers []
    refine ⟨found, by rw [hwalk]; rfl, hsub, hall.trans ?_⟩
    -- hashes differ where the nodes do
    have hnodup : ((nodesOf T).map o.rootHash).Nodup ↔ (encodings o T).Nodup := by
      have hmap : (nodesOf T).map o.rootHash = (encodings o T).map o.hash := by
        rw [encodings, List.map_map]
        rfl
      rw [hmap]
      refine ⟨List.Nodup.of_map _, fun hnodup => hnodup.map_on fun b hb c hc heq => ?_⟩
      exact hinj (.inr hb) (.inr hc) heq
    rw [hnodup, imp_iff_right hne, StoredAlone, and_assoc]
    simp only [List.disjoint_nil_right, and_true]

/-! ## Pages -/

/-- **Paging**: so many calls at most, each from the next key of the one before. -/
def pages (o : MPTOpts) (t : MerklePatriciaTrie) (fuel limit : ℕ) :
    ℕ → ℤ → Option (List (Bytes × NestedUint8Array))
  | 0, _ => some []
  | calls + 1, startKey => do
    let (values, nextKey) ← getValueMap o t fuel startKey (some limit)
    match nextKey with
    | none => some values
    | some nextKey =>
      let rest ← pages o t fuel limit calls (ofBigEndian nextKey)
      some (values ++ rest)

variable {B : List (Bytes × NestedUint8Array)} {startKey : ℤ} {limit : ℕ}

theorem entriesFrom_last (hsorted : B.Pairwise fun e e' => ofBigEndian e.1 < ofBigEndian e'.1)
    {init : List (Bytes × NestedUint8Array)} {last : Bytes × NestedUint8Array}
    (hlast : entriesFrom startKey B = init ++ [last]) :
    entriesFrom (ofBigEndian last.1) B = [last] := by
  have hmem : last ∈ entriesFrom startKey B := by
    rw [hlast]
    exact List.mem_append_right _ (List.mem_singleton_self last)
  have hstart : startKey ≤ (ofBigEndian last.1 : ℤ) := of_decide_eq_true (List.mem_filter.1 hmem).2
  have hfilter : entriesFrom (ofBigEndian last.1) B =
      entriesFrom (ofBigEndian last.1) (entriesFrom startKey B) := by
    rw [entriesFrom, entriesFrom, entriesFrom, List.filter_filter]
    refine List.filter_congr fun e _ => ?_
    rw [Bool.eq_iff_iff, Bool.and_eq_true, decide_eq_true_eq, decide_eq_true_eq]
    exact ⟨fun hle => ⟨hle, hstart.trans hle⟩, fun hle => hle.1⟩
  have hapart := hsorted.sublist (List.filter_sublist (p := fun e => startKey ≤ (ofBigEndian e.1 : ℤ)))
  change (entriesFrom startKey B).Pairwise _ at hapart
  rw [hlast] at hapart
  rw [hfilter, hlast, entriesFrom, List.filter_append, List.filter_eq_nil_iff.2, List.nil_append]
  · exact List.filter_cons_of_pos (by simp)
  · intro e he hle
    have hlt := (List.pairwise_append.1 hapart).2.2 e he last (List.mem_singleton_self last)
    have hle := of_decide_eq_true hle
    omega

theorem getLast?_drop_eq_iff (hnodup : (B.map Prod.fst).Nodup) :
    (B.drop limit).getLast?.map Prod.fst = B[limit]?.map Prod.fst ↔ B.length ≤ limit + 1 := by
  rw [List.getLast?_drop]
  by_cases hle : B.length ≤ limit
  · rw [if_pos hle, List.getElem?_eq_none hle]
    exact iff_of_true rfl (by omega)
  · rw [if_neg hle, List.getLast?_eq_getElem?, ← List.getElem?_map, ← List.getElem?_map]
    have hlimit : limit < (B.map Prod.fst).length := by
      rw [List.length_map]
      omega
    have hlast : B.length - 1 < (B.map Prod.fst).length := by
      rw [List.length_map]
      omega
    rw [List.getElem?_eq_getElem hlimit, List.getElem?_eq_getElem hlast, Option.some.injEq,
      hnodup.getElem_inj_iff]
    omega

/-- **`getValueMap` lists the bindings** exactly where the walk can go everywhere, and pages through
them where besides at most one key is left after a page. For every trie over keys of one length,
built by `put` and `del` with any options, and as long as no two of the strings hashed collide:
without a limit it returns each binding once, with one the first so many from the start
key on and the next key, and paging by that comes to each key once, if and only if so. -/
theorem getValueMap_iff (ops : List TrieOp)
    (hfree : ∀ pre t, pre <+: ops → run (MerklePatriciaTrie.step o) (.create o) pre = .ok t →
      CollisionFree o t._db)
    (ht : run (MerklePatriciaTrie.step o) (.create o) ops = .ok t) (hT : Represents o t T)
    (hinj : Set.InjOn o.hash (hashedStrings o t._db ∪ { b | b ∈ encodings o T })) {n : ℕ}
    (hkeys : KeysOfLength T (2 * n)) {fuel : ℕ} (hfuel : 2 * n + 1 < fuel) (startKey : ℤ)
    (limit : ℕ) :
    ∃ B, Lists T B ∧
      (getValueMap o t fuel 0 none = some (B, none) ∧
          getValueMap o t fuel startKey (some limit) =
            some ((entriesFrom startKey B).take limit,
              (entriesFrom startKey B)[limit]?.map Prod.fst) ∧
          (0 < limit → ∃ enough, ∀ calls ≥ enough,
            pages o t fuel limit calls startKey = some (entriesFrom startKey B)) ↔
        Walkable o t T ∧ (entriesFrom startKey B).length ≤ limit + 1) := by
  have hfree' := hfree ops t List.prefix_rfl ht
  obtain ⟨found, hwalk, hsub, hall⟩ := hT.walkAllValueNodes hfree' hinj hkeys hfuel
  have hlists := lists_bindingsOf (o := o) hkeys
  have hlisted := listed_eq_iff hsub
  have hsorted := pairwise_listed hkeys hsub
  refine ⟨bindingsOf o T, hlists, ?_⟩
  have hnodup : ((entriesFrom startKey (bindingsOf o T)).map Prod.fst).Nodup :=
    ValueMap.nodup_keys (hlists.sorted.sublist List.filter_sublist)
  rw [getValueMap_none hwalk hsorted, getValueMap_some hwalk hsorted, Option.some.injEq,
    Option.some.injEq, Prod.mk.injEq, Prod.mk.injEq]
  constructor
  · rintro ⟨⟨hvalues, -⟩, ⟨-, hnext⟩, -⟩
    obtain ⟨hfound, hleaves⟩ := hlisted.1 hvalues
    obtain ⟨hroot, hreached, hdistinct⟩ := hall.1 hfound
    rw [hvalues, getLast?_drop_eq_iff hnodup] at hnext
    exact ⟨⟨hroot, hreached, hdistinct, (leavesOnly_iff T []).2 hleaves⟩, hnext⟩
  · rintro ⟨⟨hroot, hreached, hdistinct, hleaves⟩, hlength⟩
    have hvalues := hlisted.2
      ⟨hall.2 ⟨hroot, hreached, hdistinct⟩, (leavesOnly_iff (o := o) T []).1 hleaves⟩
    rw [hvalues, getLast?_drop_eq_iff hnodup]
    refine ⟨⟨rfl, rfl⟩, ⟨rfl, hlength⟩, fun hpos => ⟨2, fun calls hcalls => ?_⟩⟩
    obtain ⟨calls, rfl⟩ : ∃ c, calls = c + 2 := ⟨calls - 2, by omega⟩
    -- one page, or the last key on a second
    have hpage (startKey : ℤ) := getValueMap_some hwalk hsorted startKey limit
    rw [hvalues] at hpage
    rw [pages, hpage]
    rcases Nat.lt_or_ge limit (entriesFrom startKey (bindingsOf o T)).length with hlt | hge
    · obtain ⟨last, hlast⟩ : ∃ last, (entriesFrom startKey (bindingsOf o T)).drop limit = [last] :=
        List.length_eq_one_iff.1 (by rw [List.length_drop]; omega)
      have hsplit := List.take_append_drop limit (entriesFrom startKey (bindingsOf o T))
      rw [hlast] at hsplit
      have hrest := entriesFrom_last hlists.sorted hsplit.symm
      rw [hlast]
      simp only [List.getLast?_singleton, Option.map_some, Option.bind_eq_bind, Option.bind_some]
      rw [pages, hpage, hrest, List.take_of_length_le (show [last].length ≤ limit from hpos),
        List.drop_of_length_le (show [last].length ≤ limit from hpos)]
      exact congrArg some hsplit
    · rw [List.drop_of_length_le hge, List.take_of_length_le hge]
      rfl

/-! ## A key that is not listed -/

/-- A trie that does not prune, over the hash of the shared leaf. -/
def plainLeafOpts : MPTOpts where
  useKeyHashing := false
  useKeyHashingFunction := sharedLeafOpts.useKeyHashingFunction
  keyPrefix := none
  useRootPersistence := false
  useNodePruning := false

/-- The value of both keys. -/
def sharedValue : Value := ⟨List.replicate 32 7, by decide⟩

/-- Two keys with one value. -/
def plainLeafOps : List TrieOp :=
  [.put [0x00, 0xaa] (List.replicate 32 7) false, .put [0x10, 0xaa] (List.replicate 32 7) false]

/-- The tries that the first one, and both, leave. -/
def plainLeafTrie (count : ℕ) : MerklePatriciaTrie :=
  match run (MerklePatriciaTrie.step plainLeafOpts) (.create plainLeafOpts)
    (plainLeafOps.take count) with
  | .ok t => t
  | .error _ => .create plainLeafOpts

/-- And their trees. -/
def plainLeafTree : ℕ → Tree
  | 0 => .empty
  | 1 => (RadixTree.empty : Tree).insert (bytesToNibbles [0x00, 0xaa]) sharedValue
  | _ => ((RadixTree.empty : Tree).insert (bytesToNibbles [0x00, 0xaa]) sharedValue).insert
      (bytesToNibbles [0x10, 0xaa]) sharedValue

theorem plainLeaf_free (pre : List TrieOp) (t : MerklePatriciaTrie) (hpre : pre <+: plainLeafOps)
    (ht : run (MerklePatriciaTrie.step plainLeafOpts) (.create plainLeafOpts) pre = .ok t) :
    CollisionFree plainLeafOpts t._db :=
  .of_inits (by decide +kernel) hpre ht

theorem put_plainLeaf_one : (MerklePatriciaTrie.create plainLeafOpts).put plainLeafOpts
    [0x00, 0xaa] sharedValue false = .ok (plainLeafTrie 1) := by
  decide +kernel

theorem put_plainLeaf_two : (plainLeafTrie 1).put plainLeafOpts [0x10, 0xaa] sharedValue false =
    .ok (plainLeafTrie 2) := by
  decide +kernel

theorem run_plainLeaf {count : ℕ} (hcount : count = 1 ∨ count = 2) :
    run (MerklePatriciaTrie.step plainLeafOpts) (.create plainLeafOpts)
      (plainLeafOps.take count) = .ok (plainLeafTrie count) := by
  rcases hcount with rfl | rfl
  · decide +kernel
  · decide +kernel

theorem plainLeaf_represents_one : Kept (plainLeafTrie 1)._db ∧
    Represents plainLeafOpts (plainLeafTrie 1) (plainLeafTree 1) := by
  obtain ⟨t, ht, hkept, hT⟩ : ∃ t, (MerklePatriciaTrie.create plainLeafOpts).put plainLeafOpts
      [0x00, 0xaa] sharedValue false = .ok t ∧ Kept t._db ∧
        Represents plainLeafOpts t (plainLeafTree 1) :=
    represents_create.put (plainLeaf_free [] _ List.nil_prefix rfl) (fun _ => List.not_mem_nil) rfl
      (fun hc => Bool.false_ne_true hc.1) sharedValue false
  obtain rfl := Except.ok.inj (ht.symm.trans put_plainLeaf_one)
  exact ⟨hkept, hT⟩

theorem plainLeaf_represents_two :
    Represents plainLeafOpts (plainLeafTrie 2) (plainLeafTree 2) := by
  obtain ⟨hkept, hT⟩ := plainLeaf_represents_one
  obtain ⟨t, ht, -, hT'⟩ : ∃ t, (plainLeafTrie 1).put plainLeafOpts
      [0x10, 0xaa] sharedValue false = .ok t ∧ Kept t._db ∧
        Represents plainLeafOpts t (plainLeafTree 2) :=
    hT.put (plainLeaf_free _ _ (List.take_prefix 1 _) (run_plainLeaf (.inl rfl))) hkept rfl
      (fun hc => Bool.false_ne_true hc.1) sharedValue false
  obtain rfl := Except.ok.inj (ht.symm.trans put_plainLeaf_two)
  exact hT'

theorem plainLeaf_inj {count : ℕ} (hcount : count = 1 ∨ count = 2) :
    Set.InjOn plainLeafOpts.hash (hashedStrings plainLeafOpts (plainLeafTrie count)._db ∪
      { b | b ∈ encodings plainLeafOpts (plainLeafTree count) }) := by
  have hlogged : ∀ b ∈ encodings plainLeafOpts (plainLeafTree count),
      (plainLeafOpts.dbKey (plainLeafOpts.hash b), some b) ∈ (plainLeafTrie count)._db.log := by
    rcases hcount with rfl | rfl
    · decide +kernel
    · decide +kernel
  have hsub : hashedStrings plainLeafOpts (plainLeafTrie count)._db ∪
      { b | b ∈ encodings plainLeafOpts (plainLeafTree count) } =
        hashedStrings plainLeafOpts (plainLeafTrie count)._db :=
    Set.union_eq_left.2 fun b hb => .inr (.inr (hlogged b hb))
  rw [hsub]
  exact (plainLeaf_free _ _ (List.take_prefix count _) (run_plainLeaf hcount)).inj

theorem plainLeaf_keys {count : ℕ} (hcount : count = 1 ∨ count = 2) :
    KeysOfLength (plainLeafTree count) (2 * 2) := by
  intro k v hk
  by_contra hne
  have hother : k ≠ bytesToNibbles [0x00, 0xaa] ∧ k ≠ bytesToNibbles [0x10, 0xaa] := by
    constructor
    · rintro rfl
      exact hne rfl
    · rintro rfl
      exact hne rfl
  rcases hcount with rfl | rfl
  · rw [plainLeafTree, lookup_insert, Function.update_of_ne hother.1] at hk
    cases hk
  · rw [plainLeafTree, lookup_insert, Function.update_of_ne hother.2, lookup_insert,
      Function.update_of_ne hother.1] at hk
    cases hk
    · exact fun hc => absurd hc (by decide)
    · exact fun hc => absurd hc (by decide)

/-- The first key is listed. -/
theorem getValueMap_iff_plainLeaf :
    ∃ B, Lists (plainLeafTree 1) B ∧
      (getValueMap plainLeafOpts (plainLeafTrie 1) 6 0 none = some (B, none) ∧
          getValueMap plainLeafOpts (plainLeafTrie 1) 6 5 (some 1) =
            some ((entriesFrom 5 B).take 1, (entriesFrom 5 B)[1]?.map Prod.fst) ∧
          (0 < 1 → ∃ enough, ∀ calls ≥ enough,
            pages plainLeafOpts (plainLeafTrie 1) 6 1 calls 5 = some (entriesFrom 5 B)) ↔
        Walkable plainLeafOpts (plainLeafTrie 1) (plainLeafTree 1) ∧
          (entriesFrom 5 B).length ≤ 1 + 1) :=
  getValueMap_iff (plainLeafOps.take 1)
    (fun pre t hpre ht => plainLeaf_free pre t (hpre.trans (List.take_prefix 1 _)) ht)
    (run_plainLeaf (.inl rfl)) plainLeaf_represents_one.2 (plainLeaf_inj (.inl rfl))
    (plainLeaf_keys (.inl rfl)) (by decide) 5 1

/-- **A key that is not listed**: it has the leaf of another, which was visited. -/
theorem getValueMap_skips :
    ¬ ∀ (o : MPTOpts) (ops : List TrieOp) (t : MerklePatriciaTrie) (T : Tree),
      (∀ pre t, pre <+: ops → run (MerklePatriciaTrie.step o) (.create o) pre = .ok t →
        CollisionFree o t._db) →
      run (MerklePatriciaTrie.step o) (.create o) ops = .ok t → Represents o t T →
      Set.InjOn o.hash (hashedStrings o t._db ∪ { b | b ∈ encodings o T }) →
      ∀ n, KeysOfLength T (2 * n) → ∀ fuel, 2 * n + 1 < fuel →
        ∃ B, Lists T B ∧ getValueMap o t fuel 0 none = some (B, none) := by
  intro h
  obtain ⟨B, hB, hmap⟩ := h plainLeafOpts plainLeafOps (plainLeafTrie 2) (plainLeafTree 2)
    plainLeaf_free (run_plainLeaf (.inr rfl)) plainLeaf_represents_two (plainLeaf_inj (.inr rfl)) 2
    (plainLeaf_keys (.inr rfl)) 6 (by decide)
  have hlist : getValueMap plainLeafOpts (plainLeafTrie 2) 6 0 none =
      some ([([0x00, 0xaa], .bytes sharedValue)], none) := by
    decide +kernel
  have hsecond : got ((plainLeafTree 2).lookup (bytesToNibbles [0x10, 0xaa])) =
      some (.bytes sharedValue) := by
    decide +kernel
  have hmem := (hB.bound _ _).2 hsecond
  rw [hlist] at hmap
  cases hmap
  exact absurd hmem (by decide)

end TsEthereum
