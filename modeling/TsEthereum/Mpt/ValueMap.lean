import TsEthereum.Common.JsMap
import TsEthereum.Common.Padding
import TsEthereum.Common.RadixTree.Entries
import TsEthereum.Common.Visits
import TsEthereum.Mpt.Missing

/-!
# The values of a trie, walked

`_walkTrie` goes through a trie node by node, skips the nodes it has visited, and where a
node cannot be read goes on beside it. A child of a branch it looks up under its hash, also
where the child is short and stands in the branch itself. So it finds all there is exactly
where each of these is stored, and no two nodes are alike (`walkTrie_covers`).

`getValueMap` lists the leaves it finds. It notes the next key again at each leaf after the
last one listed, and returns the last of all.
-/

namespace TsEthereum

open RadixTree RadixTree.Frames MPTOpts

variable {o : MPTOpts} {t : MerklePatriciaTrie} {T : Tree}

/-! ## The walk -/

/-- A node that was found, and the key so far. -/
abbrev FoundNode := MPTNode × Nibbles

/-- What a child of a branch is looked up under: its hash, or the hash of what it is. -/
def MPTOpts.childHash (o : MPTOpts) : NestedUint8Array → NestedUint8Array
  | .bytes hash => .bytes hash
  | .list raw => .bytes (o.hash (Rlp.encode (.list raw)))

namespace MerklePatriciaTrie

variable (o : MPTOpts) (t : MerklePatriciaTrie)

/-- What is below a node: the children of a branch one by one, or what an extension refers to. -/
def walkBelow (walk : NestedUint8Array → Nibbles → Visits Bytes FoundNode) (currentKey : Nibbles) :
    MPTNode → Visits Bytes FoundNode
  | .branch branches _ =>
    Visits.sequence <| (List.finRange 16).map fun nibble =>
      walk (o.childHash (branches nibble)) (currentKey ++ [nibble])
  | .extension nibbles childNode => walk childNode (currentKey ++ nibbles)
  | .leaf _ _ => Visits.skip

/-- **`_walkTrie`**: the nodes that pass the filter. An error ends it where it is. -/
def walkTrie (filter : MPTNode → Bool) :
    ℕ → NestedUint8Array → Nibbles → Visits Bytes FoundNode
  | 0, _, _ => fun _ => none
  | fuel + 1, nodeHash, currentKey =>
    if nodeHash = .bytes o.EMPTY_TRIE_ROOT then Visits.skip
    else
      match t.lookupNode o nodeHash with
      | .error _ => Visits.skip
      | .ok node =>
        Visits.visit (o.hash node.serialize) (if filter node then [(node, currentKey)] else [])
          (walkBelow o (walkTrie filter fuel) currentKey node)

/-- The filter of `walkAllValueNodes`. -/
def isValueNode : MPTNode → Bool
  | .leaf _ _ => true
  | .branch branches value => (MPTNode.branch branches value).value.isSome
  | .extension _ _ => false

/-- **`walkAllValueNodes`**: what its callback is called with. -/
def walkAllValueNodes (fuel : ℕ) : Option (List FoundNode) :=
  (t.walkTrie o isValueNode fuel (.bytes t._root) [] []).map Prod.fst

end MerklePatriciaTrie

/-- Where `getValueMap` is. -/
structure ValueMap where
  inRange : Bool
  i : ℕ
  values : JsMap Bytes NestedUint8Array
  nextKey : Option Bytes

namespace ValueMap

variable (startKey : ℤ) (limit : Option ℕ)

/-- A leaf is listed, or its key is noted. -/
def addLeaf (m : ValueMap) (keyBytes : Bytes) (value : NestedUint8Array) : ValueMap :=
  if m.inRange = false ∧ (ofBigEndian keyBytes : ℤ) < startKey then m
  else if ∀ l ∈ limit, m.i < l then
    { m with inRange := true, i := m.i + 1, values := m.values.set keyBytes value }
  else if limit = some m.i then { m with inRange := true, nextKey := some keyBytes }
  else { m with inRange := true }

/-- The callback of `getValueMap`. -/
def onFound (m : ValueMap) (found : FoundNode) : ValueMap :=
  match found.1 with
  | .leaf nibbles value =>
    m.addLeaf startKey limit (nibblesTypeToPackedBytes (found.2 ++ nibbles)) value
  | _ => m

end ValueMap

/-- **`getValueMap`**: the values and the next key. -/
def getValueMap (o : MPTOpts) (t : MerklePatriciaTrie) (fuel : ℕ) (startKey : ℤ)
    (limit : Option ℕ) : Option (List (Bytes × NestedUint8Array) × Option Bytes) :=
  (t.walkAllValueNodes o fuel).map fun found =>
    let m := found.foldl (ValueMap.onFound startKey limit) ⟨limit.isNone, 0, .empty, none⟩
    (m.values.entries, m.nextKey)

/-! ## What the walk covers -/

/-- The nodes of a tree that have a value, with the key down to each. -/
def valueNodes (o : MPTOpts) : Tree → Nibbles → List FoundNode
  | .empty, _ => []
  | .leaf p v, currentKey => [(o.node (.leaf p v), currentKey)]
  | .extension p c, currentKey => valueNodes o c (currentKey ++ p)
  | .branch cs v, currentKey =>
    (if v.isSome then [(o.node (.branch cs v), currentKey)] else []) ++
      (List.finRange 16).flatMap fun i => valueNodes o (cs i) (currentKey ++ [i])

/-- The key and the value of a node. -/
def entryOf (found : FoundNode) : Nibbles × NestedUint8Array :=
  (found.2 ++ found.1.key, found.1._value)

theorem map_entryOf_valueNodes (T : Tree) (currentKey : Nibbles) :
    (valueNodes o T currentKey).map entryOf =
      T.entries.map fun e => (currentKey ++ e.1, .bytes e.2.1) := by
  induction T generalizing currentKey with
  | empty => rfl
  | leaf p v => rfl
  | extension p c ih =>
    rw [valueNodes, ih, entries, List.map_map]
    refine List.map_congr_left fun e _ => ?_
    rw [Function.comp_apply, List.append_assoc]
  | branch cs v ih =>
    rw [valueNodes, entries, List.map_append, List.map_append, List.map_flatMap, List.map_flatMap]
    congr 1
    · cases v with
      | none => rfl
      | some v =>
        simp only [Option.isSome_some, if_true, List.map_cons, List.map_nil, Option.toList_some,
          entryOf, MPTOpts.node, MPTNode.key, MPTNode._value]
        rfl
    · refine List.flatMap_congr fun i _ => ?_
      rw [ih, List.map_map]
      refine List.map_congr_left fun e _ => ?_
      rw [Function.comp_apply, List.append_assoc]
      rfl

theorem valueNodes_ne_nil (hlive : T.Live) (hne : T ≠ .empty) (currentKey : Nibbles) :
    valueNodes o T currentKey ≠ [] := by
  intro hnil
  obtain ⟨k, v, hk⟩ := hlive.exists_lookup hne
  have hmem := mem_entries.2 hk
  have hmap := map_entryOf_valueNodes (o := o) T currentKey
  rw [hnil, List.map_nil, eq_comm, List.map_eq_nil_iff] at hmap
  rw [hmap] at hmem
  cases hmem

/-- The nodes of a tree, each where it stands. -/
def nodesOf : Tree → List Tree
  | .empty => []
  | .leaf p v => [.leaf p v]
  | .extension p c => .extension p c :: nodesOf c
  | .branch cs v => .branch cs v :: (List.finRange 16).flatMap fun i => nodesOf (cs i)

/-- A node is in the store under its hash, also a short one. -/
def StoredAlone (o : MPTOpts) (t : MerklePatriciaTrie) (s : Tree) : Prop :=
  t._db.get (o.dbKey (o.rootHash s)) ≠ none

/-- **Every node is reached**: the children of branches are stored under their hashes, short or not,
and what is below an extension is stored where it does not stand in it. -/
def Reached (o : MPTOpts) (t : MerklePatriciaTrie) : Tree → Prop
  | .empty => True
  | .leaf _ _ => True
  | .extension _ c => (32 ≤ (o.enc c).length → StoredAlone o t c) ∧ Reached o t c
  | .branch cs _ => ∀ i, (cs i ≠ .empty → StoredAlone o t (cs i)) ∧ Reached o t (cs i)

/-- What looking a node up comes to. -/
structure LooksUp (o : MPTOpts) (t : MerklePatriciaTrie) (s : Tree) : Prop where
  hash_ne : o.rootHash s ≠ o.EMPTY_TRIE_ROOT
  alone : t.lookupNode o (.bytes (o.rootHash s)) =
    if t._db.get (o.dbKey (o.rootHash s)) = none then .error .missingNode else .ok (o.node s)

theorem LooksUp.ref {s : Tree} (h : LooksUp o t s) (hs : s ≠ .empty) :
    o.ref s ≠ .bytes o.EMPTY_TRIE_ROOT ∧
      t.lookupNode o (o.ref s) =
        if 32 ≤ (o.enc s).length ∧ t._db.get (o.dbKey (o.rootHash s)) = none then
          .error .missingNode
        else .ok (o.node s) := by
  rcases Nat.lt_or_ge (o.enc s).length 32 with hlt | hle
  · rw [ref_of_lt hs hlt, if_neg (by omega)]
    constructor
    · intro hc
      cases hc
    · exact decodeRawMPTNode_raw (o.node s)
  · rw [ref_of_le hle, h.alone]
    refine ⟨fun hc => h.hash_ne (NestedUint8Array.bytes.inj hc), ?_⟩
    simp [hle]

theorem childHash_ref {s : Tree} (hs : s ≠ .empty) :
    o.childHash (o.ref s) = .bytes (o.rootHash s) := by
  rcases Nat.lt_or_ge (o.enc s).length 32 with hlt | hle
  · rw [ref_of_lt hs hlt, childHash, rootHash, enc, raw_eq_list hs]
  · rw [ref_of_le hle, childHash]

/-- Keys of one length. -/
def KeysOfLength (T : Tree) (n : ℕ) : Prop := ∀ k v, T.lookup k = some v → k.length = n

theorem KeysOfLength.extension {p : Nibbles} {c : Tree} {n : ℕ}
    (h : KeysOfLength (.extension p c) n) : KeysOfLength c (n - p.length) := by
  intro k v hk
  have hlength := h (p ++ k) v (by simpa using hk)
  rw [List.length_append] at hlength
  omega

theorem KeysOfLength.branch {cs : Nibble → Tree} {w : Option Value} {n : ℕ}
    (h : KeysOfLength (.branch cs w) n) (i : Nibble) : KeysOfLength (cs i) (n - 1) := by
  intro k v hk
  have hlength := h (i :: k) v hk
  rw [List.length_cons] at hlength
  omega

theorem KeysOfLength.length_le {p : Nibbles} {c : Tree} {n : ℕ} (hlive : c.Live) (hc : c ≠ .empty)
    (h : KeysOfLength (.extension p c) n) : p.length ≤ n := by
  obtain ⟨k, v, hk⟩ := hlive.exists_lookup hc
  have hlength := h (p ++ k) v (by simpa using hk)
  rw [List.length_append] at hlength
  omega

theorem KeysOfLength.pos {cs : Nibble → Tree} {w : Option Value} {n : ℕ} {i : Nibble}
    (hlive : (cs i).Live) (hi : cs i ≠ .empty) (h : KeysOfLength (.branch cs w) n) : 0 < n := by
  obtain ⟨k, v, hk⟩ := hlive.exists_lookup hi
  have hlength := h (i :: k) v hk
  rw [List.length_cons] at hlength
  omega

theorem isValueNode_branch (cs : Nibble → Tree) (v : Option Value) :
    MerklePatriciaTrie.isValueNode (o.node (.branch cs v)) = v.isSome := by
  have hvalue := congrArg Option.isSome (value_node_branch (o := o) cs v)
  rwa [Option.isSome_map] at hvalue

theorem walkTrie_lookup (filter : MPTNode → Bool) (fuel : ℕ) {nodeHash : NestedUint8Array}
    (currentKey : Nibbles) {node : MPTNode} {full : List FoundNode} {digests : List Bytes}
    {can found : Prop} [Decidable found] (hhash : nodeHash ≠ .bytes o.EMPTY_TRIE_ROOT)
    (hlookup : t.lookupNode o nodeHash = if found then .ok node else .error .missingNode)
    (hbelow : (MerklePatriciaTrie.walkBelow o (t.walkTrie o filter fuel) currentKey node).Covers
      full digests can)
    (hne : (if filter node then [(node, currentKey)] else []) ++ full ≠ []) :
    (t.walkTrie o filter (fuel + 1) nodeHash currentKey).Covers
      ((if filter node then [(node, currentKey)] else []) ++ full)
      (o.hash node.serialize :: digests) (found ∧ can) := by
  rw [MerklePatriciaTrie.walkTrie, if_neg hhash, hlookup]
  by_cases hfound : found
  · rw [if_pos hfound]
    exact (Visits.covers_visit hbelow hne).congr (by rw [and_iff_right hfound])
  · rw [if_neg hfound]
    exact Visits.covers_blocked hne fun hc => hfound hc.1

/-- **The walk from a node on covers what its tree stores**, by induction on the tree: every value
where every node is reached, and no two of them have one hash. -/
theorem walkTrie_covers {s : Tree} (hs : s ≠ .empty) (hlive : s.Live)
    (hnull : ∃ e, t.lookupNode o .null = .error e)
    (hup : s.Below fun c => c ≠ .empty → LooksUp o t c) {n : ℕ} (hkeys : KeysOfLength s n)
    {fuel : ℕ} (hfuel : n + 1 < fuel) {nodeHash : NestedUint8Array}
    (hhash : nodeHash ≠ .bytes o.EMPTY_TRIE_ROOT) (found : Prop) [Decidable found]
    (hlookup : t.lookupNode o nodeHash =
      if found then .ok (o.node s) else .error .missingNode) (currentKey : Nibbles) :
    (t.walkTrie o MerklePatriciaTrie.isValueNode fuel nodeHash currentKey).Covers
      (valueNodes o s currentKey) ((nodesOf s).map o.rootHash) (found ∧ Reached o t s) := by
  have hfull := valueNodes_ne_nil (o := o) hlive hs currentKey
  obtain ⟨fuel, rfl⟩ : ∃ m, fuel = m + 1 := ⟨fuel - 1, by omega⟩
  induction s generalizing n nodeHash fuel currentKey found with
  | empty => exact absurd rfl hs
  | leaf p v =>
    have hcovers := walkTrie_lookup MerklePatriciaTrie.isValueNode fuel currentKey hhash hlookup
      Visits.covers_skip hfull
    rw [serialize_node hs] at hcovers
    exact hcovers
  | extension p c ih =>
    have hc : c ≠ .empty := by
      rintro rfl
      cases hlive.2.1
    have hle := hkeys.length_le hlive.2.2 hc
    have hp : 0 < p.length := List.length_pos_iff.2 hlive.1
    obtain ⟨hne, href⟩ := (hup.1 hc).ref hc
    obtain ⟨fuel, rfl⟩ : ∃ m, fuel = m + 1 := ⟨fuel - 1, by omega⟩
    have hbelow := ih hc hlive.2.2 hup.2 hkeys.extension hne
      (¬ (32 ≤ (o.enc c).length ∧ t._db.get (o.dbKey (o.rootHash c)) = none))
      (by rw [href, ite_not]) (currentKey ++ p) (valueNodes_ne_nil hlive.2.2 hc _) fuel (by omega)
    have hcovers := walkTrie_lookup MerklePatriciaTrie.isValueNode (fuel + 1) currentKey hhash
      hlookup hbelow hfull
    rw [serialize_node hs] at hcovers
    refine Visits.Covers.congr hcovers (and_congr_right fun _ => and_congr_left fun _ => ?_)
    rw [not_and]
    rfl
  | branch cs v ih =>
    obtain ⟨fuel, rfl⟩ : ∃ m, fuel = m + 1 := ⟨fuel - 1, by omega⟩
    have hchild (i : Nibble) : (t.walkTrie o MerklePatriciaTrie.isValueNode (fuel + 1)
        (o.childHash (o.ref (cs i))) (currentKey ++ [i])).Covers
          (valueNodes o (cs i) (currentKey ++ [i])) ((nodesOf (cs i)).map o.rootHash)
          ((cs i ≠ .empty → StoredAlone o t (cs i)) ∧ Reached o t (cs i)) := by
      by_cases hi : cs i = .empty
      · -- nothing is looked up under the empty string
        rw [hi, ref_empty, childHash]
        have hskip : t.walkTrie o MerklePatriciaTrie.isValueNode (fuel + 1) .null
            (currentKey ++ [i]) = Visits.skip := by
          obtain ⟨e, he⟩ := hnull
          rw [MerklePatriciaTrie.walkTrie, he]
          exact ite_self _
        rw [hskip]
        exact Visits.covers_skip.congr
          (iff_of_true trivial ⟨fun hne => absurd rfl hne, trivial⟩)
      · have hpos := hkeys.pos (hlive.2 i) hi
        obtain ⟨hroot, halone⟩ := (hup i).1 hi
        rw [childHash_ref hi]
        have hbelow := ih i hi (hlive.2 i) (hup i).2 (hkeys.branch i)
          (fun hc => hroot (NestedUint8Array.bytes.inj hc))
          (t._db.get (o.dbKey (o.rootHash (cs i))) ≠ none)
          (by rw [halone, ite_not]) (currentKey ++ [i])
          (valueNodes_ne_nil (hlive.2 i) hi _) fuel (by omega)
        exact hbelow.congr (and_congr_left fun _ => (imp_iff_right hi).symm)
    have hbelow := Visits.covers_sequence fun i (_ : i ∈ List.finRange 16) => hchild i
    rw [valueNodes, ← isValueNode_branch (o := o) cs v] at hfull ⊢
    have hcovers := walkTrie_lookup MerklePatriciaTrie.isValueNode (fuel + 1) currentKey hhash
      hlookup hbelow hfull
    rw [serialize_node hs, ← List.map_flatMap] at hcovers
    refine Visits.Covers.congr hcovers (and_congr_right fun _ => ?_)
    simp only [List.mem_finRange, true_imp_iff]
    rfl

/-! ## What is listed -/

/-- The entries from a key on. -/
def entriesFrom (startKey : ℤ) (L : List (Bytes × NestedUint8Array)) :
    List (Bytes × NestedUint8Array) :=
  L.filter fun e => startKey ≤ (ofBigEndian e.1 : ℤ)

/-- A leaf that is found is listed under its whole key. -/
def listed (found : FoundNode) : Option (Bytes × NestedUint8Array) :=
  match found.1 with
  | .leaf nibbles value => some (nibblesTypeToPackedBytes (found.2 ++ nibbles), value)
  | _ => none

namespace ValueMap

variable {startKey : ℤ} {limit : Option ℕ}

theorem foldl_onFound (found : List FoundNode) (m : ValueMap) :
    found.foldl (onFound startKey limit) m =
      (found.filterMap listed).foldl (fun (m : ValueMap) e => m.addLeaf startKey limit e.1 e.2) m := by
  induction found generalizing m with
  | nil => rfl
  | cons x found ih =>
    obtain ⟨node, currentKey⟩ := x
    rw [List.foldl_cons, ih]
    cases node with
    | leaf nibbles value => rfl
    | extension nibbles value => rfl
    | branch branches value => rfl

theorem nodup_keys {L : List (Bytes × NestedUint8Array)}
    (h : L.Pairwise fun e e' => ofBigEndian e.1 < ofBigEndian e'.1) : (L.map Prod.fst).Nodup := by
  rw [List.Nodup, List.pairwise_map]
  refine h.imp fun hlt heq => ?_
  rw [heq] at hlt
  exact lt_irrefl _ hlt

/-- **In the range the leaves are listed** as long as there is room, and then the next key is that of
each in turn. -/
theorem foldl_addLeaf {L : List (Bytes × NestedUint8Array)} {m : ValueMap} {room : ℕ}
    (hin : m.inRange = true)
    (hroom : limit = some (m.i + room) ∨ limit = none ∧ L.length ≤ room)
    (hnodup : (m.values.keys ++ L.map Prod.fst).Nodup) :
    (L.foldl (fun (m : ValueMap) e => m.addLeaf startKey limit e.1 e.2) m).values.entries =
        m.values.entries ++ L.take room ∧
      (L.foldl (fun (m : ValueMap) e => m.addLeaf startKey limit e.1 e.2) m).nextKey =
        ((L.drop room).getLast?.map Prod.fst).or m.nextKey := by
  induction L generalizing m room with
  | nil => simp
  | cons e L ih =>
    obtain ⟨key, value⟩ := e
    rw [List.foldl_cons]
    have hnew : key ∉ m.values.keys := by
      intro hmem
      rw [List.map_cons, List.nodup_append'] at hnodup
      exact hnodup.2.2 hmem List.mem_cons_self
    cases room with
    | zero =>
      -- no room: the key is noted
      have hlimit : limit = some m.i := by
        rcases hroom with hroom | ⟨-, hlength⟩
        · exact hroom
        · exact absurd hlength (Nat.not_succ_le_zero _)
      have hstep : m.addLeaf startKey limit key value =
          { m with inRange := true, nextKey := some key } := by
        rw [addLeaf, if_neg (fun hc => by rw [hin] at hc; cases hc.1), if_neg, if_pos hlimit]
        intro hc
        exact lt_irrefl _ (hc m.i hlimit)
      rw [hstep]
      have hrest := @ih { m with inRange := true, nextKey := some key } 0 rfl (.inl hlimit)
        (hnodup.sublist ((List.sublist_cons_self key _).append_left _))
      refine ⟨hrest.1, hrest.2.trans ?_⟩
      rw [List.drop_zero, List.drop_zero, List.getLast?_cons]
      cases L.getLast? with
      | none => rfl
      | some last => rfl
    | succ room =>
      have hstep : m.addLeaf startKey limit key value =
          { m with inRange := true, i := m.i + 1, values := m.values.set key value } := by
        rw [addLeaf, if_neg (fun hc => by rw [hin] at hc; cases hc.1), if_pos]
        intro l hl
        rcases hroom with hroom | ⟨hroom, -⟩
        · rw [hroom] at hl
          obtain rfl := Option.some.inj hl
          omega
        · rw [hroom] at hl
          cases hl
      have hentries : (m.values.set key value).entries = m.values.entries ++ [(key, value)] := by
        rw [JsMap.entries_set, if_neg hnew]
      rw [hstep]
      have hrest := @ih { m with inRange := true, i := m.i + 1, values := m.values.set key value }
        room rfl ?_ ?_
      · refine ⟨hrest.1.trans ?_, hrest.2⟩
        dsimp only
        rw [hentries, List.append_assoc]
        rfl
      · rcases hroom with hroom | ⟨hroom, hlength⟩
        · left
          rw [hroom]
          congr 1
          dsimp only
          omega
        · exact .inr ⟨hroom, Nat.le_of_succ_le_succ hlength⟩
      · dsimp only
        rw [JsMap.keys, hentries, List.map_append, List.append_assoc]
        exact hnodup

theorem foldl_addLeaf_before {L : List (Bytes × NestedUint8Array)} {m : ValueMap}
    (hin : m.inRange = false)
    (hsorted : L.Pairwise fun e e' => ofBigEndian e.1 < ofBigEndian e'.1) :
    (L.foldl (fun (m : ValueMap) e => m.addLeaf startKey limit e.1 e.2) m).values.entries =
        ((entriesFrom startKey L).foldl (fun (m : ValueMap) e => m.addLeaf startKey limit e.1 e.2)
          { m with inRange := true }).values.entries ∧
      (L.foldl (fun (m : ValueMap) e => m.addLeaf startKey limit e.1 e.2) m).nextKey =
        ((entriesFrom startKey L).foldl (fun (m : ValueMap) e => m.addLeaf startKey limit e.1 e.2)
          { m with inRange := true }).nextKey := by
  induction L with
  | nil => exact ⟨rfl, rfl⟩
  | cons e L ih =>
    obtain ⟨key, value⟩ := e
    obtain ⟨hfirst, hrest⟩ := List.pairwise_cons.1 hsorted
    rw [List.foldl_cons]
    by_cases hkey : (ofBigEndian key : ℤ) < startKey
    · have hskip : m.addLeaf startKey limit key value = m := if_pos ⟨hin, hkey⟩
      rw [hskip, entriesFrom, List.filter_cons_of_neg (by simpa using hkey)]
      exact ih hrest
    · -- from here on every key is in the range
      have hall : (L.filter fun e => startKey ≤ (ofBigEndian e.1 : ℤ)) = L := by
        refine List.filter_eq_self.2 fun e he => decide_eq_true ?_
        have hlt := hfirst e he
        dsimp only at hlt
        omega
      have hsame : m.addLeaf startKey limit key value =
          ({ m with inRange := true } : ValueMap).addLeaf startKey limit key value := by
        simp only [addLeaf, hkey, and_false, if_false]
      rw [entriesFrom, List.filter_cons_of_pos (by simpa using hkey), hall, List.foldl_cons, hsame]
      exact ⟨rfl, rfl⟩

end ValueMap

theorem getValueMap_none {fuel : ℕ} {found : List FoundNode}
    (hwalk : t.walkAllValueNodes o fuel = some found)
    (hsorted : (found.filterMap listed).Pairwise fun e e' => ofBigEndian e.1 < ofBigEndian e'.1)
    (startKey : ℤ) :
    getValueMap o t fuel startKey none = some (found.filterMap listed, none) := by
  rw [getValueMap, hwalk, Option.map_some]
  dsimp only
  rw [ValueMap.foldl_onFound]
  obtain ⟨hvalues, hnext⟩ := @ValueMap.foldl_addLeaf startKey none (found.filterMap listed)
    ⟨true, 0, .empty, none⟩ _ rfl (.inr ⟨rfl, le_refl _⟩) (ValueMap.nodup_keys hsorted)
  rw [List.take_length] at hvalues
  rw [List.drop_length] at hnext
  exact congrArg some (Prod.ext hvalues hnext)

theorem getValueMap_some {fuel : ℕ} {found : List FoundNode}
    (hwalk : t.walkAllValueNodes o fuel = some found)
    (hsorted : (found.filterMap listed).Pairwise fun e e' => ofBigEndian e.1 < ofBigEndian e'.1)
    (startKey : ℤ) (l : ℕ) :
    getValueMap o t fuel startKey (some l) =
      some ((entriesFrom startKey (found.filterMap listed)).take l,
        ((entriesFrom startKey (found.filterMap listed)).drop l).getLast?.map Prod.fst) := by
  rw [getValueMap, hwalk, Option.map_some]
  dsimp only
  rw [ValueMap.foldl_onFound]
  obtain ⟨hvalues, hnext⟩ := @ValueMap.foldl_addLeaf_before startKey (some l)
    (found.filterMap listed) ⟨false, 0, .empty, none⟩ rfl hsorted
  obtain ⟨hvalues', hnext'⟩ := @ValueMap.foldl_addLeaf startKey (some l)
    (entriesFrom startKey (found.filterMap listed))
    ⟨true, 0, .empty, none⟩ l rfl (.inl (by rw [Nat.zero_add]))
    (ValueMap.nodup_keys (hsorted.sublist List.filter_sublist))
  rw [Option.or_none] at hnext'
  exact congrArg some (Prod.ext (hvalues.trans hvalues') (hnext.trans hnext'))

end TsEthereum
