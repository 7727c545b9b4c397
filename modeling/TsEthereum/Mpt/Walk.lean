import TsEthereum.Mpt.Save

/-!
# Where `findPath` ends

`findPath` follows a key from node to node. Over a store that holds the
nodes of a tree, or lacks some, the walk is a descent of the tree, and
`Ends` lists the ways it can end, with what `findPath` returns for each.
Everything about `get`, `put` and `del` is read off that list.
-/

namespace TsEthereum

open RadixTree RadixTree.Frames MPTOpts

/-- **A key leaves a tree at its first node.** -/
inductive Leaves : Tree → Nibbles → Prop
  | leaf {p : Nibbles} {v : Value} {r : Nibbles} (h : r ≠ p) : Leaves (.leaf p v) r
  | extension {p : Nibbles} {c : Tree} {r : Nibbles} (h : ¬ p <+: r) : Leaves (.extension p c) r
  | branch {cs : Nibble → Tree} {v : Option Value} {i : Nibble} {r : Nibbles}
    (h : cs i = .empty) : Leaves (.branch cs v) (i :: r)

theorem Leaves.lookup {s : Tree} {r : Nibbles} (h : Leaves s r) : s.lookup r = none := by
  cases h with
  | leaf h => simp [h]
  | extension h => simp [dropPrefix?_eq_none.2 h]
  | branch h => simp [h]

/-- The node of a tree is read from its reference, or is missing. -/
def Readable (o : MPTOpts) (t : MerklePatriciaTrie) (s : Tree) : Prop :=
  s ≠ .empty → t.lookupNode o (o.ref s) = .ok (o.node s) ∨
    t.lookupNode o (o.ref s) = .error .missingNode

/-- The node of a tree is read from its reference. -/
def Present (o : MPTOpts) (t : MerklePatriciaTrie) (s : Tree) : Prop :=
  s ≠ .empty → t.lookupNode o (o.ref s) = .ok (o.node s)

theorem Present.readable {o : MPTOpts} {t : MerklePatriciaTrie} {s : Tree} (h : Present o t s) :
    Readable o t s := fun hne => .inl (h hne)

/-- The stack of a descent, its top first. -/
def stackOf (o : MPTOpts) (fs : List (Frame Nibble Value)) (s : Tree) : List MPTNode :=
  (s :: ancestors fs s).map o.node

/-- **The ways a walk down the key `K` of the tree `T` ends.** -/
inductive Ends (o : MPTOpts) (t : MerklePatriciaTrie) (throwIfMissing : Bool) (T : Tree)
    (K : Nibbles) : Except MPTError Path → Prop
  /-- At the key's leaf. -/
  | leaf (fs : List (Frame Nibble Value)) (r : Nibbles) (v : Value)
    (hT : T = plug fs (.leaf r v)) (hK : K = path fs ++ r) :
    Ends o t throwIfMissing T K
      (.ok ⟨some (o.node (.leaf r v)), [], stackOf o fs (.leaf r v)⟩)
  /-- At a branch, with the key used up. -/
  | branch (fs : List (Frame Nibble Value)) (cs : Nibble → Tree) (v : Option Value)
    (hT : T = plug fs (.branch cs v)) (hK : K = path fs) :
    Ends o t throwIfMissing T K
      (.ok ⟨some (o.node (.branch cs v)), [], stackOf o fs (.branch cs v)⟩)
  /-- Where the key leaves the tree. -/
  | off (fs : List (Frame Nibble Value)) (s : Tree) (r : Nibbles)
    (hT : T = plug fs s) (hK : K = path fs ++ r) (hr : Leaves s r) :
    Ends o t throwIfMissing T K (.ok ⟨none, r, stackOf o fs s⟩)
  /-- Above a missing node. -/
  | missing (f : Frame Nibble Value) (fs : List (Frame Nibble Value)) (c : Tree) (r : Nibbles)
    (hT : T = plug (f :: fs) c) (hK : K = path (f :: fs) ++ r) (hc : c ≠ .empty)
    (hmiss : t.lookupNode o (o.ref c) = .error .missingNode) (hthrow : throwIfMissing = false) :
    Ends o t throwIfMissing T K (.ok ⟨none, [], stackOf o fs (f.plug c)⟩)
  /-- Above a missing node, which throws. -/
  | thrown (f : Frame Nibble Value) (fs : List (Frame Nibble Value)) (c : Tree) (r : Nibbles)
    (hT : T = plug (f :: fs) c) (hK : K = path (f :: fs) ++ r) (hc : c ≠ .empty)
    (hmiss : t.lookupNode o (o.ref c) = .error .missingNode) (hthrow : throwIfMissing = true) :
    Ends o t throwIfMissing T K (.error .missingNode)

variable {o : MPTOpts} {t : MerklePatriciaTrie} {throwIfMissing : Bool}

theorem visit_ends {T : Tree} {K : Nibbles} {f : Frame Nibble Value}
    {fs : List (Frame Nibble Value)} {c : Tree} {r : Nibbles} (hc : c ≠ .empty)
    (hread : Readable o t c) (hT : T = plug (f :: fs) c) (hK : K = path (f :: fs) ++ r)
    {next : MPTNode → Except MPTError Path}
    (hnext : Ends o t throwIfMissing T K (next (o.node c))) :
    Ends o t throwIfMissing T K
      (t.visit o throwIfMissing (o.ref c) (stackOf o fs (f.plug c)) next) := by
  unfold MerklePatriciaTrie.visit
  rcases hread hc with hok | hmiss
  · rw [hok]
    exact hnext
  · rw [hmiss]
    cases throwIfMissing with
    | true => exact .thrown f fs c r hT hK hc hmiss rfl
    | false => exact .missing f fs c r hT hK hc hmiss rfl

/-- **The walk from a node on is a descent of its tree**, by induction on
the tree: each node is the end, or the walk goes on in a child. -/
theorem onFound_ends {T : Tree} {K : Nibbles} {s : Tree} (hs : s ≠ .empty) (hwf : s.WellFormed)
    (hread : s.Below (Readable o t)) {fs : List (Frame Nibble Value)} (hT : T = plug fs s)
    {r : Nibbles} (hK : K = path fs ++ r) {fuel : ℕ} (hfuel : r.length < fuel) :
    Ends o t throwIfMissing T K
      (t.onFound o throwIfMissing fuel r ((ancestors fs s).map o.node) (o.node s)) := by
  induction s generalizing fs r fuel with
  | empty => exact absurd rfl hs
  | leaf p v =>
    obtain ⟨fuel, rfl⟩ : ∃ n, fuel = n + 1 := ⟨fuel - 1, by omega⟩
    simp only [MPTOpts.node, MerklePatriciaTrie.onFound]
    split
    · next h =>
      subst h
      exact .leaf fs r v hT hK
    · next h => exact .off fs (.leaf p v) r hT hK (.leaf h)
  | extension p c ih =>
    obtain ⟨fuel, rfl⟩ : ∃ n, fuel = n + 1 := ⟨fuel - 1, by omega⟩
    have hc : c ≠ .empty := by
      rintro rfl
      cases hwf.2.1
    simp only [MPTOpts.node, MerklePatriciaTrie.onFound]
    split
    · next h => exact .off fs (.extension p c) r hT hK (.extension (dropPrefix?_eq_none.1 h))
    · next rest h =>
      obtain rfl := dropPrefix?_eq_some.1 h
      rw [if_neg hwf.1]
      have hp : 0 < p.length := List.length_pos_iff.2 hwf.1
      have hlt : rest.length < fuel := by
        rw [List.length_append] at hfuel
        omega
      have hT' : T = plug (.extension p :: fs) c := hT
      have hK' : K = path (.extension p :: fs) ++ rest := by
        rw [hK, path_cons, List.append_assoc]
        rfl
      exact visit_ends hc hread.1 hT' hK' (ih hc hwf.2.2 hread.2 hT' hK' hlt)
  | branch cs v ih =>
    obtain ⟨fuel, rfl⟩ : ∃ n, fuel = n + 1 := ⟨fuel - 1, by omega⟩
    simp only [MPTOpts.node, MerklePatriciaTrie.onFound]
    cases r with
    | nil => exact .branch fs cs v hT (by rw [hK, List.append_nil])
    | cons i rest =>
      simp only [getBranch_ref]
      by_cases hi : cs i = .empty
      · rw [if_pos hi]
        exact .off fs (.branch cs v) (i :: rest) hT hK (.branch hi)
      · rw [if_neg hi]
        have hself : (Frame.branch cs v i).plug (cs i) = .branch cs v := by
          rw [Frame.plug, Function.update_eq_self]
        have hlt : rest.length < fuel := by
          rw [List.length_cons] at hfuel
          omega
        have hT' : T = plug (.branch cs v i :: fs) (cs i) := by rw [plug_cons, hself, hT]
        have hK' : K = path (.branch cs v i :: fs) ++ rest := by
          rw [hK, path_cons, List.append_assoc]
          rfl
        have hnext := ih i hi (hwf.2 i) (hread i).2 hT' hK' hlt
        rw [ancestors_cons, hself] at hnext
        have hends := visit_ends hi (hread i).1 hT' hK' hnext
        rwa [hself] at hends

/-- **`findPath` ends in one of the listed ways**, when the root's node is
read. -/
theorem findPath_ends {T : Tree} (hne : T ≠ .empty) (hwf : T.WellFormed)
    (hread : T.Below (Readable o t))
    (hroot : t.lookupNode o (.bytes t._root) = .ok (o.node T)) (key : Bytes) :
    Ends o t throwIfMissing T (bytesToNibbles key) (t.findPath o key throwIfMissing) := by
  unfold MerklePatriciaTrie.findPath MerklePatriciaTrie.visit
  rw [hroot]
  have hT : T = plug ([] : List (Frame Nibble Value)) T := rfl
  have hK : bytesToNibbles key = path ([] : List (Frame Nibble Value)) ++ bytesToNibbles key := rfl
  exact onFound_ends hne hwf hread hT hK (Nat.lt_succ_self _)

theorem findPath_of_root_missing (hroot : t.lookupNode o (.bytes t._root) = .error .missingNode)
    (key : Bytes) :
    t.findPath o key throwIfMissing =
      if throwIfMissing then .error .missingNode else .ok ⟨none, [], []⟩ := by
  unfold MerklePatriciaTrie.findPath MerklePatriciaTrie.visit
  rw [hroot]

/-! ## `get` -/

/-- A value as `get` returns it. -/
def got (v : Option Value) : Option NestedUint8Array := v.map fun w => .bytes w.1

/-- **`get` after a walk**: what the tree stores, or nothing where a node is
missing. -/
theorem get_of_ends {key : Bytes} {T : Tree} {x : Except MPTError Path}
    (h : Ends o t throwIfMissing T (bytesToNibbles (o.appliedKey key)) x)
    (hx : t.findPath o (o.appliedKey key) throwIfMissing = x) :
    t.get o key throwIfMissing = .ok (got (T.lookup (bytesToNibbles (o.appliedKey key)))) ∨
      (∃ f fs c r, T = plug (f :: fs) c ∧
        bytesToNibbles (o.appliedKey key) = path (f :: fs) ++ r ∧ c ≠ .empty ∧
        t.lookupNode o (o.ref c) = .error .missingNode ∧
        t.get o key throwIfMissing = if throwIfMissing then .error .missingNode else .ok none) := by
  unfold MerklePatriciaTrie.get
  rw [hx]
  cases h with
  | leaf fs r v hT hK =>
    left
    rw [hT, hK, lookup_plug_append]
    simp [got, MPTOpts.node, MPTNode.value]
  | branch fs cs v hT hK =>
    left
    have hlookup := lookup_plug_append fs (.branch cs v) []
    rw [List.append_nil] at hlookup
    rw [hT, hK, hlookup]
    simp [got, value_node_branch]
  | off fs s r hT hK hr =>
    left
    rw [hT, hK, lookup_plug_append, hr.lookup]
    rfl
  | missing f fs c r hT hK hc hmiss hthrow =>
    right
    exact ⟨f, fs, c, r, hT, hK, hc, hmiss, by simp [hthrow]⟩
  | thrown f fs c r hT hK hc hmiss hthrow =>
    right
    exact ⟨f, fs, c, r, hT, hK, hc, hmiss, by simp [hthrow]⟩

end TsEthereum
