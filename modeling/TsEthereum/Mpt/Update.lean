import TsEthereum.Mpt.Walk

/-!
# `_updateNode` inserts

`_updateNode` changes the last node of a stack and hands the nodes to
`saveStack`. In each of its branches the nodes are those of a piece of tree,
`Prepared`: frames with a node at their end that, plugged, are the old last
node with the key inserted. The operations it collects on the way store
what the frames refer to.
-/

namespace TsEthereum

open RadixTree RadixTree.Frames MPTOpts

variable {o : MPTOpts}

/-- **`P` holds where it needs no store**, or where an operation stored it. -/
structure Covers (o : MPTOpts) (puts : List BatchDBOp) (P : Tree → Prop) : Prop where
  small : ∀ u, (o.enc u).length < 32 → P u
  put : ∀ u, o.putNode u ∈ puts → P u

/-- **The nodes prepared for `saveStack`**: `s` becomes `s'`, on the key
`r`, through the frames `gs` over `top`, after the operations `dels` and
`puts`. -/
structure Prepared (o : MPTOpts) (s s' : Tree) (r : Nibbles) (gs : List (Frame Nibble Value))
    (top : Tree) (dels puts : List BatchDBOp) : Prop where
  top_ne : top ≠ .empty
  tree : plug gs top = s'
  key : path gs ++ ownPath top = r
  deletes : ∀ op ∈ dels, o.useNodePruning = true ∧ op = .del (o.dbKey (o.rootHash s))
  stores : ∀ op ∈ puts, ∃ u, u ≠ .empty ∧ op = o.putNode u
  below : ∀ P, Covers o puts P → s.Below P → (∀ f ∈ gs, f.Beside P) ∧ top.Below P

/-! ## A branch and a key -/

/-- What `_updateNode` does with a branch and the key left: a new leaf above
it, or the branch's own value. -/
def graftStack (branch : MPTNode) (k : Nibbles) (v : NestedUint8Array) (stack : List MPTNode) :
    List MPTNode :=
  match k with
  | [] => branch.setValue v :: stack
  | _ :: k => .leaf k v :: branch :: stack

theorem exists_graft {cs : Nibble → Tree} {w : Option Value} {k : Nibbles}
    (hk : ∀ i k', k = i :: k' → cs i = .empty) (v : Value) :
    ∃ gs top stack', top ≠ .empty ∧ plug gs top = (branch cs w).graft k v ∧
      path gs ++ ownPath top = k ∧ List.Forall₂ o.Linked stack' gs ∧
      (∀ stack, graftStack (o.node (.branch cs w)) k (.bytes v) stack =
        o.node top :: (stack' ++ stack)) ∧
      ∀ P, (branch cs w).Below P → (∀ f ∈ gs, f.Beside P) ∧ top.Below P := by
  cases k with
  | nil =>
    refine ⟨[], .branch cs (some v), [], by simp, rfl, rfl, .nil, fun _ => rfl, fun P h => ?_⟩
    exact ⟨fun _ hf => by simp at hf, h⟩
  | cons i k =>
    have hself : (Frame.branch cs w i).plug .empty = .branch cs w := by
      rw [Frame.plug, ← hk i k rfl, Function.update_eq_self]
    refine ⟨[.branch cs w i], .leaf k v, [o.node (.branch cs w)], by simp, rfl, rfl, ?_,
      fun _ => rfl, fun P h => ?_⟩
    · exact .cons ⟨.empty, by rw [hself]; exact .node (by simp)⟩ .nil
    · refine ⟨fun f hf => ?_, trivial⟩
      obtain rfl := List.mem_singleton.1 hf
      exact fun b _ => h b

/-! ## Splitting a leaf or an extension -/

/-- The branch above what is left of a node's path. -/
def splitNode : Tree → Nibbles → Tree
  | .leaf _ w, p => bare.graft p w
  | .extension _ c, p => stem p c
  | s, _ => s

theorem node_single (i : Nibble) (t : Tree) :
    o.node (.branch (Function.update (fun _ => .empty) i t) none) =
      MPTNode.emptyBranch.setBranch i (o.ref t) := by
  have h := ref_update (o := o) (fun _ : Nibble => (.empty : Tree)) i t
  simp only [ref_empty] at h
  simp [MPTOpts.node, MPTNode.emptyBranch, MPTNode.setBranch, h]

theorem formatNode_below {u : Tree} (hu : u ≠ .empty) :
    ∃ puts, MerklePatriciaTrie.formatNode o (o.node u) false [] false = (o.ref u, puts) ∧
      (∀ op ∈ puts, ∃ u, u ≠ .empty ∧ op = o.putNode u) ∧ ∀ P, Covers o puts P → P u := by
  rw [formatNode_node hu]
  by_cases hlen : 32 ≤ (o.enc u).length
  · refine ⟨[o.putNode u], by simp [hlen], ?_, fun P hP => hP.put u (by simp)⟩
    intro op hop
    exact ⟨u, hu, List.mem_singleton.1 hop⟩
  · exact ⟨[], by simp [hlen], by simp, fun P hP => hP.small u (Nat.lt_of_not_le hlen)⟩

theorem formatNode_remove {u : Tree} (hu : u ≠ .empty) :
    ∀ op ∈ (MerklePatriciaTrie.formatNode o (o.node u) false [] true).2,
      o.useNodePruning = true ∧ op = .del (o.dbKey (o.rootHash u)) := by
  intro op hop
  unfold MerklePatriciaTrie.formatNode at hop
  rw [serialize_node hu] at hop
  by_cases hlen : 32 ≤ (o.enc u).length
  · by_cases hprune : o.useNodePruning
    · simp only [hlen, true_or, if_true, hprune, List.nil_append, List.mem_singleton] at hop
      exact ⟨hprune, hop⟩
    · simp [hlen, hprune] at hop
  · simp [hlen] at hop

theorem newBranch_spec {s : Tree} {m p : Nibbles}
    (hs : (∃ w, s = .leaf (m ++ p) w) ∨ ∃ c, s = .extension (m ++ p) c ∧ p ≠ []) :
    ∃ cs w dels puts, splitNode s p = .branch cs w ∧
      MerklePatriciaTrie.newBranchMPTNode o (o.node s) p = (o.node (.branch cs w), dels ++ puts) ∧
      (∀ i k, Apart p (i :: k) → cs i = .empty) ∧
      (∀ op ∈ dels, o.useNodePruning = true ∧ op = .del (o.dbKey (o.rootHash s))) ∧
      (∀ op ∈ puts, ∃ u, u ≠ .empty ∧ op = o.putNode u) ∧
      ∀ P, Covers o puts P → s.Below P → (branch cs w).Below P := by
  -- a single child on the path's first letter, and `P` of it
  have hempty {i a : Nibble} {p k : Nibbles} {t : Tree} (h : Apart (a :: p) (i :: k)) :
      Function.update (fun _ => (.empty : Tree)) a t i = .empty :=
    update_eq_empty_of_apart h t i k rfl
  have hbelow {P : Tree → Prop} {puts : List BatchDBOp} (hP : Covers o puts P) {a : Nibble}
      {t : Tree} (ht : P t) (hb : t.Below P) :
      (branch (Function.update (fun _ => (.empty : Tree)) a t) none).Below P := by
    intro b
    have hnone : P .empty := hP.small .empty (by rw [length_enc_empty]; omega)
    rcases eq_or_ne b a with rfl | hb'
    · rw [Function.update_self]
      exact ⟨ht, hb⟩
    · rw [Function.update_of_ne hb']
      exact ⟨hnone, trivial⟩
  rcases hs with ⟨w, rfl⟩ | ⟨c, rfl, hp⟩
  · cases p with
    | nil =>
      refine ⟨fun _ => .empty, some w, [], [], rfl, ?_, fun _ _ _ => rfl, by simp, by simp, ?_⟩
      · simp [MerklePatriciaTrie.newBranchMPTNode, MPTOpts.node, MPTNode.emptyBranch,
          MPTNode.setValue, MPTNode._value]
      · intro P hP _ b
        exact ⟨hP.small .empty (by rw [length_enc_empty]; omega), trivial⟩
    | cons a q =>
      obtain ⟨puts, hformat, hputs, hcov⟩ := formatNode_below (o := o) (u := .leaf q w) (by simp)
      refine ⟨Function.update (fun _ => .empty) a (.leaf q w), none, [], puts, rfl, ?_,
        fun i k h => hempty h, by simp, hputs, fun P hP _ => hbelow hP (hcov P hP) trivial⟩
      have hkey : (o.node (.leaf (m ++ a :: q) w)).setKey q = o.node (.leaf q w) := rfl
      have hleaf : (o.node (.leaf (m ++ a :: q) w)).isLeaf = true := rfl
      rw [MerklePatriciaTrie.newBranchMPTNode, if_pos (.inr hleaf), hkey, hformat, node_single,
        List.nil_append]
  · cases p with
    | nil => exact absurd rfl hp
    | cons a q =>
      cases q with
      | nil =>
        refine ⟨Function.update (fun _ => .empty) a c, none,
          (MerklePatriciaTrie.formatNode o (o.node (.extension (m ++ [a]) c)) false [] true).2, [],
          rfl, ?_, fun i k h => hempty h, formatNode_remove (by simp), by simp,
          fun P hP h => hbelow hP h.1 h.2⟩
        have hleaf : ¬ (([] : Nibbles).length ≠ 0 ∨
            (o.node (.extension (m ++ [a]) c)).isLeaf = true) := by
          simp [MPTOpts.node, MPTNode.isLeaf]
        rw [MerklePatriciaTrie.newBranchMPTNode, if_neg hleaf, List.append_nil, node_single]
        rfl
      | cons b q =>
        obtain ⟨puts, hformat, hputs, hcov⟩ :=
          formatNode_below (o := o) (u := .extension (b :: q) c) (by simp)
        refine ⟨Function.update (fun _ => .empty) a (.extension (b :: q) c), none, [], puts, rfl,
          ?_, fun i k h => hempty h, by simp, hputs, fun P hP h => hbelow hP (hcov P hP) h⟩
        have hkey : (o.node (.extension (m ++ a :: b :: q) c)).setKey (b :: q) =
            o.node (.extension (b :: q) c) := rfl
        rw [MerklePatriciaTrie.newBranchMPTNode, if_pos (.inl (by simp)), hkey, hformat,
          node_single, List.nil_append]

/-! ## `_updateNode` -/

theorem sum_stack (fs : List (Frame Nibble Value)) (s : Tree) :
    (((ancestors fs s).map o.node).map fun n => if n.isBranch then 1 else n.key.length).sum =
      (path fs).length := by
  induction fs generalizing s with
  | nil => rfl
  | cons f fs ih =>
    rw [ancestors_cons, List.map_cons, List.map_cons, List.sum_cons, ih, path_cons,
      List.length_append, Nat.add_comm]
    cases f <;> rfl

/-- The frames of an extension's path, which may be empty. -/
def extFrames (m : Nibbles) : List (Frame Nibble Value) := if m = [] then [] else [.extension m]

theorem plug_extFrames (m : Nibbles) (t : Tree) : plug (extFrames m) t = extend m t := by
  cases m <;> simp [extFrames, Frame.plug, RadixTree.extend]

@[simp] theorem path_extFrames (m : Nibbles) : path (extFrames m) = m := by
  cases m <;> simp [extFrames, Frame.path]

theorem beside_extFrames {P : Tree → Prop} {m : Nibbles} {f : Frame Nibble Value}
    (h : f ∈ extFrames m) : f.Beside P := by
  unfold extFrames at h
  split at h
  · cases h
  · rw [List.mem_singleton.1 h]
    trivial

theorem linked_extFrames (m : Nibbles) (x : NestedUint8Array) :
    List.Forall₂ o.Linked (if m.length ≠ 0 then [.extension m x] else []) (extFrames m) := by
  cases m with
  | nil => exact .nil
  | cons a m => exact .cons ⟨.empty, .extension (a :: m) x .empty⟩ .nil

theorem Prepared.graft {s : Tree} {m k : Nibbles} {cs : Nibble → Tree} {w : Option Value}
    {dels puts : List BatchDBOp} (hk : ∀ i k', k = i :: k' → cs i = .empty)
    (hdels : ∀ op ∈ dels, o.useNodePruning = true ∧ op = .del (o.dbKey (o.rootHash s)))
    (hputs : ∀ op ∈ puts, ∃ u, u ≠ .empty ∧ op = o.putNode u)
    (hbelow : ∀ P, Covers o puts P → s.Below P → (branch cs w).Below P) (v : Value)
    (x : NestedUint8Array) :
    ∃ gs top stack', Prepared o s (extend m ((branch cs w).graft k v)) (m ++ k) gs top dels puts ∧
      List.Forall₂ o.Linked stack' gs ∧
      ∀ stack, graftStack (o.node (.branch cs w)) k (.bytes v)
        ((if m.length ≠ 0 then [.extension m x] else []) ++ stack) =
          o.node top :: (stack' ++ stack) := by
  obtain ⟨gs, top, stack', htop, htree, hkey, hlink, hstack, hP⟩ := exists_graft (o := o) hk v
  refine ⟨gs ++ extFrames m, top, stack' ++ (if m.length ≠ 0 then [.extension m x] else []),
    ⟨htop, ?_, ?_, hdels, hputs, ?_⟩, List.rel_append hlink (linked_extFrames m x), ?_⟩
  · rw [plug_append, htree, plug_extFrames]
  · rw [path_append, path_extFrames, List.append_assoc, hkey]
  · intro P hcov hs
    obtain ⟨hgs, ht⟩ := hP P (hbelow P hcov hs)
    refine ⟨fun f hf => ?_, ht⟩
    rcases List.mem_append.1 hf with hf | hf
    · exact hgs f hf
    · exact beside_extFrames hf
  · intro stack
    rw [hstack, List.append_assoc]

namespace MerklePatriciaTrie

variable (t : MerklePatriciaTrie)

theorem updateNode_branch (k : Bytes) (v : Value) (r : Nibbles) (cs : Nibble → Tree)
    (w : Option Value) (stack : List MPTNode) :
    t.updateNode o k v r (o.node (.branch cs w) :: stack) =
      (t.saveStack o (bytesToNibbles k) (graftStack (o.node (.branch cs w)) r (.bytes v) stack)
        []) >>= fun saved => .ok saved.1 := by
  have hleaf : (o.node (.branch cs w)).isLeaf = false := rfl
  have hbr : (o.node (.branch cs w)).isBranch = true := rfl
  unfold updateNode
  simp only [hleaf, Bool.false_eq_true, false_and, if_false, hbr, if_true]
  cases r <;> rfl

theorem updateNode_split {s : Tree} (hs : ¬ s.isBranch) (hne : s ≠ .empty) (k : Bytes) (v : Value)
    (r : Nibbles) (stack : List MPTNode)
    (hleaf : ∀ p w, s = .leaf p w → ¬ (r.length = 0 ∧ matchingNibbleLength p
      ((bytesToNibbles k).drop (stack.map fun n => if n.isBranch then 1 else n.key.length).sum) =
        p.length)) {m p' k' : Nibbles} (hdiv : divide (ownPath s) r = (m, p', k')) :
    t.updateNode o k v r (o.node s :: stack) =
      (t.saveStack o (bytesToNibbles k)
        (graftStack (newBranchMPTNode o (o.node s) p').1 k' (.bytes v)
          ((if m.length ≠ 0 then [.extension m (.bytes v)] else []) ++ stack))
        (newBranchMPTNode o (o.node s) p').2) >>= fun saved => .ok saved.1 := by
  have hbr : (o.node s).isBranch = false := by
    cases s with
    | branch cs w => exact absurd rfl hs
    | empty => exact absurd rfl hne
    | _ => rfl
  have hkey : (o.node s).key = ownPath s := by
    cases s with
    | empty => exact absurd rfl hne
    | branch cs w => exact absurd rfl hs
    | _ => rfl
  have hmatch : ¬ ((o.node s).isLeaf = true ∧ r.length = 0 ∧ matchingNibbleLength (o.node s).key
      ((bytesToNibbles k).drop (stack.map fun n => if n.isBranch then 1 else n.key.length).sum) =
        (o.node s).key.length) := by
    cases s with
    | leaf p w => exact fun h => hleaf p w rfl h.2
    | _ => exact fun h => by cases h.1
  have hm : matchingNibbleLength (ownPath s) r = m.length := by
    rw [matchingNibbleLength_eq, hdiv]
  have htake : (ownPath s).take m.length = m := by
    rw [← hm, take_matchingNibbleLength, hdiv]
  have hdrop : (ownPath s).drop m.length = p' := by
    rw [← hm, drop_matchingNibbleLength_left, hdiv]
  have hrest : r.drop m.length = k' := by
    rw [← hm, drop_matchingNibbleLength_right, hdiv]
  rw [hkey] at hmatch
  unfold updateNode
  simp only [hkey, if_neg hmatch, hbr, Bool.false_eq_true, if_false, hm, htake, hdrop, hrest]
  cases k' with
  | nil => by_cases hml : m.length = 0 <;> simp [hml, graftStack]
  | cons i k' => by_cases hml : m.length = 0 <;> simp [hml, graftStack]

/-- `_updateNode` at the last node of `s` hands `saveStack` the nodes of `s`
with the key `r` inserted. -/
def InsertPrepared (o : MPTOpts) (t : MerklePatriciaTrie) (s : Tree) (r : Nibbles) (k : Bytes)
    (v : Value) (stack : List MPTNode) : Prop :=
  ∃ gs top dels puts stack', Prepared o s (s.insert r v) r gs top dels puts ∧
    List.Forall₂ o.Linked stack' gs ∧
    t.updateNode o k v r (o.node s :: stack) =
      (t.saveStack o (bytesToNibbles k) (o.node top :: (stack' ++ stack)) (dels ++ puts)) >>=
        fun saved => .ok saved.1

theorem insertPrepared_branch {cs : Nibble → Tree} {w : Option Value} {r : Nibbles}
    (hr : ∀ i k', r = i :: k' → cs i = .empty) (k : Bytes) (v : Value) (stack : List MPTNode) :
    InsertPrepared o t (.branch cs w) r k v stack := by
  have hnil : ∀ op ∈ ([] : List BatchDBOp),
      o.useNodePruning = true ∧ op = .del (o.dbKey (o.rootHash (.branch cs w))) := by simp
  have hnil' : ∀ op ∈ ([] : List BatchDBOp), ∃ u, u ≠ .empty ∧ op = o.putNode u := by simp
  obtain ⟨gs, top, stack', hprep, hlink, hstack⟩ :=
    Prepared.graft (m := []) hr hnil hnil' (fun _ _ h => h) v .null
  have hins : (branch cs w).insert r v = extend [] ((branch cs w).graft r v) := by
    cases r with
    | nil => rfl
    | cons i r => simp [RadixTree.insert, RadixTree.graft, RadixTree.extend, hr i r rfl]
  refine ⟨gs, top, [], [], stack', hins ▸ hprep, hlink, ?_⟩
  rw [updateNode_branch]
  exact congrArg (fun st => t.saveStack o (bytesToNibbles k) st [] >>= fun saved => .ok saved.1)
    (hstack stack)

/-- At a leaf or an extension, a new branch stands where the key leaves the
path. -/
theorem insertPrepared_split {s : Tree} {r m p' k' : Nibbles} (hnb : ¬ s.isBranch)
    (hne : s ≠ .empty) (hdiv : divide (ownPath s) r = (m, p', k')) (hr : r = m ++ k')
    (hform : (∃ w, s = .leaf (m ++ p') w) ∨ ∃ c, s = .extension (m ++ p') c ∧ p' ≠ [])
    (hapart : Apart p' k') {v : Value}
    (hins : s.insert r v = extend m ((splitNode s p').graft k' v)) {k : Bytes}
    {stack : List MPTNode} (hmatch : ∀ p w, s = .leaf p w → ¬ (r.length = 0 ∧
      matchingNibbleLength p ((bytesToNibbles k).drop
        (stack.map fun n => if n.isBranch then 1 else n.key.length).sum) = p.length)) :
    InsertPrepared o t s r k v stack := by
  obtain ⟨cs, w, dels, puts, hnode, hnew, hempty, hdels, hputs, hbelow⟩ :=
    newBranch_spec (o := o) hform
  obtain ⟨gs, top, stack', hprep, hlink, hstack⟩ := Prepared.graft (m := m)
    (fun i k'' hk => hempty i k'' (hk ▸ hapart)) hdels hputs hbelow v (.bytes v)
  unfold InsertPrepared
  rw [hins, hnode, hr]
  refine ⟨gs, top, dels, puts, stack', hprep, hlink, ?_⟩
  rw [← hr, updateNode_split t hnb hne k v r stack hmatch hdiv, hnew, hstack stack]

/-- **`_updateNode` prepares the insertion**, at a node the key leaves and at
a branch the key ends at. -/
theorem insertPrepared {s : Tree} {r : Nibbles} (hs : Leaves s r ∨ (s.isBranch ∧ r = []))
    (k : Bytes) (v : Value) (stack : List MPTNode)
    (hleaf : ∀ p w, s = .leaf p w → (bytesToNibbles k).drop
      (stack.map fun n => if n.isBranch then 1 else n.key.length).sum = r) :
    InsertPrepared o t s r k v stack := by
  rcases hs with hs | ⟨hb, rfl⟩
  · cases hs with
    | @branch cs w i r hi =>
      exact insertPrepared_branch t
        (fun j k' hjk => by rw [← (List.cons.inj hjk).1, hi]) k v stack
    | @leaf p w _ hne =>
      obtain ⟨hp, hr, hapart⟩ := divide_spec p r
      refine insertPrepared_split t (by simp [isBranch]) (by simp) rfl hr
        (.inl ⟨w, congrArg (leaf · w) hp⟩) hapart ?_ ?_
      · rw [RadixTree.insert, if_neg hne]
        rfl
      · rintro q x hq ⟨hlen, hm⟩
        obtain rfl := List.eq_nil_of_length_eq_zero hlen
        rw [hleaf q x hq] at hm
        obtain ⟨rfl, -⟩ := leaf.inj hq
        cases p with
        | nil => exact hne rfl
        | cons a p => simp [matchingNibbleLength] at hm
    | @extension p c _ hpre =>
      obtain ⟨hp, hr, hapart⟩ := divide_spec p r
      refine insertPrepared_split t (by simp [isBranch]) (by simp) rfl hr
        (.inr ⟨c, congrArg (extension · c) hp, divide_ne_nil hpre⟩) hapart ?_ fun q x hq => by cases hq
      rw [RadixTree.insert, dropPrefix?_eq_none.2 hpre]
      rfl
  · cases s with
    | branch cs w => exact insertPrepared_branch t (fun i k' h => by cases h) k v stack
    | _ => cases hb

end MerklePatriciaTrie

/-! ## What a write stores -/

theorem stores_saveOps {ts : List Tree} (hts : ∀ u ∈ ts, u ≠ .empty) :
    ∀ op ∈ o.saveOps ts, ∃ u, u ≠ .empty ∧ op = o.putNode u := by
  intro op hop
  fun_induction saveOps o ts with
  | case1 => cases hop
  | case2 u => exact ⟨u, hts u (by simp), List.mem_singleton.1 hop⟩
  | case3 u ts _ ih =>
    rcases List.mem_append.1 hop with h | h
    · split at h
      · exact ⟨u, hts u (by simp), List.mem_singleton.1 h⟩
      · cases h
    · exact ih (List.forall_mem_cons.1 hts).2 h

theorem putNode_mem_saveOps {ts : List Tree} {u : Tree} (hu : u ∈ ts)
    (hlen : 32 ≤ (o.enc u).length) : o.putNode u ∈ o.saveOps ts := by
  fun_induction saveOps o ts with
  | case1 => cases hu
  | case2 w => rw [List.mem_singleton.1 hu]; simp
  | case3 w ts _ ih =>
    rcases List.mem_cons.1 hu with rfl | hu
    · rw [if_pos hlen]
      simp
    · exact List.mem_append_right _ (ih hu)

theorem putNode_getLast?_mem_saveOps {ts : List Tree} {root : Tree} (h : ts.getLast? = some root) :
    o.putNode root ∈ o.saveOps ts := by
  fun_induction saveOps o ts with
  | case1 => cases h
  | case2 w => simp at h; simp [h]
  | case3 w ts hts ih =>
    refine List.mem_append_right _ (ih ?_)
    rwa [List.getLast?_cons_of_ne_nil] at h
    exact hts

/-- **The operations write the tree `T'` over the tree `T`**: they are
stores of nodes, they store the root, and they store whatever `T'` refers
to and `T` does not. -/
structure Writes (o : MPTOpts) (T T' : Tree) (puts : List BatchDBOp) : Prop where
  stores : ∀ op ∈ puts, ∃ u, u ≠ .empty ∧ op = o.putNode u
  root : o.putNode T' ∈ puts
  below : ∀ P, Covers o puts P → T.Below P → T'.Below P

theorem Covers.of_mem_saveOps {ts : List Tree} {puts : List BatchDBOp} {P : Tree → Prop}
    (h : Covers o (puts ++ o.saveOps ts) P) {u : Tree} (hu : u ∈ ts) : P u := by
  rcases Nat.lt_or_ge (o.enc u).length 32 with hlt | hle
  · exact h.small u hlt
  · exact h.put u (List.mem_append_right _ (putNode_mem_saveOps hu hle))

theorem Prepared.saved {s s' : Tree} {r : Nibbles} {gs : List (Frame Nibble Value)} {top : Tree}
    {dels puts : List BatchDBOp} (h : Prepared o s s' r gs top dels puts)
    (trie : MerklePatriciaTrie) {fs : List (Frame Nibble Value)} {stack : List MPTNode}
    (hstack : List.Forall₂ o.Linked stack (gs ++ fs)) {key : Nibbles} (hkey : key = path fs ++ r) :
    ∃ puts', Writes o (plug fs s) (plug fs s') puts' ∧
      trie.saveStack o key (o.node top :: stack) (dels ++ puts) =
        .ok (trie.stored o (plug fs s') (dels ++ puts'),
          (top :: ancestors (gs ++ fs) top).map o.node) := by
  have htree : plug (gs ++ fs) top = plug fs s' := by rw [plug_append, h.tree]
  refine ⟨puts ++ o.saveOps (top :: ancestors (gs ++ fs) top), ⟨?_, ?_, ?_⟩, ?_⟩
  · intro op hop
    rcases List.mem_append.1 hop with hop | hop
    · exact h.stores op hop
    · refine stores_saveOps (fun u hu => ?_) op hop
      rcases List.mem_cons.1 hu with rfl | hu
      · exact h.top_ne
      · exact ne_empty_of_mem_ancestors hu
  · refine List.mem_append_right _ (putNode_getLast?_mem_saveOps ?_)
    rw [getLast?_ancestors, htree]
  · intro P hP hT
    obtain ⟨hside, hs, -⟩ := below_plug.1 hT
    have hcov : Covers o puts P := ⟨hP.small, fun u hu => hP.put u (List.mem_append_left _ hu)⟩
    obtain ⟨hgs, htop⟩ := h.below P hcov hs
    rw [← htree, below_plug]
    refine ⟨fun f hf => ?_, htop, fun u hu => hP.of_mem_saveOps (List.dropLast_subset _ hu)⟩
    rcases List.mem_append.1 hf with hf | hf
    · exact hgs f hf
    · exact hside f hf
  · have hkey' : key = path (gs ++ fs) ++ ownPath top := by
      rw [hkey, path_append, List.append_assoc, h.key]
    rw [MerklePatriciaTrie.saveStack_plug trie h.top_ne hstack hkey', htree, List.append_assoc]

namespace MerklePatriciaTrie

/-- **`_updateNode` writes the tree with the key inserted**, at the end of
any walk that met no missing node. -/
theorem updateNode_insert (t : MerklePatriciaTrie) {fs : List (Frame Nibble Value)} {s : Tree}
    {r : Nibbles} (hs : Leaves s r ∨ (s.isBranch ∧ r = [])) {k : Bytes}
    (hk : bytesToNibbles k = path fs ++ r) (v : Value) :
    ∃ dels puts, Writes o (plug fs s) ((plug fs s).insert (bytesToNibbles k) v) puts ∧
      (∀ op ∈ dels, o.useNodePruning = true ∧ op = .del (o.dbKey (o.rootHash s))) ∧
      t.updateNode o k v r (stackOf o fs s) =
        .ok (t.stored o ((plug fs s).insert (bytesToNibbles k) v) (dels ++ puts)) := by
  have hdrop : (bytesToNibbles k).drop
      (((ancestors fs s).map o.node).map fun n => if n.isBranch then 1 else n.key.length).sum = r := by
    rw [sum_stack, hk, List.drop_left]
  obtain ⟨gs, top, dels, puts, stack', hprep, hlink, heq⟩ := insertPrepared (o := o) t hs k v
    ((ancestors fs s).map o.node) fun _ _ _ => hdrop
  obtain ⟨puts', hwrites, hsaved⟩ := hprep.saved t
    (List.rel_append hlink (linked_ancestors fs s)) hk
  rw [hk, insert_plug]
  refine ⟨dels, puts', hwrites, hprep.deletes, ?_⟩
  rw [stackOf, List.map_cons, heq, hsaved]
  rfl

theorem updateNode_leaf (t : MerklePatriciaTrie) {fs : List (Frame Nibble Value)} {r : Nibbles}
    {w : Value} {k : Bytes} (hk : bytesToNibbles k = path fs ++ r) (v : Value) :
    ∃ puts, Writes o (plug fs (.leaf r w)) ((plug fs (.leaf r w)).insert (bytesToNibbles k) v) puts ∧
      t.updateNode o k v [] (stackOf o fs (.leaf r w)) =
        .ok (t.stored o ((plug fs (.leaf r w)).insert (bytesToNibbles k) v) puts) := by
  have hprep : Prepared o (.leaf r w) (.leaf r v) r [] (.leaf r v) [] [] :=
    ⟨by simp, rfl, rfl, by simp, by simp, fun _ _ _ => ⟨by simp, trivial⟩⟩
  obtain ⟨puts, hwrites, hsaved⟩ := hprep.saved t (linked_ancestors fs (.leaf r w)) hk
  have hins : (leaf r w).insert r v = .leaf r v := by
    rw [RadixTree.insert, if_pos rfl]
  rw [hk, insert_plug, hins]
  refine ⟨puts, hwrites, ?_⟩
  have hdrop : (bytesToNibbles k).drop (((ancestors fs (.leaf r w)).map o.node).map
      fun n => if n.isBranch then 1 else n.key.length).sum = r := by
    rw [sum_stack, hk, List.drop_left]
  have hself : matchingNibbleLength r r = r.length := by
    have happart : Apart ([] : Nibbles) [] := fun _ _ _ h => by cases h
    have hdiv := divide_append (m := r) happart
    rw [List.append_nil] at hdiv
    rw [matchingNibbleLength_eq, hdiv]
  have hmatch : (o.node (.leaf r w)).isLeaf = true ∧ ([] : Nibbles).length = 0 ∧
      matchingNibbleLength (o.node (.leaf r w)).key ((bytesToNibbles k).drop
        (((ancestors fs (.leaf r w)).map o.node).map
          fun n => if n.isBranch then 1 else n.key.length).sum) =
        (o.node (.leaf r w)).key.length :=
    ⟨rfl, rfl, by rw [hdrop]; exact hself⟩
  unfold updateNode stackOf
  rw [List.map_cons]
  simp only [if_pos hmatch]
  have hset : (o.node (.leaf r w)).setValue (.bytes v) = o.node (.leaf r v) := rfl
  rw [List.nil_append, List.nil_append] at hsaved
  rw [hset, hsaved]
  rfl

end MerklePatriciaTrie

end TsEthereum
