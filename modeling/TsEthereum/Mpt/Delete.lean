import TsEthereum.Mpt.Update

/-!
# What `_deleteNode` does to the tree

`_deleteNode` takes a leaf from its branch, or leaves a branch as it is,
and looks at the children left: a single one takes the branch's place,
joined with an extension above. `removedAt` is the tree this makes, as the
source makes it: the value of a branch is not cleared, a branch that
collapses loses it, and a branch at the root becomes the empty trie.
-/

namespace TsEthereum

open RadixTree RadixTree.Frames MPTOpts

/-- The nibbles a branch has children on, in order. -/
def childList (cs : Nibble → Tree) : List Nibble :=
  (List.finRange 16).filter fun i => cs i ≠ .empty

/-- **The tree after the children of a branch changed**: a single child
takes the branch's place, whatever value the branch has. -/
def settle (fs : List (Frame Nibble Value)) (cs : Nibble → Tree) (w : Option Value) : Tree :=
  match childList cs with
  | [j] => rejoin fs ((cs j).prepend [j])
  | _ => plug fs (.branch cs w)

/-- **The tree after `_deleteNode`** at the node `s` below the frames. -/
def removedAt : List (Frame Nibble Value) → Tree → Tree
  | [], _ => .empty
  | f :: fs, .branch cs w => settle (f :: fs) cs w
  | .branch cs w i :: fs, _ => settle fs (Function.update cs i .empty) w
  | .extension p :: fs, s => plug (.extension p :: fs) s

/-- The children left at the branch `_deleteNode` looks at. -/
def childrenLeft : List (Frame Nibble Value) → Tree → Nibble → Tree
  | _, .branch cs _ => cs
  | .branch cs _ i :: _, _ => Function.update cs i .empty
  | _, _ => fun _ => .empty

variable {o : MPTOpts}

theorem mem_childList {cs : Nibble → Tree} {i : Nibble} : i ∈ childList cs ↔ cs i ≠ .empty := by
  simp [childList]

theorem nodup_childList (cs : Nibble → Tree) : (childList cs).Nodup :=
  (List.nodup_finRange 16).filter _

theorem length_childList (cs : Nibble → Tree) : (childList cs).length = (letters cs).card := by
  have heq : letters cs = (childList cs).toFinset := by
    ext i
    rw [mem_letters, List.mem_toFinset, mem_childList]
  rw [heq, List.toFinset_card_of_nodup (nodup_childList cs)]

theorem getChildren_ref (cs : Nibble → Tree) :
    MPTNode.getChildren (fun i => o.ref (cs i)) = (childList cs).map fun i => (i, o.ref (cs i)) := by
  unfold MPTNode.getChildren childList
  simp only [getBranch_ref]
  induction List.finRange 16 with
  | nil => rfl
  | cons i l ih =>
    by_cases hi : cs i = .empty
    · simp [hi, ih]
    · simp [hi, ih]

theorem childList_eq_singleton {cs : Nibble → Tree} {j : Nibble} (h : childList cs = [j]) :
    cs j ≠ .empty ∧ ∀ i, i ≠ j → cs i = .empty := by
  refine ⟨mem_childList.1 (by simp [h]), fun i hij => ?_⟩
  by_contra hi
  have hmem := mem_childList.2 hi
  rw [h, List.mem_singleton] at hmem
  exact hij hmem

/-! ## The node a single child becomes -/

theorem linked_cases {stack : List MPTNode} {fs : List (Frame Nibble Value)}
    (h : List.Forall₂ o.Linked stack fs) :
    (stack = [] ∧ fs = []) ∨
      (∃ p x stack' fs', stack = .extension p x :: stack' ∧ fs = .extension p :: fs' ∧
        List.Forall₂ o.Linked stack' fs') ∨
      ∃ bs y stack' cs w i fs', stack = .branch bs y :: stack' ∧ fs = .branch cs w i :: fs' := by
  cases h with
  | nil => exact .inl ⟨rfl, rfl⟩
  | @cons n f stack fs hn h =>
    obtain ⟨x, hx⟩ := hn
    right
    cases f with
    | extension p =>
      left
      cases hx with
      | node _ => exact ⟨p, o.ref x, stack, fs, rfl, rfl, h⟩
      | extension _ y _ => exact ⟨p, y, stack, fs, rfl, rfl, h⟩
    | branch cs w i =>
      right
      cases hx with
      | node _ => exact ⟨_, slot w, stack, cs, w, i, fs, rfl, rfl⟩

/-- The key and the nodes are those of the tree with the child `u` on `j` in
the place of its branch. -/
def TakesPlace (o : MPTOpts) (fs : List (Frame Nibble Value)) (j : Nibble) (u : Tree)
    (res : Nibbles × List MPTNode) : Prop :=
  ∃ gs top stack, top ≠ .empty ∧ List.Forall₂ o.Linked stack gs ∧
    res = (path gs ++ ownPath top, o.node top :: stack) ∧ plug gs top = rejoin fs (u.prepend [j]) ∧
    ∀ P, (∀ f ∈ fs, f.Beside P) → u.Below P → (∀ f ∈ gs, f.Beside P) ∧ top.Below P

/-- Below a branch, or at the root, the child takes the nibble in front of
its path; a branch comes to stand below a new extension. -/
theorem takesPlace_plain {fs : List (Frame Nibble Value)} {stack : List MPTNode}
    (hfs : ∀ p fs', fs ≠ .extension p :: fs') (hstack : List.Forall₂ o.Linked stack fs)
    (j : Nibble) {u : Tree} (hu : u ≠ .empty) :
    TakesPlace o fs j u (if (o.node u).isBranch then
        (path fs ++ [j], o.node u :: .extension [j] .null :: stack)
      else (path fs ++ j :: (o.node u).key, (o.node u).setKey (j :: (o.node u).key) :: stack)) := by
  have hrejoin (x : Tree) : rejoin fs x = plug fs x := by
    unfold rejoin
    split
    · next p fs' => exact absurd rfl (hfs p fs')
    · rfl
  unfold TakesPlace
  rw [hrejoin]
  cases u with
  | empty => exact absurd rfl hu
  | leaf q w =>
    exact ⟨fs, .leaf (j :: q) w, stack, by simp, hstack, rfl, rfl, fun P hP _ => ⟨hP, trivial⟩⟩
  | extension q c =>
    exact ⟨fs, .extension (j :: q) c, stack, by simp, hstack, rfl, rfl, fun P hP hc => ⟨hP, hc⟩⟩
  | branch cs w =>
    refine ⟨.extension [j] :: fs, .branch cs w, .extension [j] .null :: stack, by simp,
      .cons ⟨.empty, .extension [j] .null .empty⟩ hstack, ?_, rfl, fun P hP hb => ⟨?_, hb⟩⟩
    · simp [MPTOpts.node, MPTNode.isBranch, ownPath, Frame.path]
    · exact List.forall_mem_cons.2 ⟨trivial, hP⟩

theorem takesPlace_extension {fs : List (Frame Nibble Value)} {stack : List MPTNode}
    (hstack : List.Forall₂ o.Linked stack fs) (p : Nibbles) (x : NestedUint8Array) (j : Nibble)
    {u : Tree} (hu : u ≠ .empty) :
    TakesPlace o (.extension p :: fs) j u (if (o.node u).isBranch then
        (path fs ++ p ++ [j], o.node u :: .extension (p ++ [j]) x :: stack)
      else (path fs ++ p ++ j :: (o.node u).key,
        (o.node u).setKey (p ++ j :: (o.node u).key) :: stack)) := by
  have hside {P : Tree → Prop} (hP : ∀ f ∈ Frame.extension p :: fs, f.Beside P) :
      ∀ f ∈ fs, f.Beside P := (List.forall_mem_cons.1 hP).2
  unfold TakesPlace
  cases u with
  | empty => exact absurd rfl hu
  | leaf q w =>
    refine ⟨fs, .leaf (p ++ j :: q) w, stack, by simp, hstack, ?_, ?_,
      fun P hP _ => ⟨hside hP, trivial⟩⟩
    · simp [MPTOpts.node, MPTNode.isBranch, MPTNode.key, MPTNode.setKey, ownPath]
    · simp [rejoin, prepend]
  | extension q c =>
    refine ⟨fs, .extension (p ++ j :: q) c, stack, by simp, hstack, ?_, ?_,
      fun P hP hc => ⟨hside hP, hc⟩⟩
    · simp [MPTOpts.node, MPTNode.isBranch, MPTNode.key, MPTNode.setKey, ownPath]
    · simp [rejoin, prepend]
  | branch cs w =>
    refine ⟨.extension (p ++ [j]) :: fs, .branch cs w, .extension (p ++ [j]) x :: stack, by simp,
      .cons ⟨.empty, .extension (p ++ [j]) x .empty⟩ hstack, ?_, ?_, fun P hP hb => ⟨?_, hb⟩⟩
    · simp [MPTOpts.node, MPTNode.isBranch, ownPath, Frame.path]
    · simp [rejoin, prepend, RadixTree.extend, Frame.plug]
    · exact List.forall_mem_cons.2 ⟨trivial, hside hP⟩

/-- **`processBranchMPTNode` puts the child in the branch's place**, joined
with an extension above it. -/
theorem processBranch_spec {stack : List MPTNode} {fs : List (Frame Nibble Value)}
    (hstack : List.Forall₂ o.Linked stack fs) (j : Nibble) {u : Tree} (hu : u ≠ .empty) :
    TakesPlace o fs j u (MerklePatriciaTrie.processBranchMPTNode (path fs) j (o.node u) stack.head?
      stack.tail) := by
  rcases linked_cases hstack with ⟨rfl, rfl⟩ | ⟨p, x, stack, fs, rfl, rfl, hlink⟩ |
      ⟨bs, y, stack, cs, w, i, fs, rfl, rfl⟩
  · exact takesPlace_plain (by simp) .nil j hu
  · exact takesPlace_extension hlink p x j hu
  · exact takesPlace_plain (by simp) hstack j hu

/-! ## `_deleteNode` -/

/-- The deletion a collapsing branch collects for its single child. -/
def siblingDel (o : MPTOpts) (u : Tree) : BatchDBOp :=
  match o.ref u with
  | .list raw => .del (o.appliedKey (Rlp.encode (.list raw)))
  | .bytes h => .del h

theorem writes_plug {gs : List (Frame Nibble Value)} {top root : Tree} (htop : top ≠ .empty)
    (hroot : plug gs top = root) :
    (∀ op ∈ o.saveOps (top :: ancestors gs top), ∃ u, u ≠ .empty ∧ op = o.putNode u) ∧
    o.putNode root ∈ o.saveOps (top :: ancestors gs top) ∧
    ∀ P, Covers o (o.saveOps (top :: ancestors gs top)) P → (∀ f ∈ gs, f.Beside P) →
      top.Below P → root.Below P := by
  refine ⟨stores_saveOps fun u hu => ?_, putNode_getLast?_mem_saveOps ?_, fun P hP hgs ht => ?_⟩
  · rcases List.mem_cons.1 hu with rfl | hu
    · exact htop
    · exact ne_empty_of_mem_ancestors hu
  · rw [getLast?_ancestors, hroot]
  · rw [← hroot, below_plug]
    have hcov : Covers o ([] ++ o.saveOps (top :: ancestors gs top)) P := hP
    exact ⟨hgs, ht, fun u hu => hcov.of_mem_saveOps (List.dropLast_subset _ hu)⟩

/-- **The trie after a branch settled**: `dels` are the deletions collected
before, `cs` the branch's children by now. -/
def Settled (o : MPTOpts) (t : MerklePatriciaTrie) (fs : List (Frame Nibble Value))
    (cs : Nibble → Tree) (w : Option Value) (dels : List BatchDBOp)
    (res : Except MPTError MerklePatriciaTrie) : Prop :=
  ∃ dels' puts,
    (∀ op ∈ dels', op ∈ dels ∨ (o.useNodePruning = true ∧
      ∃ j, childList cs = [j] ∧ op = siblingDel o (cs j))) ∧
    (∀ op ∈ puts, ∃ u, u ≠ .empty ∧ op = o.putNode u) ∧
    o.putNode (settle fs cs w) ∈ puts ∧
    (∀ P, Covers o puts P → (∀ f ∈ fs, f.Beside P) → (branch cs w).Below P →
      (settle fs cs w).Below P) ∧
    res = .ok (t.stored o (settle fs cs w) (dels' ++ puts))

theorem collapseBranch_stays (t : MerklePatriciaTrie) {stack : List MPTNode}
    {fs : List (Frame Nibble Value)} (hstack : List.Forall₂ o.Linked stack fs)
    {cs : Nibble → Tree} (hmany : ∀ j, childList cs ≠ [j]) (w : Option Value)
    (dels : List BatchDBOp) :
    Settled o t fs cs w dels (t.collapseBranch o (path fs) (fun i => o.ref (cs i)) (slot w)
      stack.head? stack.tail dels) := by
  have hsettle : settle fs cs w = plug fs (.branch cs w) := by
    unfold settle
    split
    · next j hj => exact absurd hj (hmany j)
    · rfl
  have hpar : stack.head?.toList ++ stack.tail = stack := by cases stack <;> rfl
  have heq : t.collapseBranch o (path fs) (fun i => o.ref (cs i)) (slot w) stack.head? stack.tail
      dels = (t.saveStack o (path fs) (o.node (.branch cs w) :: stack) dels) >>=
        fun saved => .ok saved.1 := by
    unfold MerklePatriciaTrie.collapseBranch
    rw [getChildren_ref, hpar]
    split
    · next j x hj =>
      obtain ⟨i, hi, -⟩ := List.map_eq_singleton_iff.1 hj
      exact absurd hi (hmany i)
    · rfl
  have hkey : path fs = path fs ++ ownPath (.branch cs w) := by simp [ownPath]
  have hne : branch cs w ≠ .empty := by simp
  obtain ⟨hstores, hput, hbelow⟩ := writes_plug (o := o) hne (Eq.refl (plug fs (.branch cs w)))
  refine ⟨dels, o.saveOps (.branch cs w :: ancestors fs (.branch cs w)), fun op hop => .inl hop,
    hstores, hsettle ▸ hput, ?_, ?_⟩
  · intro P hcov hfs hcs
    rw [hsettle]
    exact hbelow P hcov hfs hcs
  · rw [heq, MerklePatriciaTrie.saveStack_plug t hne hstack hkey, hsettle]
    rfl

theorem collapseBranch_single (t : MerklePatriciaTrie) {stack : List MPTNode}
    {fs : List (Frame Nibble Value)} (hstack : List.Forall₂ o.Linked stack fs)
    {cs : Nibble → Tree} {j : Nibble} (hj : childList cs = [j]) (w : Option Value)
    (dels : List BatchDBOp) (hread : t.lookupNode o (o.ref (cs j)) = .ok (o.node (cs j))) :
    Settled o t fs cs w dels (t.collapseBranch o (path fs) (fun i => o.ref (cs i)) (slot w)
      stack.head? stack.tail dels) := by
  have hcj := (childList_eq_singleton hj).1
  have hsettle : settle fs cs w = rejoin fs ((cs j).prepend [j]) := by
    unfold settle
    rw [hj]
  obtain ⟨gs, top, stack', htop, hlink, hproc, htree, hP⟩ := processBranch_spec hstack j hcj
  obtain ⟨hstores, hput, hbelow⟩ := writes_plug (o := o) htop htree
  have hops : (if o.useNodePruning = true then
        match o.ref (cs j) with
        | .list _ => dels ++ [.del (o.appliedKey (Rlp.encode (o.ref (cs j))))]
        | .bytes h => dels ++ [.del h]
      else dels) = if o.useNodePruning = true then dels ++ [siblingDel o (cs j)] else dels := by
    unfold siblingDel
    cases o.ref (cs j) <;> rfl
  refine ⟨if o.useNodePruning then dels ++ [siblingDel o (cs j)] else dels,
    o.saveOps (top :: ancestors gs top), ?_, hstores, hsettle ▸ hput, ?_, ?_⟩
  · intro op hop
    split at hop
    · next hprune =>
      rcases List.mem_append.1 hop with hop | hop
      · exact .inl hop
      · exact .inr ⟨hprune, j, hj, List.mem_singleton.1 hop⟩
    · exact .inl hop
  · intro P hcov hfs hcs
    obtain ⟨hgs, ht⟩ := hP P hfs (hcs j).2
    rw [hsettle]
    exact hbelow P hcov hgs ht
  · unfold MerklePatriciaTrie.collapseBranch
    rw [getChildren_ref, hj]
    simp only [List.map_cons, List.map_nil, hread, ok_bind, hproc]
    rw [MerklePatriciaTrie.saveStack_plug t htop hlink rfl, htree, hsettle, ← hops]
    rfl

theorem collapseBranch_settled (t : MerklePatriciaTrie) {stack : List MPTNode}
    {fs : List (Frame Nibble Value)} (hstack : List.Forall₂ o.Linked stack fs)
    (cs : Nibble → Tree) (w : Option Value) (dels : List BatchDBOp)
    (hread : ∀ j, childList cs = [j] → t.lookupNode o (o.ref (cs j)) = .ok (o.node (cs j))) :
    Settled o t fs cs w dels (t.collapseBranch o (path fs) (fun i => o.ref (cs i)) (slot w)
      stack.head? stack.tail dels) := by
  by_cases hone : ∃ j, childList cs = [j]
  · obtain ⟨j, hj⟩ := hone
    exact collapseBranch_single t hstack hj w dels (hread j hj)
  · exact collapseBranch_stays t hstack (fun j hj => hone ⟨j, hj⟩) w dels

namespace MerklePatriciaTrie

variable (t : MerklePatriciaTrie)

theorem deleteNode_root (k : Bytes) (n : MPTNode) :
    t.deleteNode o k [n] = .ok { t with _root := o.EMPTY_TRIE_ROOT } :=
  setRoot_hash t RLP_EMPTY_STRING

/-- At a branch below the root, `_deleteNode` settles it as it is: the value
is not cleared. -/
theorem deleteNode_branch {f : Frame Nibble Value} {fs : List (Frame Nibble Value)}
    {cs : Nibble → Tree} {w : Option Value} {k : Bytes}
    (hk : bytesToNibbles k = path (f :: fs))
    (hread : ∀ j, childList cs = [j] → t.lookupNode o (o.ref (cs j)) = .ok (o.node (cs j))) :
    Settled o t (f :: fs) cs w []
      (t.deleteNode o k (stackOf o (f :: fs) (.branch cs w))) := by
  have h := collapseBranch_settled t (linked_ancestors (o := o) (f :: fs) (.branch cs w)) cs w []
    hread
  rw [← hk] at h
  exact h

theorem deleteNode_leaf_eq {cs : Nibble → Tree} {w : Option Value} {i : Nibble}
    {fs : List (Frame Nibble Value)} {r : Nibbles} {v : Value} {k : Bytes}
    (hk : bytesToNibbles k = path (.branch cs w i :: fs) ++ r) :
    t.deleteNode o k (stackOf o (.branch cs w i :: fs) (.leaf r v)) =
      t.collapseBranch o (path fs) (fun j => o.ref (Function.update cs i .empty j)) (slot w)
        ((ancestors fs ((Frame.branch cs w i).plug (.leaf r v))).map o.node).head?
        ((ancestors fs ((Frame.branch cs w i).plug (.leaf r v))).map o.node).tail
        (formatNode o (o.node (.leaf r v)) false [] true).2 := by
  have hkey : spliceEnd (bytesToNibbles k) r.length = path fs ++ [i] := by
    rw [hk, spliceEnd_append]
    rfl
  have hset : setLastBranch (o.node ((Frame.branch cs w i).plug (.leaf r v))) (path fs ++ [i]) .null =
      o.node (.branch (Function.update cs i .empty) w) := by
    have hupd := ref_update (o := o) (Function.update cs i (.leaf r v)) i .empty
    rw [ref_empty, Function.update_idem] at hupd
    simp only [setLastBranch, List.getLast?_concat, Frame.plug, MPTOpts.node, MPTNode.setBranch,
      hupd]
  unfold deleteNode stackOf
  simp only [ancestors_cons, List.map_cons]
  have hbr : o.node ((Frame.branch cs w i).plug (.leaf r v)) =
      .branch (fun j => o.ref (Function.update cs i (.leaf r v) j)) (slot w) := rfl
  have hleaf : (o.node (.leaf r v)).setValueOrNull none = .leaf r (.bytes v) := rfl
  have hkeyr : (o.node (.leaf r v)).key = r := rfl
  rw [hbr] at hset ⊢
  simp only [hleaf, hkeyr, hkey, hset]
  simp [MPTOpts.node]

theorem deleteNode_leaf {cs : Nibble → Tree} {w : Option Value} {i : Nibble}
    {fs : List (Frame Nibble Value)} {r : Nibbles} {v : Value} {k : Bytes}
    (hk : bytesToNibbles k = path (.branch cs w i :: fs) ++ r)
    (hread : ∀ j, childList (Function.update cs i .empty) = [j] →
      t.lookupNode o (o.ref (Function.update cs i .empty j)) =
        .ok (o.node (Function.update cs i .empty j))) :
    Settled o t fs (Function.update cs i .empty) w
      (formatNode o (o.node (.leaf r v)) false [] true).2
      (t.deleteNode o k (stackOf o (.branch cs w i :: fs) (.leaf r v))) := by
  have h := collapseBranch_settled t
    (linked_ancestors (o := o) fs ((Frame.branch cs w i).plug (.leaf r v)))
    (Function.update cs i .empty) w (formatNode o (o.node (.leaf r v)) false [] true).2 hread
  rw [deleteNode_leaf_eq t hk]
  exact h

theorem read_of_collapseBranch {key : Nibbles} {cs : Nibble → Tree} {value : NestedUint8Array}
    {parentNode : Option MPTNode} {stack : List MPTNode} {ops : List BatchDBOp} {j : Nibble}
    (hj : childList cs = [j]) {t' : MerklePatriciaTrie}
    (h : t.collapseBranch o key (fun i => o.ref (cs i)) value parentNode stack ops = .ok t') :
    ∃ n, t.lookupNode o (o.ref (cs j)) = .ok n := by
  unfold collapseBranch at h
  rw [getChildren_ref, hj] at h
  obtain ⟨n, hn, -⟩ := bind_eq_ok.1 h
  exact ⟨n, hn⟩

theorem read_of_deleteNode {f : Frame Nibble Value} {fs : List (Frame Nibble Value)} {s : Tree}
    {r : Nibbles} (hs : (∃ v, s = .leaf r v) ∨ (s.isBranch ∧ r = [])) {k : Bytes}
    (hk : bytesToNibbles k = path (f :: fs) ++ r) {t' : MerklePatriciaTrie}
    (h : t.deleteNode o k (stackOf o (f :: fs) s) = .ok t') {j : Nibble}
    (hj : childList (childrenLeft (f :: fs) s) = [j]) :
    ∃ n, t.lookupNode o (o.ref (childrenLeft (f :: fs) s j)) = .ok n := by
  rcases hs with ⟨v, rfl⟩ | ⟨hb, rfl⟩
  · cases f with
    | extension p => exact absurd rfl (childList_eq_singleton hj).1
    | branch cs w i =>
      rw [deleteNode_leaf_eq t hk] at h
      exact read_of_collapseBranch t hj h
  · cases s with
    | branch cs w => exact read_of_collapseBranch t hj h
    | _ => cases hb

/-- **`_deleteNode` below the root** writes the tree `removedAt` describes;
`s` is what the walk found, a leaf or a branch. -/
theorem deleteNode_removedAt {f : Frame Nibble Value} {fs : List (Frame Nibble Value)} {s : Tree}
    (hwf : (plug (f :: fs) s).WellFormed) {r : Nibbles}
    (hs : (∃ v, s = .leaf r v) ∨ (s.isBranch ∧ r = [])) {k : Bytes}
    (hk : bytesToNibbles k = path (f :: fs) ++ r)
    (hread : ∀ j, childList (childrenLeft (f :: fs) s) = [j] →
      t.lookupNode o (o.ref (childrenLeft (f :: fs) s j)) =
        .ok (o.node (childrenLeft (f :: fs) s j))) :
    ∃ dels puts, Writes o (plug (f :: fs) s) (removedAt (f :: fs) s) puts ∧
      (∀ op ∈ dels, o.useNodePruning = true ∧ (op = .del (o.dbKey (o.rootHash s)) ∨
        ∃ j, childList (childrenLeft (f :: fs) s) = [j] ∧
          op = siblingDel o (childrenLeft (f :: fs) s j))) ∧
      t.deleteNode o k (stackOf o (f :: fs) s) =
        .ok (t.stored o (removedAt (f :: fs) s) (dels ++ puts)) := by
  rcases hs with ⟨v, rfl⟩ | ⟨hb, rfl⟩
  · cases f with
    | extension p =>
      cases Shaped.isBranch_of_plug hwf
    | branch cs w i =>
      obtain ⟨dels, puts, hdels, hstores, hroot, hbelow, heq⟩ := deleteNode_leaf t hk hread
      refine ⟨dels, puts, ⟨hstores, hroot, fun P hP hT => ?_⟩, fun op hop => ?_, heq⟩
      · obtain ⟨hside, -⟩ := below_plug.1 hT
        refine hbelow P hP (List.forall_mem_cons.1 hside).2 ?_
        have hnone : P .empty ∧ (empty : Tree).Below P :=
          ⟨hP.small .empty (by rw [length_enc_empty]; omega), trivial⟩
        intro j
        rcases eq_or_ne j i with rfl | hj
        · rwa [Function.update_self]
        · rw [Function.update_of_ne hj]
          exact hside _ List.mem_cons_self j hj
      · rcases hdels op hop with hop | ⟨hprune, hsib⟩
        · obtain ⟨hprune, hop⟩ := formatNode_remove (by simp) op hop
          exact ⟨hprune, .inl hop⟩
        · exact ⟨hprune, .inr hsib⟩
  · cases s with
    | branch cs w =>
      rw [List.append_nil] at hk
      obtain ⟨dels, puts, hdels, hstores, hroot, hbelow, heq⟩ := deleteNode_branch t hk hread
      refine ⟨dels, puts, ⟨hstores, hroot, fun P hP hT => ?_⟩, fun op hop => ?_, heq⟩
      · obtain ⟨hside, hs, -⟩ := below_plug.1 hT
        exact hbelow P hP hside hs
      · rcases hdels op hop with hop | ⟨hprune, hsib⟩
        · cases hop
        · exact ⟨hprune, .inr hsib⟩
    | _ => cases hb

end MerklePatriciaTrie

end TsEthereum
