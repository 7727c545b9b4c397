import TsEthereum.Mpt.Tree

/-!
# What `saveStack` writes

`saveStack` rebuilds a path from the bottom up. Over nodes that stand for
trees it is a rebuilding of trees, `relinked`: whatever the key, each tree
of the stack gets the one below it as its child on the key's last nibble.
When the key is the one the stack was found by, that is `plug`
(`saveStack_plug`).
-/

namespace TsEthereum

open RadixTree RadixTree.Frames

/-- The part of a key a node takes itself. -/
def ownPath : Tree → Nibbles
  | .leaf p _ => p
  | .extension p _ => p
  | _ => []

/-- A tree with `last` below it, at the key's end, and the key left. -/
def relinkTree (key : Nibbles) (last : Tree) : Tree → Nibbles × Tree
  | .extension p _ => (spliceEnd key p.length, .extension p last)
  | .branch cs v =>
    (key.dropLast,
      match key.getLast? with
      | some i => .branch (Function.update cs i last) v
      | none => .branch cs v)
  | t => (spliceEnd key (ownPath t).length, t)

/-- **The trees of a stack, rebuilt over `last`**, innermost first. -/
def relinked : Nibbles → List Tree → Tree → List Tree
  | _, [], _ => []
  | key, t :: ts, last =>
    let (key, t) := relinkTree key last t
    t :: relinked key ts t

namespace MPTOpts

variable (o : MPTOpts)

/-- The operation that stores a tree's node. -/
def putNode (t : Tree) : BatchDBOp := .put (o.dbKey (o.rootHash t)) (o.enc t)

/-- **What is stored of a rebuilt path**: the nodes of 32 bytes or more, and
the root. -/
def saveOps : List Tree → List BatchDBOp
  | [] => []
  | [t] => [o.putNode t]
  | t :: ts => (if 32 ≤ (o.enc t).length then [o.putNode t] else []) ++ saveOps ts

/-- A node of the stack stands for a tree. An extension's value need not be
the tree's: `saveStack` overwrites it. -/
inductive StandsFor : MPTNode → Tree → Prop
  | node {t : Tree} (h : t ≠ .empty) : StandsFor (o.node t) t
  | extension (p : Nibbles) (x : NestedUint8Array) (c : Tree) :
    StandsFor (.extension p x) (.extension p c)

/-- A node of the stack is that of a step of a descent, whatever it holds
where the step leads. -/
def Linked (n : MPTNode) (f : Frame Nibble Value) : Prop :=
  ∃ x, o.StandsFor n (f.plug x)

end MPTOpts

open MPTOpts

variable {o : MPTOpts}

/-! ## Keys -/

theorem spliceEnd_append (k p : Nibbles) : spliceEnd (k ++ p) p.length = k := by
  rw [spliceEnd, if_pos (by simp)]
  simp

theorem spliceEnd_zero (k : Nibbles) : spliceEnd k 0 = k := by
  simp [spliceEnd]

/-! ## The loop -/

theorem formatNode_node {t : Tree} (h : t ≠ .empty) (topLevel : Bool) (opStack : List BatchDBOp) :
    MerklePatriciaTrie.formatNode o (o.node t) topLevel opStack false =
      (if topLevel then .bytes (o.rootHash t) else o.ref t,
        opStack ++ if 32 ≤ (o.enc t).length ∨ topLevel then [o.putNode t] else []) := by
  unfold MerklePatriciaTrie.formatNode
  rw [serialize_node h]
  by_cases hlen : 32 ≤ (o.enc t).length
  · simp [hlen, ref_of_le hlen, putNode, rootHash]
  · cases topLevel with
    | true => simp [putNode, rootHash]
    | false => simp [hlen, ref_of_lt h (Nat.lt_of_not_le hlen)]

theorem relink_standsFor {n : MPTNode} {t : Tree} (h : o.StandsFor n t) (key : Nibbles)
    (last : Tree) : MerklePatriciaTrie.relink key n (some (o.ref last)) =
      ((relinkTree key last t).1, o.node (relinkTree key last t).2) ∧
    (relinkTree key last t).2 ≠ .empty := by
  cases h with
  | extension p x c => exact ⟨rfl, by simp [relinkTree]⟩
  | node hne =>
    cases t with
    | empty => exact absurd rfl hne
    | leaf p v => exact ⟨rfl, by simp [relinkTree]⟩
    | extension p c => exact ⟨rfl, by simp [relinkTree]⟩
    | branch cs v =>
      simp only [MPTOpts.node, MerklePatriciaTrie.relink, setLastBranch, relinkTree]
      cases key.getLast? with
      | none => simp
      | some i => simp [MPTNode.setBranch, ref_update]

/-- **The loop of `saveStack` rebuilds the trees of its stack**: `t` is the
tree of the top node, and `key'` the key below it. -/
theorem saveStackLoop_eq {n : MPTNode} {t : Tree} {key key' : Nibbles}
    {lastRoot : Option NestedUint8Array}
    (hn : MerklePatriciaTrie.relink key n lastRoot = (key', o.node t)) (ht : t ≠ .empty)
    {stack : List MPTNode} {ts : List Tree} (hstack : List.Forall₂ o.StandsFor stack ts)
    (opStack : List BatchDBOp) {root : Tree}
    (hroot : (t :: relinked key' ts t).getLast? = some root) :
    MerklePatriciaTrie.saveStackLoop o key (n :: stack) lastRoot opStack =
      ⟨some (.bytes (o.rootHash root)), opStack ++ o.saveOps (t :: relinked key' ts t),
        (t :: relinked key' ts t).map o.node⟩ := by
  induction hstack generalizing n t key key' lastRoot opStack with
  | nil =>
    obtain rfl : t = root := by simpa [relinked] using hroot
    rw [MerklePatriciaTrie.saveStackLoop, hn]
    simp [formatNode_node ht, MerklePatriciaTrie.saveStackLoop, relinked, saveOps]
  | @cons m s stack ts hm hstack ih =>
    obtain ⟨hlink, hne⟩ := relink_standsFor hm key' t
    have hroot' : ((relinkTree key' t s).2 :: relinked (relinkTree key' t s).1 ts
        (relinkTree key' t s).2).getLast? = some root := by
      rwa [relinked, List.getLast?_cons_cons] at hroot
    rw [MerklePatriciaTrie.saveStackLoop, hn]
    simp only [List.isEmpty_cons, formatNode_node ht, Bool.false_eq_true, or_false, if_false]
    rw [ih hlink hne _ hroot']
    simp [relinked, saveOps, List.append_assoc]

/-! ## The stack of a descent -/

theorem exists_trees {stack : List MPTNode} {fs : List (Frame Nibble Value)}
    (h : List.Forall₂ o.Linked stack fs) :
    ∃ ts, List.Forall₂ o.StandsFor stack ts ∧
      List.Forall₂ (fun t f => ∃ x, t = Frame.plug f x) ts fs := by
  induction h with
  | nil => exact ⟨[], .nil, .nil⟩
  | cons hn _ ih =>
    obtain ⟨x, hx⟩ := hn
    obtain ⟨ts, hts, hfs⟩ := ih
    exact ⟨_ :: ts, .cons hx hts, .cons ⟨x, rfl⟩ hfs⟩

theorem linked_ancestors (fs : List (Frame Nibble Value)) (s : Tree) :
    List.Forall₂ o.Linked ((ancestors fs s).map o.node) fs := by
  induction fs generalizing s with
  | nil => exact .nil
  | cons f fs ih => exact .cons ⟨s, .node (framePlug_ne_empty f s)⟩ (ih (f.plug s))

/-- **Rebuilding the nodes of a descent by its own key** puts the new
subtree in their place. -/
theorem relinked_of_linked {ts : List Tree} {fs : List (Frame Nibble Value)}
    (h : List.Forall₂ (fun t f => ∃ x, t = Frame.plug f x) ts fs) (s : Tree) :
    relinked (path fs) ts s = ancestors fs s := by
  induction h generalizing s with
  | nil => rfl
  | @cons t f ts fs hf _ ih =>
    obtain ⟨x, rfl⟩ := hf
    have hrel : relinkTree (path (f :: fs)) s (f.plug x) = (path fs, f.plug s) := by
      cases f with
      | extension p => simp [Frame.plug, Frame.path, relinkTree, spliceEnd_append]
      | branch cs v a => simp [Frame.plug, Frame.path, relinkTree]
    rw [relinked, hrel]
    simp only [ih, ancestors_cons]

/-! ## The trie it leaves -/

namespace MerklePatriciaTrie

/-- A trie with another root, after some operations. -/
def stored (o : MPTOpts) (t : MerklePatriciaTrie) (root : Tree) (opStack : List BatchDBOp) :
    MerklePatriciaTrie :=
  ({ _root := o.rootHash root, _db := t._db.batch opStack } : MerklePatriciaTrie).persistRoot o

theorem setRoot_hash (t : MerklePatriciaTrie) (msg : Bytes) :
    t.setRoot o (o.hash msg) = .ok { t with _root := o.hash msg } := by
  rw [setRoot, if_neg (by simp [EMPTY_TRIE_ROOT])]

/-- **`saveStack`, whatever its key**: the trees of the stack are rebuilt
and stored, and the last is the new root. -/
theorem saveStack_eq (trie : MerklePatriciaTrie) {t : Tree} (ht : t ≠ .empty)
    {stack : List MPTNode} {ts : List Tree} (hstack : List.Forall₂ o.StandsFor stack ts)
    (key : Nibbles) (opStack : List BatchDBOp) {root : Tree}
    (hroot : (t :: relinked (spliceEnd key (ownPath t).length) ts t).getLast? = some root) :
    trie.saveStack o key (o.node t :: stack) opStack =
      .ok (trie.stored o root
          (opStack ++ o.saveOps (t :: relinked (spliceEnd key (ownPath t).length) ts t)),
        (t :: relinked (spliceEnd key (ownPath t).length) ts t).map o.node) := by
  have hn : relink key (o.node t) none = (spliceEnd key (ownPath t).length, o.node t) := by
    cases t with
    | empty => exact absurd rfl ht
    | leaf p v => rfl
    | extension p c => rfl
    | branch cs v => simp [relink, MPTOpts.node, ownPath, spliceEnd_zero]
  unfold saveStack
  simp only [saveStackLoop_eq hn ht hstack opStack hroot, rootHash, setRoot_hash, ok_bind]
  rfl

/-- **`saveStack` on the nodes of a descent**, with `s` at its end: the new
trie is the tree with `s` there. -/
theorem saveStack_plug (trie : MerklePatriciaTrie) {fs : List (Frame Nibble Value)} {s : Tree}
    (hs : s ≠ .empty) {stack : List MPTNode} (hstack : List.Forall₂ o.Linked stack fs)
    {key : Nibbles} (hkey : key = path fs ++ ownPath s) (opStack : List BatchDBOp) :
    trie.saveStack o key (o.node s :: stack) opStack =
      .ok (trie.stored o (plug fs s) (opStack ++ o.saveOps (s :: ancestors fs s)),
        (s :: ancestors fs s).map o.node) := by
  subst hkey
  obtain ⟨ts, hts, hfs⟩ := exists_trees hstack
  have hrel : relinked (spliceEnd (path fs ++ ownPath s) (ownPath s).length) ts s =
      ancestors fs s := by
    rw [spliceEnd_append, relinked_of_linked hfs]
  have hroot : (s :: relinked (spliceEnd (path fs ++ ownPath s) (ownPath s).length) ts s).getLast? =
      some (plug fs s) := by
    rw [hrel, getLast?_ancestors]
  have h := saveStack_eq trie hs hts (path fs ++ ownPath s) opStack hroot
  rwa [hrel] at h

end MerklePatriciaTrie

end TsEthereum
