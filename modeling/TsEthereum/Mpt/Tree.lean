import TsEthereum.Common.RadixTree.Subtrees
import TsEthereum.Mpt.Trie
import TsEthereum.Rlp.RoundTrip

/-!
# The tree a trie stores

A root hash stands for a radix tree over nibbles. `raw` is a tree's node as
it is written, with every child in it or, from 32 bytes on, as a hash;
`node` is the node object and `rootHash` the root. A node written is read
back as itself, and a root determines its tree where the hash is injective
on the strings written.
-/

namespace TsEthereum

open RadixTree

/-- A value of the trie: `put` of an empty one is a deletion. -/
abbrev Value := { v : Bytes // v ≠ [] }

/-- A radix tree over nibbles. -/
abbrev Tree := RadixTree Nibble Value

/-- A value in its slot. -/
def slot (v : Option Value) : NestedUint8Array := .bytes (v.elim [] Subtype.val)

@[simp] theorem slot_none : slot none = .null := rfl

@[simp] theorem slot_some (v : Value) : slot (some v) = .bytes v := rfl

theorem slot_injective : Function.Injective slot := by
  intro v w h
  have hvw := NestedUint8Array.bytes.inj h
  cases v with
  | none =>
    cases w with
    | none => rfl
    | some w => exact absurd hvw.symm w.2
  | some v =>
    cases w with
    | none => exact absurd hvw v.2
    | some w => exact congrArg some (Subtype.ext hvw)

namespace MPTOpts

variable (o : MPTOpts)

/-- How a node is referred to: as it is, or by its hash from 32 bytes on. -/
def refOf (raw : NestedUint8Array) : NestedUint8Array :=
  if 32 ≤ (Rlp.encode raw).length then .bytes (o.hash (Rlp.encode raw)) else raw

/-- **The node of a tree as it is written.** -/
def raw : Tree → NestedUint8Array
  | .empty => .null
  | .leaf p v => .list [.bytes (nibblesTypeToPackedBytes (addHexPrefix p true)), .bytes v]
  | .extension p c =>
    .list [.bytes (nibblesTypeToPackedBytes (addHexPrefix p false)), o.refOf (raw c)]
  | .branch cs v => .list ((List.finRange 16).map (fun i => o.refOf (raw (cs i))) ++ [slot v])

/-- The reference of a tree in its parent. -/
def ref (t : Tree) : NestedUint8Array := o.refOf (o.raw t)

/-- The serialized node of a tree. -/
def enc (t : Tree) : Bytes := Rlp.encode (o.raw t)

/-- **The root of a tree.** -/
def rootHash (t : Tree) : Bytes := o.hash (o.enc t)

/-- The node object of a tree; the empty tree has none. -/
def node : Tree → MPTNode
  | .empty => .emptyBranch
  | .leaf p v => .leaf p (.bytes v)
  | .extension p c => .extension p (o.ref c)
  | .branch cs v => .branch (fun i => o.ref (cs i)) (slot v)

variable {o}

@[simp] theorem length_hash (msg : Bytes) : (o.hash msg).length = 32 :=
  o.useKeyHashingFunction.length_hash msg

@[simp] theorem ref_empty : o.ref .empty = .null := by
  have hlt : ¬ 32 ≤ (Rlp.encode .null).length := by decide
  rw [ref, refOf, raw, if_neg hlt]

@[simp] theorem rootHash_empty : o.rootHash .empty = o.EMPTY_TRIE_ROOT := by
  rw [rootHash, EMPTY_TRIE_ROOT]
  rfl

theorem raw_eq_list {t : Tree} (h : t ≠ .empty) : o.raw t = .list (o.node t).raw := by
  cases t with
  | empty => exact absurd rfl h
  | _ => rfl

theorem serialize_node {t : Tree} (h : t ≠ .empty) : (o.node t).serialize = o.enc t := by
  rw [enc, raw_eq_list h]
  rfl

theorem ref_of_lt {t : Tree} (hne : t ≠ .empty) (h : (o.enc t).length < 32) :
    o.ref t = .list (o.node t).raw := by
  have hlt : ¬ 32 ≤ (Rlp.encode (o.raw t)).length := by
    rw [← enc]
    omega
  rw [ref, refOf, if_neg hlt, raw_eq_list hne]

theorem ref_of_le {t : Tree} (h : 32 ≤ (o.enc t).length) : o.ref t = .bytes (o.rootHash t) :=
  if_pos h

theorem length_enc_empty : (o.enc .empty).length = 1 := by
  rw [enc]
  rfl

theorem length_raw_pos (n : MPTNode) : 0 < n.raw.length := by
  cases n <;> simp [MPTNode.raw]

theorem length_ref_pos {t : Tree} : 0 < (o.ref t).length ↔ t ≠ .empty := by
  constructor
  · rintro h rfl
    simp [NestedUint8Array.length] at h
  · intro hne
    rcases Nat.lt_or_ge (o.enc t).length 32 with hlt | hle
    · rw [ref_of_lt hne hlt]
      exact length_raw_pos _
    · rw [ref_of_le hle, NestedUint8Array.length, rootHash, length_hash]
      omega

theorem getBranch_ref (cs : Nibble → Tree) (i : Nibble) :
    MPTNode.getBranch (fun i => o.ref (cs i)) i =
      if cs i = .empty then none else some (o.ref (cs i)) := by
  rw [MPTNode.getBranch]
  by_cases h : cs i = .empty
  · rw [if_neg (by rw [length_ref_pos]; exact fun hne => hne h), if_pos h]
  · rw [if_pos (length_ref_pos.2 h), if_neg h]

theorem ref_update (cs : Nibble → Tree) (i : Nibble) (t : Tree) :
    Function.update (fun j => o.ref (cs j)) i (o.ref t) =
      fun j => o.ref (Function.update cs i t j) := by
  funext j
  rcases eq_or_ne j i with rfl | hj
  · simp
  · simp [hj]

theorem value_node_branch (cs : Nibble → Tree) (v : Option Value) :
    (o.node (.branch cs v)).value = v.map fun v => .bytes v := by
  cases v with
  | none => rfl
  | some v =>
    have hpos : 0 < (slot (some v)).length := List.length_pos_iff.2 v.2
    simp only [node, MPTNode.value, if_pos hpos]
    rfl

end MPTOpts

/-! ## Decoding -/

theorem getD_map_finRange {β : Type*} (f : Nibble → β) (v d : β) (i : Nibble) :
    ((List.finRange 16).map f ++ [v]).getD i d = f i := by
  have hi : (i : ℕ) < ((List.finRange 16).map f).length := by simp
  rw [List.getD_eq_getElem?_getD, List.getElem?_append_left hi]
  simp

theorem decodeRawMPTNode_raw (n : MPTNode) : decodeRawMPTNode n.raw = .ok n := by
  cases n with
  | branch bs v =>
    have hlen : ((List.finRange 16).map bs ++ [v]).length = 17 := by simp
    have hlast : ((List.finRange 16).map bs ++ [v]).getD 16 .null = v := by
      simp [List.getD_eq_getElem?_getD]
    unfold MPTNode.raw decodeRawMPTNode
    rw [if_pos hlen, hlast]
    congr 2
    exact funext fun i => getD_map_finRange bs v .null i
  | extension ns v =>
    unfold MPTNode.raw decodeRawMPTNode
    rw [if_neg (by simp)]
    simp
  | leaf ns v =>
    unfold MPTNode.raw decodeRawMPTNode
    rw [if_neg (by simp)]
    simp

theorem decodeMPTNode_serialize {n : MPTNode} (h : n.serialize.length < arrayBound) :
    decodeMPTNode n.serialize = .ok n := by
  have hlt : (Rlp.encode (.list n.raw)).length < 256 ^ 8 :=
    Nat.lt_of_lt_of_le h (by norm_num)
  rw [decodeMPTNode, MPTNode.serialize, Rlp.decode_encode hlt]
  exact decodeRawMPTNode_raw n

/-! ## The root determines the tree -/

namespace MPTOpts

variable {o : MPTOpts}

/-- The strings a tree's hashes are taken of are in `S`. -/
def HashedIn (o : MPTOpts) (S : Set Bytes) (t : Tree) : Prop :=
  o.enc t ∈ S ∧ t.Below fun s => 32 ≤ (o.enc s).length → o.enc s ∈ S

theorem raw_node_injective : Function.Injective MPTNode.raw := by
  intro m n h
  have hm := decodeRawMPTNode_raw m
  rw [h, decodeRawMPTNode_raw n] at hm
  exact (Except.ok.inj hm).symm

theorem raw_inj_of_ref {S : Set Bytes} (hS : Set.InjOn o.hash S)
    (hlen : ∀ b ∈ S, b.length < arrayBound) {t t' : Tree}
    (ht : 32 ≤ (o.enc t).length → o.enc t ∈ S) (ht' : 32 ≤ (o.enc t').length → o.enc t' ∈ S)
    (h : o.ref t = o.ref t') : o.raw t = o.raw t' := by
  have hinj {s s' : Tree} (hs : o.enc s ∈ S) (heq : o.enc s = o.enc s') : o.raw s = o.raw s' :=
    Rlp.encode_inj (Nat.lt_of_lt_of_le (hlen _ hs) (by norm_num)) heq
  have hlist {s s' : Tree} (hs : (o.enc s).length < 32) (hs' : 32 ≤ (o.enc s').length)
      (heq : o.ref s = o.ref s') : False := by
    rw [ref_of_le hs'] at heq
    by_cases hse : s = .empty
    · subst hse
      rw [ref_empty] at heq
      have hlen' := congrArg List.length (NestedUint8Array.bytes.inj heq)
      rw [rootHash, length_hash] at hlen'
      simp at hlen'
    · rw [ref_of_lt hse hs] at heq
      cases heq
  rcases Nat.lt_or_ge (o.enc t).length 32 with hlt | hle
  · rcases Nat.lt_or_ge (o.enc t').length 32 with hlt' | hle'
    · have hself {s : Tree} (hs : (o.enc s).length < 32) : o.ref s = o.raw s :=
        if_neg (by rw [← enc]; omega)
      rw [← hself hlt, ← hself hlt', h]
    · exact (hlist hlt hle' h).elim
  · rcases Nat.lt_or_ge (o.enc t').length 32 with hlt' | hle'
    · exact (hlist hlt' hle h.symm).elim
    · rw [ref_of_le hle, ref_of_le hle'] at h
      exact hinj (ht hle) (hS (ht hle) (ht' hle') (NestedUint8Array.bytes.inj h))

theorem eq_of_raw {S : Set Bytes} (hS : Set.InjOn o.hash S)
    (hlen : ∀ b ∈ S, b.length < arrayBound) {t t' : Tree}
    (ht : t.Below fun s => 32 ≤ (o.enc s).length → o.enc s ∈ S)
    (ht' : t'.Below fun s => 32 ≤ (o.enc s).length → o.enc s ∈ S)
    (h : o.raw t = o.raw t') : t = t' := by
  induction t generalizing t' with
  | empty =>
    by_contra hne
    rw [raw_eq_list (Ne.symm hne)] at h
    cases h
  | leaf p v =>
    have hne : t' ≠ .empty := by
      rintro rfl
      cases h
    rw [raw_eq_list hne, raw_eq_list (by simp)] at h
    have hnode := raw_node_injective (NestedUint8Array.list.inj h)
    cases t' with
    | leaf q w =>
      obtain ⟨rfl, hvw⟩ := MPTNode.leaf.inj hnode
      rw [Subtype.ext (NestedUint8Array.bytes.inj hvw)]
    | empty => exact absurd rfl hne
    | extension q c => cases hnode
    | branch ds w => cases hnode
  | extension p c ih =>
    have hne : t' ≠ .empty := by
      rintro rfl
      cases h
    rw [raw_eq_list hne, raw_eq_list (by simp)] at h
    have hnode := raw_node_injective (NestedUint8Array.list.inj h)
    cases t' with
    | extension q d =>
      obtain ⟨rfl, hcd⟩ := MPTNode.extension.inj hnode
      rw [ih ht.2 ht'.2 (raw_inj_of_ref hS hlen ht.1 ht'.1 hcd)]
    | empty => exact absurd rfl hne
    | leaf q w => cases hnode
    | branch ds w => cases hnode
  | branch cs v ih =>
    have hne : t' ≠ .empty := by
      rintro rfl
      cases h
    rw [raw_eq_list hne, raw_eq_list (by simp)] at h
    have hnode := raw_node_injective (NestedUint8Array.list.inj h)
    cases t' with
    | branch ds w =>
      obtain ⟨hcs, hvw⟩ := MPTNode.branch.inj hnode
      have hcs' : cs = ds := funext fun i =>
        ih i (ht i).2 (ht' i).2 (raw_inj_of_ref hS hlen (ht i).1 (ht' i).1 (congrFun hcs i))
      rw [hcs', slot_injective hvw]
    | empty => exact absurd rfl hne
    | leaf q w => cases hnode
    | extension q c => cases hnode

/-- **The root determines the tree**, where the hash is injective on the
strings hashed. -/
theorem eq_of_rootHash {S : Set Bytes} (hS : Set.InjOn o.hash S)
    (hlen : ∀ b ∈ S, b.length < arrayBound) {t t' : Tree} (ht : o.HashedIn S t)
    (ht' : o.HashedIn S t') (h : o.rootHash t = o.rootHash t') : t = t' := by
  have henc := hS ht.1 ht'.1 h
  exact eq_of_raw hS hlen ht.2 ht'.2
    (Rlp.encode_inj (Nat.lt_of_lt_of_le (hlen _ ht.1) (by norm_num)) henc)

end MPTOpts

end TsEthereum
