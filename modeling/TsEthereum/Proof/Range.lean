import TsEthereum.Proof.Merkle

/-!
# Range proofs

`proof/range.ts`: the verifier fills a trie with the nodes of the proof,
removes what lies in the range, puts the listed keys in, and compares the
root. `unset` and `unsetInternal` change nodes in place: the nodes of a
stack are returned as they leave them, the top first. The node above the
one `unset` looks at is always the top of its stack.
-/

namespace TsEthereum

open MPTOpts

/-- The errors of a range proof. -/
inductive RangeError where
  | keysLength
  | keysOrder
  | values
  | allElementsMismatch
  | allElementsArguments
  | zeroElementMismatch
  | oneElementKey
  | oneElementValue
  | twoEdgeOrder
  | twoEdgeLength
  | twoEdgeMismatch
  | invalidRange
  | invalidNode
  | typeError
  | unbounded
  | trie (e : MPTError)
  | proof (e : ProofError)
  deriving DecidableEq

/-- The text of each error. -/
def RangeError.message : RangeError → String
  | .keysLength => "invalid keys length or values length"
  | .keysOrder => "invalid keys order"
  | .values => "invalid values"
  | .allElementsMismatch => "invalid all elements proof: root mismatch"
  | .allElementsArguments =>
    "invalid all elements proof: proof, firstKey, lastKey must be null at the same time"
  | .zeroElementMismatch => "invalid zero element proof: value mismatch"
  | .oneElementKey => "invalid one element proof: firstKey should be equal to keys[0]"
  | .oneElementValue => "invalid one element proof: value mismatch"
  | .twoEdgeOrder => "invalid two edge elements proof: firstKey should be less than lastKey"
  | .twoEdgeLength => "invalid two edge elements proof: " ++
    "the length of firstKey should be equal to the length of lastKey"
  | .twoEdgeMismatch => "invalid two edge elements proof: root mismatch"
  | .invalidRange => "invalid range"
  | .invalidNode => "invalid node"
  | .typeError => "TypeError"
  | .unbounded => ""
  | .trie e => e.message
  | .proof e => e.message

/-- A call of the trie, in a range proof. -/
def ofTrie {α : Type} : Except MPTError α → Except RangeError α
  | .ok a => .ok a
  | .error e => .error (.trie e)

/-- A call of the proof functions, in a range proof. -/
def ofProof {α : Type} : Except ProofError α → Except RangeError α
  | .ok a => .ok a
  | .error e => .error (.proof e)

namespace Range

variable (o : MPTOpts)

/-! ## Removing what lies in a range -/

/-- `(parent as BranchMPTNode).setBranch(i, null)`, of the top of a stack: only
a branch has the method. -/
def clearParent (i : Option Nibble) : List MPTNode → Except RangeError (List MPTNode)
  | .branch branches value :: stack =>
    .ok ((match i with
      | some i => MPTNode.branch (Function.update branches i .null) value
      | none => .branch branches value) :: stack)
  | _ => .error .typeError

/-- **`unset`**: the end position, and the stack. -/
def unset (trie : MerklePatriciaTrie) :
    ℕ → Option MPTNode → Nibbles → ℕ → Bool → List MPTNode → Except RangeError (ℕ × List MPTNode)
  | 0, _, _, _, _, _ => .error .unbounded
  | _ + 1, none, _, pos, _, stack => .ok (pos - 1, stack)
  | fuel + 1, some (.branch branches value), key, pos, removeLeft, stack =>
    match key[pos]? with
    | none => .error .typeError
    | some k => do
      let branches := fun i : Nibble =>
        if (if removeLeft then i < k else k < i) then .null else branches i
      let child ←
        match MPTNode.getBranch branches k with
        | none => .ok none
        | some next => (ofTrie (trie.lookupNode o next)).map some
      unset trie fuel child key (pos + 1) removeLeft (.branch branches value :: stack)
  | fuel + 1, some child, key, pos, removeLeft, stack =>
    let nibbles := child.key
    if key.length - pos < nibbles.length ∨
        nibblesCompare nibbles ((key.drop pos).take nibbles.length) ≠ .eq then
      if (if removeLeft then nibblesCompare nibbles (key.drop pos) = .lt
          else nibblesCompare nibbles (key.drop pos) = .gt) then
        (clearParent key[pos - 1]? stack).map fun stack => (pos - 1, stack)
      else .ok (pos - 1, stack)
    else if child.isLeaf then
      (clearParent key[pos - 1]? stack).map fun stack => (pos - 1, stack)
    else do
      let next ← ofTrie (trie.lookupNode o child._value)
      if next.isLeaf then
        (clearParent key[pos - 1]? stack).map fun stack => (pos - 1, stack)
      else
        unset trie fuel (some next) key (pos + nibbles.length) removeLeft (child :: stack)

/-- `equalsBytes`, of two parts of raw nodes in different places: bytes are
compared, and arrays that are not empty hold different objects. -/
def equalsBytes : NestedUint8Array → NestedUint8Array → Bool
  | .bytes a, .bytes b => a = b
  | a, b => a.length = 0 ∧ b.length = 0

/-- The comparison of the references at `left[pos]` and `right[pos]`; at one
position they are one object. -/
def equalsReference (left right : Nibble) (leftNode rightNode : NestedUint8Array) : Bool :=
  left == right ||
    match leftNode, rightNode with
    | .bytes a, .bytes b => a == b
    | .list a, .list b =>
      a.length == b.length && (a.zip b).all fun xy => equalsBytes xy.1 xy.2
    | _, _ => false

/-- Where `unsetInternal`'s search for the fork ends: at a branch, or at a
leaf or an extension with the two comparisons. -/
inductive Fork where
  | branch (branches : Nibble → NestedUint8Array) (value : NestedUint8Array) (pos : ℕ)
  | short (node : MPTNode) (pos : ℕ) (shortForkLeft shortForkRight : Ordering)
  deriving DecidableEq

/-- `nibblesCompare(key.slice(pos, pos + keyLength), nibbles)`, or of all
that is left of the key when that is shorter. -/
def shortFork (key : Nibbles) (pos : ℕ) (nibbles : Nibbles) : Ordering :=
  if key.length - pos < nibbles.length then nibblesCompare (key.drop pos) nibbles
  else nibblesCompare ((key.drop pos).take nibbles.length) nibbles

/-- The loop of `unsetInternal`: the fork point of `left` and `right`, and
the stack above it, the node itself left out. -/
def findFork (trie : MerklePatriciaTrie) (left right : Nibbles) :
    ℕ → MPTNode → ℕ → List MPTNode → Except RangeError (Fork × List MPTNode)
  | 0, _, _, _ => .error .unbounded
  | fuel + 1, .branch branches value, pos, stack =>
    match left[pos]?, right[pos]? with
    | some l, some r =>
      match MPTNode.getBranch branches l, MPTNode.getBranch branches r with
      | some leftNode, some rightNode =>
        if equalsReference l r leftNode rightNode then do
          let node ← ofTrie (trie.lookupNode o leftNode)
          findFork trie left right fuel node (pos + 1) (.branch branches value :: stack)
        else .ok (.branch branches value pos, stack)
      | _, _ => .ok (.branch branches value pos, stack)
    | _, _ => .error .typeError
  | fuel + 1, node, pos, stack =>
    let shortForkLeft := shortFork left pos node.key
    let shortForkRight := shortFork right pos node.key
    if shortForkLeft ≠ .eq ∨ shortForkRight ≠ .eq then
      .ok (.short node pos shortForkLeft shortForkRight, stack)
    else if node.isLeaf then .error .invalidNode
    else do
      let next ← ofTrie (trie.lookupNode o node._value)
      findFork trie left right fuel next (pos + node.key.length) (node :: stack)

/-- `removeSelfFromParentAndSaveStack`: the trie, and whether it is empty. -/
def removeSelf (trie : MerklePatriciaTrie) (key : Nibbles) (pos : ℕ) (stack : List MPTNode) :
    Except RangeError (MerklePatriciaTrie × Bool) :=
  match stack with
  | [] => .ok (trie, true)
  | stack => do
    let stack ← clearParent key[pos - 1]? stack
    let saved ← ofTrie (trie.saveStack o (key.take (pos - 1)) stack [])
    .ok (saved.1, false)

/-- `unset` from a node of the stack, and `saveStack`: the trie, and the nodes
as they leave them. -/
def unsetFrom (trie : MerklePatriciaTrie) (child : Option MPTNode) (key : Nibbles)
    (pos start : ℕ) (removeLeft : Bool) (stack : List MPTNode) :
    Except RangeError (MerklePatriciaTrie × List MPTNode) := do
  let (endPos, stack) ←
    unset o trie (key.length + 1) child (key.drop pos) start removeLeft stack
  ofTrie (trie.saveStack o (key.take (pos + endPos)) stack [])

/-- One of the two passes at a branch: from the child at the key's nibble. -/
def unsetChild (trie : MerklePatriciaTrie) (key : Nibbles) (pos : ℕ) (removeLeft : Bool)
    (stack : List MPTNode) : Except RangeError (MerklePatriciaTrie × List MPTNode) := do
  let child ←
    match stack, key[pos]? with
    | .branch branches _ :: _, some i =>
      match MPTNode.getBranch branches i with
      | none => .ok none
      | some next => (ofTrie (trie.lookupNode o next)).map some
    | _, _ => .error .typeError
  unsetFrom o trie child key pos 1 removeLeft stack

/-- `unsetInternal` at a leaf or an extension. -/
def unsetShort (trie : MerklePatriciaTrie) (left right : Nibbles) (node : MPTNode) (pos : ℕ)
    (shortForkLeft shortForkRight : Ordering) (stack : List MPTNode) :
    Except RangeError (MerklePatriciaTrie × Bool) :=
  if shortForkLeft = .lt ∧ shortForkRight = .lt then .error .invalidRange
  else if shortForkLeft = .gt ∧ shortForkRight = .gt then .error .invalidRange
  else if shortForkLeft ≠ .eq ∧ shortForkRight ≠ .eq then removeSelf o trie left pos stack
  else
    -- one of the keys goes on below the node: unset its side
    let (key, removeLeft) := if shortForkRight ≠ .eq then (left, false) else (right, true)
    if node.isLeaf then removeSelf o trie key pos stack
    else do
      let child ← ofTrie (trie.lookupNode o node._value)
      if child.isLeaf then removeSelf o trie key pos stack
      else do
        let saved ← unsetFrom o trie (some child) key pos node.key.length removeLeft (node :: stack)
        .ok (saved.1, false)

/-- **`unsetInternal`**: the trie without what lies between `left` and
`right`, and whether nothing is left. -/
def unsetInternal (trie : MerklePatriciaTrie) (left right : Nibbles) :
    Except RangeError (MerklePatriciaTrie × Bool) := do
  let root ← ofTrie (trie.lookupNode o (.bytes trie._root))
  let (fork, stack) ← findFork o trie left right (left.length + 1) root 0 []
  match fork with
  | .short node pos shortForkLeft shortForkRight =>
    unsetShort o trie left right node pos shortForkLeft shortForkRight stack
  | .branch branches value pos =>
    match left[pos]?, right[pos]? with
    | some l, some r => do
      let branches := fun i : Nibble => if l < i ∧ i < r then .null else branches i
      let (trie, nodes) ← unsetChild o trie left pos false (.branch branches value :: stack)
      -- the second pass starts from the nodes above as the first left them
      let stack := nodes.drop (nodes.length - (stack.length + 1))
      let (trie, _) ← unsetChild o trie right pos true stack
      .ok (trie, false)
    | _, _ => .error .typeError

/-! ## Verifying -/

/-- **`createMPTFromProof`**. -/
def createMPTFromProof (root : Option Bytes) (proof : List Bytes) :
    Except ProofError MerklePatriciaTrie := do
  let trie ← newMPT o (root.getD o.EMPTY_TRIE_ROOT)
  let (trie, root) ← updateMPTFromMerkleProof o trie proof root.isSome
  match root with
  | none => .ok (trie.persistRoot o)
  | some root =>
    match trie.setRoot o root with
    | .ok trie => .ok (trie.persistRoot o)
    | .error e => .error (.trie e)

/-- `verifyMPTWithMerkleProof` of `range.ts`. -/
def verifyMPTWithMerkleProof (rootHash key : Bytes) (proof : List Bytes) :
    Except ProofError (Option NestedUint8Array × MerklePatriciaTrie) := do
  let proofTrie ← createMPTFromProof o (some rootHash) proof
  let value ← getProven o proofTrie key
  .ok (value, proofTrie)

/-- The loop of `hasRightElement`; `key` is what is left of the key. -/
def hasRightLoop (trie : MerklePatriciaTrie) : ℕ → MPTNode → Nibbles → Except RangeError Bool
  | 0, _, _ => .error .unbounded
  | fuel + 1, .branch branches _, key =>
    match key with
    | [] => .error .typeError
    | k :: key =>
      if ∃ i, k < i ∧ (MPTNode.getBranch branches i).isSome then .ok true
      else
        match MPTNode.getBranch branches k with
        | none => .ok false
        | some next => do
          let node ← ofTrie (trie.lookupNode o next)
          hasRightLoop trie fuel node key
  | fuel + 1, .extension nibbles value, key =>
    if key.length < nibbles.length ∨ nibblesCompare nibbles (key.take nibbles.length) ≠ .eq then
      .ok (nibblesCompare nibbles key = .gt)
    else do
      let node ← ofTrie (trie.lookupNode o value)
      hasRightLoop trie fuel node (key.drop nibbles.length)
  | _ + 1, .leaf _ _, _ => .ok false

/-- **`hasRightElement`**; `key` is `undefined` when no key is listed. -/
def hasRightElement (trie : MerklePatriciaTrie) (key : Option Nibbles) : Except RangeError Bool := do
  let node ← ofTrie (trie.lookupNode o (.bytes trie._root))
  match key with
  | some key => hasRightLoop o trie (key.length + 1) node key
  | none => if node.isLeaf then .ok false else .error .typeError

/-- Putting the listed elements. -/
def putAll (trie : MerklePatriciaTrie) : List (Nibbles × Bytes) → Except RangeError MerklePatriciaTrie
  | [] => .ok trie
  | (key, value) :: elements => do
    let trie ← ofTrie (trie.put o (nibblesTypeToPackedBytes key) value false)
    putAll trie elements

/-- The two edge elements proof. -/
def verifyTwoEdges (rootHash : Bytes) (firstKey lastKey : Nibbles) (keys : List Nibbles)
    (values : List Bytes) (proof : List Bytes) : Except RangeError Bool :=
  if nibblesCompare firstKey lastKey ≠ .lt then .error .twoEdgeOrder
  else if firstKey.length ≠ lastKey.length then .error .twoEdgeLength
  else do
    let trie ← ofProof (createMPTFromProof o (some rootHash) proof)
    let (trie, empty) ← unsetInternal o trie firstKey lastKey
    let trie ← if empty then ofTrie (trie.setRoot o o.EMPTY_TRIE_ROOT) else .ok trie
    let trie ← putAll o trie (keys.zip values)
    if trie._root ≠ rootHash then .error .twoEdgeMismatch
    else hasRightElement o trie keys.getLast?

/-- The one element proof, of `firstKey`. -/
def verifyOneElement (rootHash : Bytes) (firstKey key : Nibbles) (value : Option Bytes)
    (proof : List Bytes) : Except RangeError Bool := do
  let (found, trie) ←
    ofProof (verifyMPTWithMerkleProof o rootHash (nibblesTypeToPackedBytes firstKey) proof)
  if nibblesCompare firstKey key ≠ .eq then .error .oneElementKey
  else if found = none ∨ found ≠ value.map .bytes then .error .oneElementValue
  else hasRightElement o trie (some firstKey)

/-- The zero element proof. -/
def verifyZeroElements (rootHash : Bytes) (firstKey : Nibbles) (proof : List Bytes) :
    Except RangeError Bool := do
  let (value, trie) ←
    ofProof (verifyMPTWithMerkleProof o rootHash (nibblesTypeToPackedBytes firstKey) proof)
  if value ≠ none then .error .zeroElementMismatch
  else do
    let right ← hasRightElement o trie (some firstKey)
    if right then .error .zeroElementMismatch else .ok false

/-- The all elements proof. -/
def verifyAllElements (rootHash : Bytes) (keys : List Nibbles) (values : List Bytes) :
    Except RangeError Bool := do
  let trie ← putAll o (.create o) (keys.zip values)
  if rootHash ≠ trie._root then .error .allElementsMismatch else .ok false

/-- **`verifyMerkleRangeProof`**. -/
def verifyMerkleRangeProof (rootHash : Bytes) (firstKeyRaw lastKeyRaw : Option Bytes)
    (keysRaw : List Bytes) (values : List Bytes) (proof : Option (List Bytes))
    (useKeyHashingFunction : HashFunction) : Except RangeError Bool :=
  let o := MPTOpts.defaults useKeyHashingFunction
  let keys := keysRaw.map bytesToNibbles
  if keys.length ≠ values.length then .error .keysLength
  else if ∃ kk ∈ keys.zip keys.tail, nibblesCompare kk.1 kk.2 ≠ .lt then .error .keysOrder
  else if [] ∈ values then .error .values
  else
    match proof, firstKeyRaw.map bytesToNibbles, lastKeyRaw.map bytesToNibbles, keys with
    | none, none, none, keys => verifyAllElements o rootHash keys values
    | some proof, some firstKey, none, [] => verifyZeroElements o rootHash firstKey proof
    | some proof, some firstKey, some lastKey, keys =>
      match keys, nibblesCompare firstKey lastKey with
      | [key], .eq => verifyOneElement o rootHash firstKey key values.head? proof
      | keys, _ => verifyTwoEdges o rootHash firstKey lastKey keys values proof
    | _, _, _, _ => .error .allElementsArguments

end Range

end TsEthereum
