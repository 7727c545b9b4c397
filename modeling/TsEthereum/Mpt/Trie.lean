import TsEthereum.Common.Runs
import TsEthereum.Db.MapDb
import TsEthereum.Mpt.Node

/-!
# `MerklePatriciaTrie`

`mpt.ts`: a trie is a root hash and a store of nodes under their hashes.
`findPath` walks down a key, `_updateNode` and `_deleteNode` change the
nodes at its end, and `saveStack` writes the changed nodes back from the
bottom up to a new root.

A stack of nodes is a list with its top first. The nodes of a stack are
objects the source changes in place; each function here returns them as it
leaves them. Calls run one after the other, so the lock is left out, and
the store is the one `CheckpointDB` is without checkpoints and with
`cacheSize` 0.
-/

namespace TsEthereum

/-- `useKeyHashingFunction`: the constructor sets it to `keccak_256`, which
gives 32 bytes. -/
structure HashFunction where
  hash : Bytes → Bytes
  length_hash : ∀ msg, (hash msg).length = 32

/-- The options of a trie. -/
structure MPTOpts where
  useKeyHashing : Bool
  useKeyHashingFunction : HashFunction
  keyPrefix : Option Bytes
  useRootPersistence : Bool
  useNodePruning : Bool

/-- `ROOT_DB_KEY`: the bytes of `__root__`. -/
def ROOT_DB_KEY : Bytes := [95, 95, 114, 111, 111, 116, 95, 95]

def RLP_EMPTY_STRING : Bytes := [0x80]

namespace MPTOpts

variable (o : MPTOpts)

def hash (msg : Bytes) : Bytes := o.useKeyHashingFunction.hash msg

def EMPTY_TRIE_ROOT : Bytes := o.hash RLP_EMPTY_STRING

def appliedKey (key : Bytes) : Bytes := if o.useKeyHashing then o.hash key else key

/-- `keyPrefix ? concatBytes(keyPrefix, key) : key`: the key of a node in
the store. -/
def dbKey (key : Bytes) : Bytes :=
  match o.keyPrefix with
  | some keyPrefix => keyPrefix ++ key
  | none => key

end MPTOpts

/-- **`MerklePatriciaTrie`**: the root and the store. -/
structure MerklePatriciaTrie where
  _root : Bytes
  _db : MapDB
  deriving DecidableEq

/-- What `findPath` returns. -/
structure Path where
  node : Option MPTNode
  remaining : Nibbles
  stack : List MPTNode
  deriving DecidableEq

/-- What `saveStack`'s loop ends with: the reference of the last node
written, the operations to commit, and the nodes as it leaves them. -/
structure SavedStack where
  lastRoot : Option NestedUint8Array
  opStack : List BatchDBOp
  nodes : List MPTNode

/-- `key.splice(key.length - n)`: a negative start counts from the end. -/
def spliceEnd (key : Nibbles) (n : ℕ) : Nibbles :=
  if n ≤ key.length then key.take (key.length - n) else key.take (2 * key.length - n)

/-- `node.setBranch(key.pop(), v)`: without a nibble left the index is
`undefined`, which changes no child. -/
def setLastBranch (node : MPTNode) (key : Nibbles) (v : NestedUint8Array) : MPTNode :=
  match key.getLast? with
  | some i => node.setBranch i v
  | none => node

namespace MerklePatriciaTrie

variable (o : MPTOpts)

/-- A trie over an empty store. -/
def create : MerklePatriciaTrie := ⟨o.EMPTY_TRIE_ROOT, .empty⟩

/-- `root(value)`. -/
def setRoot (t : MerklePatriciaTrie) (value : Bytes) : Except MPTError MerklePatriciaTrie :=
  if value.length ≠ o.EMPTY_TRIE_ROOT.length then .error (.invalidRootLength value.length)
  else .ok { t with _root := value }

/-- `lookupNode`: a raw node is in its reference, another in the store. -/
def lookupNode (t : MerklePatriciaTrie) (node : NestedUint8Array) : Except MPTError MPTNode :=
  match node with
  | .list raw => decodeRawMPTNode raw
  | .bytes hash =>
    match t._db.get (o.dbKey hash) with
    | none => .error .missingNode
    | some value => decodeMPTNode value

/-! ## Reading -/

/-- The next node of a walk. A missing one ends it without a result, unless
`throwIfMissing`. -/
def visit (t : MerklePatriciaTrie) (throwIfMissing : Bool) (node : NestedUint8Array)
    (stack : List MPTNode) (onFound : MPTNode → Except MPTError Path) : Except MPTError Path :=
  match t.lookupNode o node with
  | .ok found => onFound found
  | .error .missingNode =>
    if throwIfMissing then .error .missingNode else .ok ⟨none, [], stack⟩
  | .error e => .error e

/-- `findPath`'s `onFound`: `remaining` is `targetKey.slice(progress)`, and
`above` the stack below the node. A node's slot in the stack is its
progress, so what follows an extension without nibbles takes its slot. -/
def onFound (t : MerklePatriciaTrie) (throwIfMissing : Bool) :
    ℕ → Nibbles → List MPTNode → MPTNode → Except MPTError Path
  | 0, _, _, _ => .error .unbounded
  | fuel + 1, remaining, above, node =>
    let stack := node :: above
    match node with
    | .branch branches _ =>
      match remaining with
      | [] => .ok ⟨some node, [], stack⟩
      | branchIndex :: rest =>
        match MPTNode.getBranch branches branchIndex with
        | none => .ok ⟨none, remaining, stack⟩
        | some branchNode =>
          t.visit o throwIfMissing branchNode stack (t.onFound throwIfMissing fuel rest stack)
    | .leaf key _ =>
      if remaining = key then .ok ⟨some node, [], stack⟩ else .ok ⟨none, remaining, stack⟩
    | .extension key value =>
      match remaining.dropPrefix? key with
      | none => .ok ⟨none, remaining, stack⟩
      | some rest =>
        t.visit o throwIfMissing value stack
          (t.onFound throwIfMissing fuel rest (if key = [] then above else stack))

/-- **`findPath`.** -/
def findPath (t : MerklePatriciaTrie) (key : Bytes) (throwIfMissing : Bool) :
    Except MPTError Path :=
  let targetKey := bytesToNibbles key
  t.visit o throwIfMissing (.bytes t._root) []
    (t.onFound o throwIfMissing (targetKey.length + 1) targetKey [])

/-- **`get`.** -/
def get (t : MerklePatriciaTrie) (key : Bytes) (throwIfMissing : Bool) :
    Except MPTError (Option NestedUint8Array) := do
  let path ← t.findPath o (o.appliedKey key) throwIfMissing
  match path.node with
  | some node => .ok (if path.remaining.length = 0 then node.value else none)
  | none => .ok none

/-! ## Writing nodes back -/

def persistRoot (t : MerklePatriciaTrie) : MerklePatriciaTrie :=
  if o.useRootPersistence then
    { t with _db := t._db.put (o.dbKey (o.appliedKey ROOT_DB_KEY)) t._root }
  else t

/-- `_formatNode`: the node's reference, and the stack of operations with
the one that stores or removes it. -/
def formatNode (node : MPTNode) (topLevel : Bool) (opStack : List BatchDBOp) (remove : Bool) :
    NestedUint8Array × List BatchDBOp :=
  let encoded := node.serialize
  if 32 ≤ encoded.length ∨ topLevel then
    let lastRoot := o.hash encoded
    let key := o.dbKey lastRoot
    if remove then
      (.bytes lastRoot, if o.useNodePruning then opStack ++ [.del key] else opStack)
    else (.bytes lastRoot, opStack ++ [.put key encoded])
  else (.list node.raw, opStack)

/-- The part of `saveStack`'s loop that links a node to the one below it:
the key left, and the node. -/
def relink (key : Nibbles) (node : MPTNode) (lastRoot : Option NestedUint8Array) :
    Nibbles × MPTNode :=
  match node, lastRoot with
  | .leaf nibbles _, _ => (spliceEnd key nibbles.length, node)
  | .extension nibbles _, none => (spliceEnd key nibbles.length, node)
  | .extension nibbles _, some lastRoot =>
    (spliceEnd key nibbles.length, node.setValue lastRoot)
  | .branch _ _, none => (key, node)
  | .branch _ _, some lastRoot => (key.dropLast, setLastBranch node key lastRoot)

/-- The loop of `saveStack`. -/
def saveStackLoop : Nibbles → List MPTNode → Option NestedUint8Array → List BatchDBOp → SavedStack
  | _, [], lastRoot, opStack => ⟨lastRoot, opStack, []⟩
  | key, node :: stack, lastRoot, opStack =>
    let (key, node) := relink key node lastRoot
    let (lastRoot, opStack) := formatNode o node stack.isEmpty opStack false
    let saved := saveStackLoop key stack (some lastRoot) opStack
    { saved with nodes := node :: saved.nodes }

/-- **`saveStack`**: the trie, and the nodes of the stack as it leaves
them. -/
def saveStack (t : MerklePatriciaTrie) (key : Nibbles) (stack : List MPTNode)
    (opStack : List BatchDBOp) : Except MPTError (MerklePatriciaTrie × List MPTNode) := do
  let saved := saveStackLoop o key stack none opStack
  let t ←
    match saved.lastRoot with
    | none => .ok t
    | some (.bytes lastRoot) => t.setRoot o lastRoot
    -- the last node is at the top level, so its reference is a hash
    | some (.list raw) => .error (.invalidRootLength raw.length)
  .ok (({ t with _db := t._db.batch saved.opStack }).persistRoot o, saved.nodes)

/-- `_createInitialNode`. -/
def createInitialNode (t : MerklePatriciaTrie) (key value : Bytes) :
    Except MPTError MerklePatriciaTrie := do
  let newNode : MPTNode := .leaf (bytesToNibbles key) (.bytes value)
  let encoded := newNode.serialize
  let t ← t.setRoot o (o.hash encoded)
  .ok ({ t with _db := t._db.put (o.dbKey t._root) encoded }.persistRoot o)

/-! ## Updating -/

/-- The branch `_updateNode` puts where the key leaves the path of a leaf or
an extension: `lastKey` is what is left of the path. -/
def newBranchMPTNode (lastNode : MPTNode) (lastKey : Nibbles) : MPTNode × List BatchDBOp :=
  match lastKey with
  | [] => (MPTNode.emptyBranch.setValue lastNode._value, [])
  | branchKey :: lastKey =>
    if lastKey.length ≠ 0 ∨ lastNode.isLeaf then
      -- shrinking extension or leaf
      let (formattedNode, toSave) := formatNode o (lastNode.setKey lastKey) false [] false
      (MPTNode.emptyBranch.setBranch branchKey formattedNode, toSave)
    else
      -- remove extension or attaching
      let (_, toSave) := formatNode o lastNode false [] true
      (MPTNode.emptyBranch.setBranch branchKey lastNode._value, toSave)

/-- **`_updateNode`.** -/
def updateNode (t : MerklePatriciaTrie) (k value : Bytes) (keyRemainder : Nibbles)
    (stack : List MPTNode) : Except MPTError MerklePatriciaTrie :=
  match stack with
  | [] => .error .stackUnderflow
  | lastNode :: stack => do
    let key := bytesToNibbles k
    let l := (stack.map fun n => if n.isBranch then 1 else n.key.length).sum
    let matchLeaf := lastNode.isLeaf ∧ keyRemainder.length = 0 ∧
      matchingNibbleLength lastNode.key (key.drop l) = lastNode.key.length
    let saved ←
      if matchLeaf then
        t.saveStack o key (lastNode.setValue (.bytes value) :: stack) []
      else if lastNode.isBranch then
        match keyRemainder with
        | _ :: keyRemainder =>
          t.saveStack o key (.leaf keyRemainder (.bytes value) :: lastNode :: stack) []
        | [] => t.saveStack o key (lastNode.setValue (.bytes value) :: stack) []
      else
        let lastKey := lastNode.key
        let matchingLength := matchingNibbleLength lastKey keyRemainder
        let stack :=
          if matchingLength ≠ 0 then
            .extension (lastKey.take matchingLength) (.bytes value) :: stack
          else stack
        let (newBranch, toSave) := newBranchMPTNode o lastNode (lastKey.drop matchingLength)
        match keyRemainder.drop matchingLength with
        | _ :: keyRemainder =>
          t.saveStack o key (.leaf keyRemainder (.bytes value) :: newBranch :: stack) toSave
        | [] => t.saveStack o key (newBranch.setValue (.bytes value) :: stack) toSave
    .ok saved.1

/-! ## Deleting -/

/-- `processBranchMPTNode`: the key and the stack after the only child of a
branch took the branch's place. -/
def processBranchMPTNode (key : Nibbles) (branchKey : Nibble) (branchNode : MPTNode)
    (parentNode : Option MPTNode) (stack : List MPTNode) : Nibbles × List MPTNode :=
  match parentNode with
  | some (.extension parentKey value) =>
    if branchNode.isBranch then
      -- ext->branch
      (key ++ [branchKey], branchNode :: .extension (parentKey ++ [branchKey]) value :: stack)
    else
      -- the two keys are added together, and the parent is not pushed
      let branchNodeKey := branchKey :: branchNode.key
      (key ++ branchNodeKey, branchNode.setKey (parentKey ++ branchNodeKey) :: stack)
  | parentNode =>
    let stack := parentNode.toList ++ stack
    if branchNode.isBranch then
      -- branch->extension->branch
      (key ++ [branchKey], branchNode :: .extension [branchKey] .null :: stack)
    else
      -- branch->(leaf or extension)
      let branchNodeKey := branchKey :: branchNode.key
      (key ++ branchNodeKey, branchNode.setKey branchNodeKey :: stack)

/-- The second half of `_deleteNode`: `lastNode` is the branch the value or
the leaf was taken from. -/
def collapseBranch (t : MerklePatriciaTrie) (key : Nibbles) (branches : Nibble → NestedUint8Array)
    (value : NestedUint8Array) (parentNode : Option MPTNode) (stack : List MPTNode)
    (opStack : List BatchDBOp) : Except MPTError MerklePatriciaTrie := do
  let saved ←
    match MPTNode.getChildren branches with
    | [(branchNodeKey, branchNode)] => do
      let opStack :=
        if o.useNodePruning then
          match branchNode with
          | .list _ => opStack ++ [.del (o.appliedKey (Rlp.encode branchNode))]
          | .bytes hash => opStack ++ [.del hash]
        else opStack
      let foundNode ← t.lookupNode o branchNode
      let (key, stack) := processBranchMPTNode key branchNodeKey foundNode parentNode stack
      t.saveStack o key stack opStack
    | _ => t.saveStack o key (.branch branches value :: (parentNode.toList ++ stack)) opStack
  .ok saved.1

/-- **`_deleteNode`.** -/
def deleteNode (t : MerklePatriciaTrie) (k : Bytes) (stack : List MPTNode) :
    Except MPTError MerklePatriciaTrie :=
  match stack with
  | [] => .error .missingLastNode
  -- the source takes the root to be a leaf here
  | [_] => t.setRoot o o.EMPTY_TRIE_ROOT
  | lastNode :: parentNode :: stack =>
    let key := bytesToNibbles k
    match lastNode.setValueOrNull none, parentNode with
    | .branch branches value, _ => t.collapseBranch o key branches value (some parentNode) stack []
    | _, .branch branches value =>
      let key := spliceEnd key lastNode.key.length
      let (_, opStack) := formatNode o lastNode false [] true
      match setLastBranch (.branch branches value) key .null with
      | .branch branches value =>
        t.collapseBranch o key.dropLast branches value stack.head? stack.tail opStack
      | _ => .error .expectedBranchNode
    | _, _ => .error .expectedBranchNode

/-! ## `put` and `del` -/

/-- The operations that prune the nodes of a path. -/
def deleteHashes (stack : List MPTNode) : List BatchDBOp :=
  stack.reverse.map fun e => .del (o.dbKey (o.hash e.serialize))

/-- **`del`.** -/
def del (t : MerklePatriciaTrie) (key : Bytes) (skipKeyTransform : Bool) :
    Except MPTError MerklePatriciaTrie := do
  let appliedKey := if skipKeyTransform then key else o.appliedKey key
  let path ← t.findPath o appliedKey false
  match path.node with
  | some _ =>
    let t ← t.deleteNode o appliedKey path.stack
    let t := if o.useNodePruning then { t with _db := t._db.batch (deleteHashes o path.stack) } else t
    .ok (t.persistRoot o)
  | none => .ok (t.persistRoot o)

/-- **`put`.** A `null` value is an empty one: both delete. -/
def put (t : MerklePatriciaTrie) (key value : Bytes) (skipKeyTransform : Bool) :
    Except MPTError MerklePatriciaTrie :=
  if o.useRootPersistence ∧ key = ROOT_DB_KEY then .error .rootKeyNotAllowed
  else if value.length = 0 then t.del o key false
  else do
    let appliedKey := if skipKeyTransform then key else o.appliedKey key
    let t ←
      if t._root = o.EMPTY_TRIE_ROOT then t.createInitialNode o appliedKey value
      else do
        let path ← t.findPath o appliedKey false
        let ops ←
          if o.useNodePruning then do
            let val ← t.get o key false
            .ok (if val = some (.bytes value) then [] else deleteHashes o path.stack)
          else .ok []
        let t ← t.updateNode o appliedKey value path.remaining path.stack
        .ok (if o.useNodePruning then { t with _db := t._db.batch ops } else t)
    .ok (t.persistRoot o)

end MerklePatriciaTrie

/-- The calls that change a trie. -/
inductive TrieOp where
  | put (key value : Bytes) (skipKeyTransform : Bool)
  | del (key : Bytes) (skipKeyTransform : Bool)
  deriving DecidableEq

/-- **One call.** -/
def MerklePatriciaTrie.step (o : MPTOpts) (t : MerklePatriciaTrie) :
    TrieOp → Except MPTError MerklePatriciaTrie
  | .put key value skipKeyTransform => t.put o key value skipKeyTransform
  | .del key skipKeyTransform => t.del o key skipKeyTransform

end TsEthereum
