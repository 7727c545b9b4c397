import TsEthereum.Common.Except
import TsEthereum.Mpt.Nibbles
import TsEthereum.Rlp.Model
import Mathlib.Data.Fintype.Pi
import Mathlib.Data.List.FinRange

/-!
# Trie nodes

The three kinds of node of `node/*.ts`, and how a stored string becomes
one. `null` and the empty string in a slot of a branch are one value here:
both are written as the empty string, and every read treats them alike.
-/

namespace TsEthereum

/-- What the trie and its proofs throw. `typeError` is JavaScript's own,
from a property of `undefined`. `illTyped` and `unbounded` are the model's:
a node with a list where its key stands, which the source would coerce to
`NaN` nibbles, and a walk through more nodes than the key has nibbles. -/
inductive MPTError where
  | missingNode
  | invalidNode
  | rlp (e : Rlp.DecodeError)
  | stackUnderflow
  | missingLastNode
  | expectedBranchNode
  | invalidRootLength (length : ℕ)
  | rootKeyNotAllowed
  | typeError
  | illTyped
  | unbounded
  deriving DecidableEq

/-- The text of each error. -/
def MPTError.message : MPTError → String
  | .missingNode => "Missing node in DB"
  | .invalidNode => "Invalid node"
  | .rlp e => e.message
  | .stackUnderflow => "Stack underflow"
  | .missingLastNode => "missing last node"
  | .expectedBranchNode => "Expected branch node"
  | .invalidRootLength length =>
    "Invalid root length. Roots are 32 bytes, got " ++ toString length ++ " bytes"
  | .rootKeyNotAllowed => "Attempted to set '__root__' key but it is not allowed."
  | .typeError => "TypeError"
  | .illTyped => ""
  | .unbounded => ""

/-- `b.length`, of a string or of a list. -/
def NestedUint8Array.length : NestedUint8Array → ℕ
  | .bytes b => b.length
  | .list xs => xs.length

/-- The slot of a branch without a child or without a value. -/
abbrev NestedUint8Array.null : NestedUint8Array := .bytes []

/-- An `MPTNode`: `BranchMPTNode`, `ExtensionMPTNode` or `LeafMPTNode`. -/
inductive MPTNode where
  | branch (_branches : Nibble → NestedUint8Array) (_value : NestedUint8Array)
  | extension (_nibbles : Nibbles) (_value : NestedUint8Array)
  | leaf (_nibbles : Nibbles) (_value : NestedUint8Array)
  deriving DecidableEq

namespace MPTNode

/-- `new BranchMPTNode()`. -/
def emptyBranch : MPTNode := .branch (fun _ => .null) .null

/-- `value()`. A branch answers `null` when nothing is set. -/
def value : MPTNode → Option NestedUint8Array
  | .branch _ v => if 0 < v.length then some v else none
  | .extension _ v => some v
  | .leaf _ v => some v

/-- The value slot itself: what `value()` of an extension or a leaf gives. -/
def _value : MPTNode → NestedUint8Array
  | .branch _ v => v
  | .extension _ v => v
  | .leaf _ v => v

/-- `value(v)`, which sets the value. -/
def setValue : MPTNode → NestedUint8Array → MPTNode
  | .branch bs _, v => .branch bs v
  | .extension ns _, v => .extension ns v
  | .leaf ns _, v => .leaf ns v

/-- `value(v)` of a branch keeps its value when `v` is `null`. -/
def setValueOrNull (node : MPTNode) (v : Option NestedUint8Array) : MPTNode :=
  match v with
  | some v => node.setValue v
  | none => node

/-- `key()` of an extension or a leaf. -/
def key : MPTNode → Nibbles
  | .branch _ _ => []
  | .extension ns _ => ns
  | .leaf ns _ => ns

/-- `key(k)`, which sets the path. -/
def setKey : MPTNode → Nibbles → MPTNode
  | .branch bs v, _ => .branch bs v
  | .extension _ v, k => .extension k v
  | .leaf _ v, k => .leaf k v

def setBranch : MPTNode → Nibble → NestedUint8Array → MPTNode
  | .branch bs value, i, v => .branch (Function.update bs i v) value
  | node, _, _ => node

/-- `getBranch`, of a branch's children: `null` for an empty slot. -/
def getBranch (branches : Nibble → NestedUint8Array) (i : Nibble) : Option NestedUint8Array :=
  if 0 < (branches i).length then some (branches i) else none

def getChildren (branches : Nibble → NestedUint8Array) : List (Nibble × NestedUint8Array) :=
  (List.finRange 16).filterMap fun i => (getBranch branches i).map fun b => (i, b)

def raw : MPTNode → List NestedUint8Array
  | .branch bs v => (List.finRange 16).map bs ++ [v]
  | .extension ns v => [.bytes (nibblesTypeToPackedBytes (addHexPrefix ns false)), v]
  | .leaf ns v => [.bytes (nibblesTypeToPackedBytes (addHexPrefix ns true)), v]

def serialize (node : MPTNode) : Bytes := Rlp.encode (.list node.raw)

/-- `instanceof BranchMPTNode`. -/
def isBranch : MPTNode → Bool
  | .branch _ _ => true
  | _ => false

/-- `instanceof LeafMPTNode`. -/
def isLeaf : MPTNode → Bool
  | .leaf _ _ => true
  | _ => false

end MPTNode

def decodeRawMPTNode (raw : List NestedUint8Array) : Except MPTError MPTNode :=
  if raw.length = 17 then
    .ok (.branch (fun i => raw.getD i .null) (raw.getD 16 .null))
  else
    match raw with
    | [.bytes key, value] =>
      let nibbles := bytesToNibbles key
      if isTerminator nibbles then .ok (.leaf (removeHexPrefix nibbles) value)
      else .ok (.extension (removeHexPrefix nibbles) value)
    | [.list _, _] => .error .illTyped
    | _ => .error .invalidNode

def decodeMPTNode (node : Bytes) : Except MPTError MPTNode :=
  match Rlp.decode node false with
  | .error e => .error (.rlp e)
  | .ok (.data (.list raw)) => decodeRawMPTNode raw
  | .ok _ => .error .invalidNode

end TsEthereum
