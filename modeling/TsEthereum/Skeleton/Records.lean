import TsEthereum.Blockchain.Keys
import TsEthereum.Blockchain.Chain
import TsEthereum.Common.Action
import TsEthereum.Rlp.RoundTrip

/-!
# The records of the skeleton

What `Skeleton` holds and what it keeps in its database: blocks by number and by hash, and
the status. A block is kept as the RLP of its hardfork and of its own RLP, the status as
nested lists. `Block` and `Chain` are parameters: of a block its hash, number, parent hash,
hardfork and RLP, of the chain what is read of it and what `putBlocks` and
`resetCanonicalHead` do.

A subchain is an object that several places hold; here it is the first of the list. Logs
and times are left out, and so are the calls that are not awaited
(`void this.fillCanonicalChain()`, `tryTailBackfill`): each is a call of its own.
-/

namespace TsEthereum.Skeleton

open TsEthereum Rlp
open TsEthereum.Blockchain (bigIntToBytes ofBigEndian_bigIntToBytes bytesToHex)

/-- **A block, the chain and the options**, as far as the skeleton uses them. -/
structure Config (β γ : Type) where
  hash : β → Bytes
  number : β → ℕ
  parentHash : β → Bytes
  hardfork : β → String
  serialize : β → Bytes
  createBlockFromRLP : Bytes → Option β
  genesis : β
  height : γ → ℕ
  latest : γ → Option β
  getBlock : γ → ℕ → Except String β
  getBlockByHash : γ → Bytes → Except String β
  putBlocks : γ → β → Except String ℕ × γ
  resetCanonicalHead : γ → ℕ → Except String Unit × γ
  skeletonFillCanonicalBackStep : ℕ
  skeletonSubchainMergeMinimum : ℕ
  engineParentLookupMaxDepth : ℕ

/-- `SkeletonSubchain`. -/
structure Subchain where
  head : ℕ
  tail : ℕ
  next : Bytes
  deriving DecidableEq

/-- `SkeletonStatus`. -/
structure Status where
  subchains : List Subchain
  linked : Bool
  canonicalHeadReset : Bool
  safe : ℕ
  finalized : ℕ
  deriving DecidableEq

inductive PutStatus where
  | valid
  | invalid
  deriving DecidableEq

structure FillStatus where
  status : PutStatus
  height : ℕ
  hash : Bytes
  validationError : Option String
  deriving DecidableEq

/-- The keys of the database that the skeleton uses. -/
inductive Key where
  | skeletonBlock (number : Bytes)
  | skeletonBlockHashToNumber (hash : Bytes)
  | skeletonStatus
  | skeletonUnfinalizedBlockByHash (hash : Bytes)
  deriving DecidableEq

/-- **The skeleton**, with its database and the chain. -/
structure State (β γ : Type) where
  status : Status
  fillStatus : Option FillStatus
  started : Bool
  filling : Bool
  safeBlock : Option β
  finalizedBlock : Option β
  db : Key → Option Bytes
  chain : γ

/-- What it throws: an error, an error with a code, or what the chain threw. -/
inductive SkeletonError where
  | error (message : String)
  | coded (code : ℤ) (message : String)
  | chain (message : String)
  deriving DecidableEq

/-- The code that runs on it. -/
abbrev Run (β γ α : Type) : Type := Action SkeletonError (State β γ) α

variable {β γ : Type}

def zeroBlockHash : Bytes := List.replicate 32 0

def short (bytes : Bytes) : String :=
  let bytesString := bytesToHex bytes
  String.ofList (bytesString.toList.take 6) ++ "…" ++
    (if bytesString.length = 66 then String.ofList (bytesString.toList.drop 62) else "")

/-- What the constructor makes, with a database and a chain. -/
def State.create (db : Key → Option Bytes) (chain : γ) : State β γ where
  status := ⟨[], false, false, 0, 0⟩
  fillStatus := none
  started := false
  filling := false
  safeBlock := none
  finalizedBlock := none
  db := db
  chain := chain

/-- `this.status = …`. -/
def State.setStatus (s : State β γ) (f : Status → Status) : State β γ := { s with status := f s.status }

/-- `this.put(…)`. -/
def State.put (s : State β γ) (key : Key) (value : Bytes) : State β γ :=
  { s with db := Function.update s.db key (some value) }

/-- `this.delete(…)`. -/
def State.delete (s : State β γ) (key : Key) : State β γ :=
  { s with db := Function.update s.db key none }

/-! ## Blocks -/

def utf8ToBytes (text : String) : Bytes := text.toList.flatMap String.utf8EncodeChar

/-- `bytes.toString()` of a `Uint8Array`: the numbers with commas between them. -/
def uint8ArrayToString (b : Bytes) : String :=
  String.ofList ([','].intercalate (b.map fun x => Nat.toDigits 10 x.toNat))

def serialize (hardfork : String) (blockRLP : Bytes) : Bytes :=
  encode (.list [.bytes (utf8ToBytes hardfork), .bytes blockRLP])

/-- `deserialize`: what is no list of two strings has no `toString` of one, or is no RLP
of a block. -/
def deserialize (rlp : Bytes) : Option (String × Bytes) :=
  match decode rlp false with
  | .ok (.data (.list (.bytes hardfork :: .bytes blockRLP :: _))) =>
    some (uint8ArrayToString hardfork, blockRLP)
  | _ => none

section

variable (cfg : Config β γ)

/-- `skeletonBlockRlpToBlock`, that may throw. -/
def skeletonBlockRlpToBlock (rlp : Bytes) : Option β :=
  (deserialize rlp).bind fun record => cfg.createBlockFromRLP record.2

/-- **`putBlock`**. -/
def putBlock (block : β) (onlyUnfinalized : Bool) (s : State β γ) : State β γ :=
  let rlp := serialize (cfg.hardfork block) (cfg.serialize block)
  let s := s.put (.skeletonUnfinalizedBlockByHash (cfg.hash block)) rlp
  if onlyUnfinalized then s
  else
    (s.put (.skeletonBlock (bigIntToBytes (cfg.number block))) rlp).put
      (.skeletonBlockHashToNumber (cfg.hash block)) (bigIntToBytes (cfg.number block))

/-- **`deleteBlock`**. -/
def deleteBlock (block : β) (s : State β γ) : State β γ :=
  ((s.delete (.skeletonBlock (bigIntToBytes (cfg.number block)))).delete
    (.skeletonBlockHashToNumber (cfg.hash block))).delete
      (.skeletonUnfinalizedBlockByHash (cfg.hash block))

/-- **`getBlock`**: from the skeleton, else from the chain. -/
def getBlock (s : State β γ) (number : ℕ) (onlyCanonical : Bool) : Option β :=
  match (s.db (.skeletonBlock (bigIntToBytes number))).bind (skeletonBlockRlpToBlock cfg) with
  | some block => some block
  | none =>
    if onlyCanonical && !s.status.linked then none else (cfg.getBlock s.chain number).toOption

def getUnfinalizedBlock (s : State β γ) (hash : Bytes) : Option β :=
  (s.db (.skeletonUnfinalizedBlockByHash hash)).bind (skeletonBlockRlpToBlock cfg)

/-- `getBlockByHash` of the blocks that need not be canonical. -/
def getBlockByHash (s : State β γ) (hash : Bytes) : Option β :=
  match (s.db (.skeletonBlockHashToNumber hash)).bind fun number =>
      (getBlock cfg s (ofBigEndian number) false).filter fun block => cfg.hash block = hash with
  | some block => some block
  | none =>
    match getUnfinalizedBlock cfg s hash with
    | some block => some block
    | none => (cfg.getBlockByHash s.chain hash).toOption

end

/-! ## The status -/

/-- `intToBytes` of a flag. -/
def flagToBytes (flag : Bool) : Bytes := bigIntToBytes (if flag then 1 else 0)

/-- A subchain in `statusToRLP`. -/
def Subchain.toRLP (subchain : Subchain) : NestedUint8Array :=
  .list [.bytes (bigIntToBytes subchain.head), .bytes (bigIntToBytes subchain.tail),
    .bytes subchain.next]

/-- What `statusToRLP` encodes. -/
def Status.toValue (status : Status) : NestedUint8Array :=
  .list [.list (status.subchains.map Subchain.toRLP), .bytes (flagToBytes status.linked),
    .bytes (flagToBytes status.canonicalHeadReset), .bytes (bigIntToBytes status.safe),
    .bytes (bigIntToBytes status.finalized)]

/-- **`statusToRLP`**. -/
def statusToRLP (status : Status) : Bytes := encode status.toValue

/-- A subchain in `statusRLPtoObject`. -/
def Subchain.ofRLP : NestedUint8Array → Option Subchain
  | .list [.bytes head, .bytes tail, .bytes next] =>
    some ⟨ofBigEndian head, ofBigEndian tail, next⟩
  | _ => none

/-- **`statusRLPtoObject`**, of what `statusToRLP` writes. -/
def statusRLPtoObject (serializedStatus : Bytes) : Option Status :=
  match decode serializedStatus false with
  | .ok (.data (.list [.list rawSubchains, .bytes linked, .bytes canonicalHeadReset, .bytes safe,
      .bytes finalized])) =>
    (rawSubchains.mapM Subchain.ofRLP).map fun subchains =>
      { subchains := subchains
        linked := decide (ofBigEndian linked = 1)
        canonicalHeadReset := decide (ofBigEndian canonicalHeadReset = 1)
        safe := ofBigEndian safe
        finalized := ofBigEndian finalized }
  | _ => none

/-- **`writeSyncStatus`**. -/
def writeSyncStatus (s : State β γ) : State β γ := s.put .skeletonStatus (statusToRLP s.status)

/-- **`getSyncStatus`**: the status, and the safe and the finalized block of it; none where it
throws. -/
def getSyncStatus (cfg : Config β γ) (s : State β γ) : Option (State β γ) :=
  match s.db .skeletonStatus with
  | none => some s
  | some rawStatus =>
    (statusRLPtoObject rawStatus).map fun status =>
      let s := { s with status := status }
      { s with
        safeBlock := getBlock cfg s status.safe true
        finalizedBlock := getBlock cfg s status.finalized true }

/-- **`close`**. -/
def close (s : State β γ) : State β γ := { writeSyncStatus s with started := false }

/-- **`open`** of a skeleton made with a database and a chain; none where it throws. -/
def «open» (cfg : Config β γ) (db : Key → Option Bytes) (chain : γ) : Option (State β γ) :=
  (getSyncStatus cfg (State.create db chain)).map fun s => { s with started := true }

end TsEthereum.Skeleton
