import TsEthereum.Common.LruCache
import TsEthereum.Common.Runs
import TsEthereum.Db.MapDb
import Mathlib.Data.List.AList

/-!
# `CheckpointDB`

The wrapper between a trie and its store. While a checkpoint is open,
writes go to the innermost checkpoint's diff map; `commit` merges the map
into the one below, or writes it to disk when there is none, and `revert`
drops it. With a positive `cacheSize` reads go through a cache first.

The statistics counters are left out: nothing but `stats` reads them.
-/

namespace TsEthereum

/-- A diff map. A key that maps to `none` is one the map knows to be
absent: the source stores `undefined` under it. -/
abbrev KeyValueMap := AList fun _ : Bytes => Option Bytes

/-- A checkpoint: its diff map and the trie root it was opened at. -/
structure Checkpoint where
  keyValueMap : KeyValueMap
  root : Bytes

/-- **`CheckpointDB`**: the checkpoints, innermost first, the store, and the
cache when `cacheSize` is positive. -/
structure CheckpointDB (C : LruCache Bytes Bytes) where
  checkpoints : List Checkpoint
  db : MapDB
  _cache : Option C.State

/-- What a call without an open checkpoint throws: `checkpoints.pop()` is
`undefined`, which cannot be destructured. -/
inductive CheckpointError where
  | noCheckpoint
  deriving DecidableEq

namespace CheckpointDB

variable {C : LruCache Bytes Bytes}

/-- A fresh instance with `cacheSize` 0. -/
def uncached (db : MapDB) : CheckpointDB C := ⟨[], db, none⟩

/-- A fresh instance with a positive `cacheSize`. -/
def cached (db : MapDB) : CheckpointDB C := ⟨[], db, some C.empty⟩

def hasCheckpoints (s : CheckpointDB C) : Bool := !s.checkpoints.isEmpty

def checkpoint (s : CheckpointDB C) (root : Bytes) : CheckpointDB C :=
  { s with checkpoints := ⟨∅, root⟩ :: s.checkpoints }

/-- The search through the diff maps, innermost first. -/
def lookupDiffs (checkpoints : List Checkpoint) (key : Bytes) : Option (Option Bytes) :=
  checkpoints.findSome? fun c => c.keyValueMap.lookup key

/-- `_cache?.set`: setting `undefined` deletes the entry. -/
def setCache (s : CheckpointDB C) (key : Bytes) (value : Option Bytes) : CheckpointDB C :=
  { s with
    _cache := s._cache.map fun cache =>
      match value with
      | some v => C.set cache key v
      | none => C.delete cache key }

/-- Sets a key of the innermost diff map, if a checkpoint is open. -/
def setDiff (s : CheckpointDB C) (key : Bytes) (value : Option Bytes) : CheckpointDB C :=
  { s with
    checkpoints :=
      match s.checkpoints with
      | [] => []
      | c :: cs => { c with keyValueMap := c.keyValueMap.insert key value } :: cs }

/-- `get` past the cache: the diff maps, then the store, whose answer is
cached and noted in the innermost diff map. -/
def getUncached (s : CheckpointDB C) (key : Bytes) : Option Bytes × CheckpointDB C :=
  match lookupDiffs s.checkpoints key with
  | some value => (value, s)
  | none =>
    let returnValue := s.db.get key
    (returnValue, (s.setCache key returnValue).setDiff key returnValue)

/-- **`get`.** -/
def get (s : CheckpointDB C) (key : Bytes) : Option Bytes × CheckpointDB C :=
  match s._cache with
  | none => s.getUncached key
  | some cache =>
    match C.get cache key with
    | (some value, cache') => (some value, { s with _cache := some cache' })
    | (none, cache') => { s with _cache := some cache' }.getUncached key

/-- **`put`.** -/
def put (s : CheckpointDB C) (key value : Bytes) : CheckpointDB C :=
  if s.hasCheckpoints then s.setDiff key (some value)
  else { s with db := s.db.put key value }.setCache key (some value)

/-- **`del`.** -/
def del (s : CheckpointDB C) (key : Bytes) : CheckpointDB C :=
  if s.hasCheckpoints then s.setDiff key none
  else { s with db := s.db.del key }.setCache key none

/-- One operation of a batch made while a checkpoint is open. -/
def apply (s : CheckpointDB C) : BatchDBOp → CheckpointDB C
  | .put key value => s.put key value
  | .del key => s.del key

/-- **`batch`**: through `put` and `del` while a checkpoint is open, else
one batch of the store, past the cache. -/
def batch (s : CheckpointDB C) (opStack : List BatchDBOp) : CheckpointDB C :=
  if s.hasCheckpoints then opStack.foldl apply s
  else { s with db := s.db.batch opStack }

/-- The batch operation a diff map's entry becomes. -/
def toBatchOp : (Σ _ : Bytes, Option Bytes) → BatchDBOp
  | ⟨key, none⟩ => .del key
  | ⟨key, some value⟩ => .put key value

/-- **`commit`**: the innermost diff map goes into the one below, or to the
store when it was the last. -/
def commit (s : CheckpointDB C) : Except CheckpointError (CheckpointDB C) :=
  match s.checkpoints with
  | [] => .error .noCheckpoint
  | [c] => .ok ({ s with checkpoints := [] }.batch (c.keyValueMap.entries.map toBatchOp))
  | c :: c' :: cs =>
    .ok { s with
      checkpoints :=
        { c' with
          keyValueMap := c.keyValueMap.entries.foldl (fun m e => m.insert e.1 e.2) c'.keyValueMap }
        :: cs }

/-- **`revert`**: the innermost diff map is dropped; the root it was opened
at is returned. -/
def revert (s : CheckpointDB C) : Except CheckpointError (Bytes × CheckpointDB C) :=
  match s.checkpoints with
  | [] => .error .noCheckpoint
  | c :: cs => .ok (c.root, { s with checkpoints := cs })

end CheckpointDB

/-- The calls a trie makes. -/
inductive CheckpointOp where
  | get (key : Bytes)
  | put (key value : Bytes)
  | del (key : Bytes)
  | batch (opStack : List BatchDBOp)
  | checkpoint (root : Bytes)
  | commit
  | revert
  deriving DecidableEq

/-- **One call.** -/
def CheckpointDB.step {C : LruCache Bytes Bytes} (s : CheckpointDB C) :
    CheckpointOp → Except CheckpointError (CheckpointDB C)
  | .get key => .ok (s.get key).2
  | .put key value => .ok (s.put key value)
  | .del key => .ok (s.del key)
  | .batch opStack => .ok (s.batch opStack)
  | .checkpoint root => .ok (s.checkpoint root)
  | .commit => s.commit
  | .revert => s.revert >>= fun r => .ok r.2

end TsEthereum
