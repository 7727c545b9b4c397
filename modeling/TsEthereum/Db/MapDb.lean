import TsEthereum.Common.Bytes
import TsEthereum.Common.Except

/-!
# The key-value store under a trie

`MapDB` keeps a JavaScript `Map`. The model keeps the writes it received,
newest first, and a read looks for the newest one to its key: the same
answers, with the history still in hand. Keys go through
`bytesToUnprefixedHex` and values, under `ValueEncoding.String`, too; both
are undone on the way back, so they are left out.
-/

namespace TsEthereum

/-- A `BatchDBOp`. -/
inductive BatchDBOp where
  | put (key value : Bytes)
  | del (key : Bytes)
  deriving DecidableEq

/-- **`MapDB`**: the writes received, newest first; `none` is a deletion. -/
structure MapDB where
  log : List (Bytes × Option Bytes)
  deriving DecidableEq

namespace MapDB

/-- A store nothing was written to. -/
def empty : MapDB := ⟨[]⟩

/-- `get`: the value of the newest write to the key. -/
def get (db : MapDB) (key : Bytes) : Option Bytes :=
  (db.log.lookup key).join

def put (db : MapDB) (key value : Bytes) : MapDB := ⟨(key, some value) :: db.log⟩

def del (db : MapDB) (key : Bytes) : MapDB := ⟨(key, none) :: db.log⟩

/-- One operation of a batch. -/
def apply (db : MapDB) : BatchDBOp → MapDB
  | .put key value => db.put key value
  | .del key => db.del key

/-- `batch`: the operations in their order. -/
def batch (db : MapDB) (opStack : List BatchDBOp) : MapDB :=
  opStack.foldl apply db

@[simp] theorem get_empty (key : Bytes) : empty.get key = none := rfl

theorem get_put (db : MapDB) (key value : Bytes) :
    (db.put key value).get = Function.update db.get key (some value) := by
  funext k
  by_cases h : k = key
  · subst h
    simp [get, put]
  · rw [Function.update_of_ne h]
    simp [get, put, List.lookup_cons, beq_false_of_ne h]

theorem get_del (db : MapDB) (key : Bytes) :
    (db.del key).get = Function.update db.get key none := by
  funext k
  by_cases h : k = key
  · subst h
    simp [get, del]
  · rw [Function.update_of_ne h]
    simp [get, del, List.lookup_cons, beq_false_of_ne h]

end MapDB

end TsEthereum
