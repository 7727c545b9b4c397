import TsEthereum.Common.MapStack
import TsEthereum.State.Storage

/-!
# The state manager

`merkleStateManager.ts`, with the three caches of type `ORDERED_MAP` or without
any. The tries are known by what they hold: the account trie by its accounts and
those of its open checkpoints, a storage trie by its root, under which the node
database has its slots. Codes are written to the database of the account trie, so
its checkpoints are theirs; a storage trie writes below them. `_storageTries` is keyed by the hash of an address, here by
the address; the second key the source stores a trie under, the address itself, is
never read. The RLP around a slot's value, in the caches and in the tries, is left
out, and so is `originalStorageCache`, which no call here reads.
-/

namespace TsEthereum

/-- What a storage trie holds: a slot without an entry is empty. -/
abbrev StorageMap : Type := SlotKey → Bytes

/-- An empty storage. -/
def StorageMap.empty : StorageMap := fun _ => []

/-- **The hash and the roots** of tries by what these hold, with the codes and the
storages among which no two have the same. -/
structure TrieHashing where
  keccak256 : Bytes → Bytes32
  storageRoot : StorageMap → Bytes32
  stateRoot : (Bytes20 → Option Account) → Bytes32
  codes : Set Bytes
  storages : Set StorageMap
  keccak256_injOn : Set.InjOn keccak256 codes
  storageRoot_injOn : Set.InjOn storageRoot storages
  keccak256_nil : keccak256 [] = KECCAK256_NULL
  storageRoot_empty : storageRoot .empty = KECCAK256_RLP
  nil_mem : [] ∈ codes
  empty_mem : StorageMap.empty ∈ storages

/-- An `AccountCache` of type `ORDERED_MAP`. -/
abbrev OrderedAccounts : Type := AccountCache (LruCache.orderedMap Bytes20 AccountCacheElement)

/-- A `CodeCache` of type `ORDERED_MAP`. -/
abbrev OrderedCodes : Type := CodeCache (LruCache.orderedMap Bytes20 CodeCacheElement)

/-- **The `Caches`.** -/
structure Caches where
  account : OrderedAccounts
  code : OrderedCodes
  storage : StorageCache.Ordered

namespace Caches

/-- New caches. -/
def new : Caches := ⟨Cache.new, Cache.new, StorageCache.new⟩

variable (c : Caches)

def deleteAccount (address : Bytes20) : Caches where
  code := CodeCache.del c.code address
  account := AccountCache.del c.account address
  storage := c.storage.clearStorage address

def checkpoint : Caches :=
  ⟨Cache.checkpoint c.account, Cache.checkpoint c.code, c.storage.checkpoint⟩

def commit : Caches := ⟨Cache.commit c.account, Cache.commit c.code, c.storage.commit⟩

def revert : Caches := ⟨Cache.revert c.account, Cache.revert c.code, c.storage.revert⟩

end Caches

/-- The account of an element: every element is that of an account, or of none. -/
def AccountCacheElement.account (elem : AccountCacheElement) : Option Account :=
  elem.accountRLP.bind createAccountFromRLP

/-- **The `MerkleStateManager`**: its caches, if it has any, the account trie, the
roots of the storage tries in memory, and what the database has: the slots under a
root, the code under a hash. -/
structure MerkleStateManager where
  _caches : Option Caches
  _trie : MapStack Bytes20 Account
  _storageTries : Bytes20 → Option Bytes32
  nodes : Bytes32 → Option StorageMap
  codeDB : MapStack Bytes32 Bytes
  _checkpointCount : ℕ

/-- What the calls throw. -/
inductive StateError where
  /-- 'Storage key must be 32 bytes long' -/
  | storageKeyLength
  /-- 'Storage value cannot be longer than 32 bytes' -/
  | storageValueTooLong
  /-- 'putStorage() called on non-existing account' -/
  | nonExistingAccount
  /-- A node that the database does not have. -/
  | missingNode
  /-- What a commit or a revert of the account trie throws without a checkpoint. -/
  | notCheckpointed
  /-- What `flush` of the storage cache throws. -/
  | mapNotDefined

def unpadBytes (value : Bytes) : Bytes := value.dropWhile (· == 0)

namespace MerkleStateManager

variable (H : TrieHashing) (m : MerkleStateManager)

/-- **`getAccount`**: what is read of the trie is cached. -/
def getAccount (address : Bytes20) : Option Account × MerkleStateManager :=
  match m._caches with
  | none => (m._trie.top address, m)
  | some caches =>
    match Cache.get caches.account address with
    | (some elem, cache) => (elem.account, { m with _caches := some { caches with account := cache } })
    | (none, cache) =>
      let account := m._trie.top address
      (account,
        { m with _caches := some { caches with account := AccountCache.put cache address account } })

/-- **`putAccount`**. -/
def putAccount (address : Bytes20) (account : Option Account) : MerkleStateManager :=
  match m._caches with
  | none => { m with _trie := m._trie.modify fun trie => Function.update trie address account }
  | some caches =>
    match account with
    | some account =>
      { m with
        _caches := some
          { caches with account := AccountCache.put caches.account address (some account) } }
    | none =>
      { m with _caches := some { caches with account := AccountCache.del caches.account address } }

/-- **`deleteAccount`**: the storage trie in memory is left. -/
def deleteAccount (address : Bytes20) : MerkleStateManager :=
  match m._caches with
  | none => { m with _trie := m._trie.modify fun trie => Function.update trie address none }
  | some caches => { m with _caches := some (caches.deleteAccount address) }

/-- `modifyAccountFields`, of the code hash. -/
def modifyAccountFields (address : Bytes20) (codeHash : Bytes32) : MerkleStateManager :=
  let (account, m) := m.getAccount address
  m.putAccount address (some { account.getD .new with codeHash := codeHash })

/-- A code in the database. -/
def putCodeDB (code : Bytes) : MerkleStateManager :=
  { m with codeDB := m.codeDB.modify fun db => Function.update db (H.keccak256 code) (some code) }

/-- The account of an address is put with a code hash, a new one if there is none. -/
def setCodeHash (address : Bytes20) (codeHash : Bytes32) : MerkleStateManager :=
  let (account, m) := m.getAccount address
  let m := if account.isNone then m.putAccount address (some .new) else m
  m.modifyAccountFields address codeHash

/-- **`putCode`**. -/
def putCode (address : Bytes20) (value : Bytes) : MerkleStateManager :=
  let m := match m._caches with
    | none => m.putCodeDB H value
    | some caches =>
      { m with _caches := some { caches with code := CodeCache.put caches.code address (some value) } }
  m.setCodeHash address (H.keccak256 value)

/-- What `getCode` reads without an element in the cache. -/
def readCode (address : Bytes20) : Bytes × MerkleStateManager :=
  match m.getAccount address with
  | (none, m) => ([], m)
  | (some account, m) =>
    if !account.isContract then ([], m)
    else
      let code := (m.codeDB.top account.codeHash).getD []
      match m._caches with
      | none => (code, m)
      | some caches =>
        (code,
          { m with
            _caches := some { caches with code := CodeCache.put caches.code address (some code) } })

/-- **`getCode`**: an element without a code is an account without one. -/
def getCode (address : Bytes20) : Bytes × MerkleStateManager :=
  match m._caches with
  | none => m.readCode address
  | some caches =>
    match Cache.get caches.code address with
    | (some elem, cache) =>
      (elem.code.getD [], { m with _caches := some { caches with code := cache } })
    | (none, cache) => { m with _caches := some { caches with code := cache } }.readCode address

/-- What is under a root: nothing under that of an empty trie. -/
def content (root : Bytes32) : Option StorageMap :=
  if root = KECCAK256_RLP then some .empty else m.nodes root

/-- **`_getStorageTrie`**: a trie in memory is taken whatever the account says its
root is. -/
def _getStorageTrie (address : Bytes20) (account : Account) : Bytes32 × MerkleStateManager :=
  match m._storageTries address with
  | some root => (root, m)
  | none =>
    (account.storageRoot,
      { m with
        _storageTries := Function.update m._storageTries address (some account.storageRoot) })

/-- What `getStorage` reads without a value in the cache. -/
def readStorage (address : Bytes20) (key : SlotKey) :
    Except StateError Bytes × MerkleStateManager :=
  match m.getAccount address with
  | (none, m) => (.ok [], m)
  | (some account, m) =>
    let (root, m) := m._getStorageTrie address account
    match m.content root with
    | none => (.error .missingNode, m)
    | some storage =>
      let value := storage key
      match m._caches with
      | none => (.ok value, m)
      | some caches =>
        (.ok value,
          { m with
            _caches := some { caches with storage := caches.storage.put address key value } })

/-- **`getStorage`**. -/
def getStorage (address : Bytes20) (key : SlotKey) : Except StateError Bytes × MerkleStateManager :=
  if key.length ≠ 32 then (.error .storageKeyLength, m)
  else
    match m._caches with
    | none => m.readStorage address key
    | some caches =>
      match caches.storage.get address key with
      | (some value, cache) => (.ok value, { m with _caches := some { caches with storage := cache } })
      | (none, cache) =>
        { m with _caches := some { caches with storage := cache } }.readStorage address key

/-- **`_modifyContractStorage`**: the trie gets a root, and so does the account. -/
def setStorageRoot (address : Bytes20) (account : Account) (root : Bytes32) : MerkleStateManager :=
  { m with _storageTries := Function.update m._storageTries address (some root) }.putAccount address
    (some { account with storageRoot := root })

/-- **`_writeContractStorage`**: an empty value deletes the slot. Where a node is
missing the promise of the source is never resolved. -/
def _writeContractStorage (address : Bytes20) (account : Account) (key : SlotKey) (value : Bytes) :
    Except StateError Unit × MerkleStateManager :=
  let (root, m) := m._getStorageTrie address account
  match m.content root with
  | none => (.error .missingNode, m)
  | some storage =>
    let storage := Function.update storage key value
    let root := H.storageRoot storage
    (.ok (),
      { m with nodes := Function.update m.nodes root (some storage) }.setStorageRoot address account
        root)

/-- **`putStorage`**: the slot is cached, and written to the trie too. -/
def putStorage (address : Bytes20) (key : SlotKey) (value : Bytes) :
    Except StateError Unit × MerkleStateManager :=
  if key.length ≠ 32 then (.error .storageKeyLength, m)
  else if value.length > 32 then (.error .storageValueTooLong, m)
  else
    match m.getAccount address with
    | (none, m) => (.error .nonExistingAccount, m)
    | (some account, m) =>
      let value := unpadBytes value
      let m := match m._caches with
        | none => m
        | some caches =>
          { m with
            _caches := some { caches with storage := caches.storage.put address key value } }
      m._writeContractStorage H address account key value

/-- **`clearStorage`**. -/
def clearStorage (address : Bytes20) : MerkleStateManager :=
  let (account, m) := m.getAccount address
  let account := account.getD .new
  let m := match m._caches with
    | none => m
    | some caches =>
      { m with _caches := some { caches with storage := caches.storage.clearStorage address } }
  let (_, m) := m._getStorageTrie address account
  m.setStorageRoot address account KECCAK256_RLP

/-! ## Flushing and checkpoints -/

/-- A code that is flushed. -/
def flushCode (item : Bytes20 × CodeCacheElement) : MerkleStateManager :=
  match item.2.code with
  | none => m
  | some code => (m.putCodeDB H code).setCodeHash item.1 (H.keccak256 code)

/-- A slot that is flushed: one the cache has no value of is empty. -/
def flushSlot (item : Bytes20 × SlotKey × Option Bytes) : Except StateError Unit × MerkleStateManager :=
  match m.getAccount item.1 with
  | (none, m) => (.ok (), m)
  | (some account, m) => m._writeContractStorage H item.1 account item.2.1 (item.2.2.getD [])

/-- The slots that are flushed, up to one that throws. -/
def flushSlots (m : MerkleStateManager) : List (Bytes20 × SlotKey × Option Bytes) →
    Except StateError Unit × MerkleStateManager
  | [] => (.ok (), m)
  | item :: items =>
    match m.flushSlot H item with
    | (.error e, m) => (.error e, m)
    | (.ok _, m) => flushSlots m items

/-- An account that is flushed. -/
def flushAccount (item : Bytes20 × AccountCacheElement) : MerkleStateManager :=
  { m with _trie := m._trie.modify fun trie => Function.update trie item.1 item.2.account }

/-- The codes of the cache are flushed. -/
def flushCodes : MerkleStateManager :=
  match m._caches with
  | none => m
  | some caches =>
    let (items, cache) := Cache.flush caches.code
    items.foldl (flushCode H) { m with _caches := some { caches with code := cache } }

/-- The slots of the cache are flushed. -/
def flushStorage : Except StateError Unit × MerkleStateManager :=
  match m._caches with
  | none => (.ok (), m)
  | some caches =>
    match caches.storage.flush with
    | .error _ => (.error .mapNotDefined, m)
    | .ok (items, cache) =>
      flushSlots H { m with _caches := some { caches with storage := cache } } items

/-- The accounts of the cache are flushed. -/
def flushAccounts : MerkleStateManager :=
  match m._caches with
  | none => m
  | some caches =>
    let (items, cache) := Cache.flush caches.account
    items.foldl flushAccount { m with _caches := some { caches with account := cache } }

/-- **`flush`**: the codes, the slots and then the accounts. -/
def flush : Except StateError Unit × MerkleStateManager :=
  match (m.flushCodes H).flushStorage H with
  | (.error e, m) => (.error e, m)
  | (.ok _, m) => (.ok (), m.flushAccounts)

/-- **`getStateRoot`**, at any height. -/
def getStateRoot : Except StateError Bytes32 × MerkleStateManager :=
  match m.flush H with
  | (.error e, m) => (.error e, m)
  | (.ok _, m) => (.ok (H.stateRoot m._trie.top), m)

/-- **`checkpoint`**. -/
def checkpoint : MerkleStateManager :=
  { m with
    _trie := m._trie.checkpoint
    codeDB := m.codeDB.checkpoint
    _caches := m._caches.map Caches.checkpoint
    _checkpointCount := m._checkpointCount + 1 }

/-- What `commit` and `revert` end with: a flush, once no checkpoint is open. -/
def settle : Except StateError Unit × MerkleStateManager :=
  let m := { m with _checkpointCount := m._checkpointCount - 1 }
  if m._checkpointCount = 0 then m.flush H else (.ok (), m)

/-- **`commit`**. -/
def commit : Except StateError Unit × MerkleStateManager :=
  match m._trie.commit StateError.notCheckpointed, m.codeDB.commit StateError.notCheckpointed with
  | .ok trie, .ok codeDB =>
    { m with
      _trie := trie
      codeDB := codeDB
      _caches := m._caches.map Caches.commit }.settle H
  | _, _ => (.error .notCheckpointed, m)

/-- **`revert`**: no storage trie stays in memory. -/
def revert : Except StateError Unit × MerkleStateManager :=
  match m._trie.revert StateError.notCheckpointed, m.codeDB.revert StateError.notCheckpointed with
  | .ok trie, .ok codeDB =>
    { m with
      _trie := trie
      codeDB := codeDB
      _caches := m._caches.map Caches.revert
      _storageTries := fun _ => none }.settle H
  | _, _ => (.error .notCheckpointed, m)

end MerkleStateManager

/-- A call on the state manager, but for those on its checkpoints. -/
inductive StateCall where
  | getAccount (address : Bytes20)
  | putAccount (address : Bytes20) (account : Option Account)
  | deleteAccount (address : Bytes20)
  | getCode (address : Bytes20)
  | putCode (address : Bytes20) (value : Bytes)
  | getStorage (address : Bytes20) (key : SlotKey)
  | putStorage (address : Bytes20) (key : SlotKey) (value : Bytes)
  | clearStorage (address : Bytes20)
  | getStateRoot

/-- What a call returns. -/
inductive StateResult where
  | done
  | account (account : Option Account)
  | bytes (bytes : Bytes)
  | root (root : Bytes32)

namespace MerkleStateManager

variable (H : TrieHashing)

/-- A result under its name. -/
def returns {α : Type} (f : α → StateResult) (r : Except StateError α × MerkleStateManager) :
    Except StateError StateResult × MerkleStateManager :=
  (r.1.map f, r.2)

/-- **What a call returns and leaves.** -/
def call (m : MerkleStateManager) : StateCall → Except StateError StateResult × MerkleStateManager
  | .getAccount address => (.ok (.account (m.getAccount address).1), (m.getAccount address).2)
  | .putAccount address account => (.ok .done, m.putAccount address account)
  | .deleteAccount address => (.ok .done, m.deleteAccount address)
  | .getCode address => (.ok (.bytes (m.getCode address).1), (m.getCode address).2)
  | .putCode address value => (.ok .done, m.putCode H address value)
  | .getStorage address key => returns .bytes (m.getStorage address key)
  | .putStorage address key value => returns (fun _ => .done) (m.putStorage H address key value)
  | .clearStorage address => (.ok .done, m.clearStorage address)
  | .getStateRoot => returns .root (m.getStateRoot H)

/-- **What a call or a checkpoint call leaves.** -/
def step (m : MerkleStateManager) : SnapshotOp StateCall → MerkleStateManager
  | .write w => (m.call H w).2
  | .checkpoint => m.checkpoint
  | .commit => (m.commit H).2
  | .revert => (m.revert H).2

end MerkleStateManager

end TsEthereum
