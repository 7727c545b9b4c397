import TsEthereum.State.Manager
import TsEthereum.State.Slots

/-!
# What a state manager with caches holds

A `StateView` is what the caches are for, their elements and what was written
since the last flush, over the trie and the databases. A manager with caches of
type `ORDERED_MAP` stands for a view and those of its checkpoints (`Stands`), and
each of its calls is an update of the view.
-/

namespace TsEthereum

namespace CacheView

variable {κ ν : Type} [DecidableEq κ] (s : CacheView κ ν) (k : κ) (elem elem' : ν)

/-- An element is written where there is none. -/
def touch : CacheView κ ν := if (s.elements k).isSome then s else s.put k elem

theorem elements_put (k' : κ) :
    (s.put k elem).elements k' = if k' = k then some elem else s.elements k' := by
  rw [put]
  exact Function.update_apply ..

@[simp] theorem put_put : (s.put k elem).put k elem' = s.put k elem' := by
  rw [put, put, put, Function.update_idem, Finset.insert_idem]

@[simp] theorem touch_put : (s.touch k elem).put k elem' = s.put k elem' := by
  unfold touch
  split
  · rfl
  · exact s.put_put k elem elem'

end CacheView

/-- **What the caches are for**, over the trie, the roots in memory and the
databases. -/
structure StateView where
  accounts : CacheView Bytes20 AccountCacheElement
  codes : CacheView Bytes20 CodeCacheElement
  storage : SlotView
  trie : Bytes20 → Option Account
  tries : Bytes20 → Option Bytes32
  nodes : Bytes32 → Option StorageMap
  codeDB : Bytes32 → Option Bytes

namespace StateView

variable (H : TrieHashing) (V : StateView) (a : Bytes20) (k : SlotKey)

/-- The account of an address. -/
def account : Option Account :=
  match V.accounts.elements a with
  | some elem => elem.account
  | none => V.trie a

/-- What is under a root. -/
def content (root : Bytes32) : Option StorageMap :=
  if root = KECCAK256_RLP then some .empty else V.nodes root

/-- The account of an address is cached. -/
def touch : StateView := { V with accounts := V.accounts.touch a (.of (V.trie a)) }

/-- An account is put, or taken away. -/
def setAccount (account : Option Account) : StateView :=
  { V with accounts := V.accounts.put a (.of account) }

/-- A code is cached, or that there is none. -/
def setCode (code : Option Bytes) : StateView := { V with codes := V.codes.put a ⟨code⟩ }

/-- A slot is cached. -/
def setSlot (value : Bytes) : StateView := { V with storage := V.storage.put a k value }

/-- The slots of an address are dropped. -/
def clearSlots : StateView := { V with storage := V.storage.clear a }

/-- The root of a storage trie in memory. -/
def setRoot (root : Bytes32) : StateView := { V with tries := Function.update V.tries a (some root) }

/-- A storage is written to the database. -/
def setNode (storage : StorageMap) : StateView :=
  { V with nodes := Function.update V.nodes (H.storageRoot storage) (some storage) }

/-- A code is written to the database. -/
def setCodeDB (code : Bytes) : StateView :=
  { V with codeDB := Function.update V.codeDB (H.keccak256 code) (some code) }

/-! ## The calls -/

/-- An account is deleted. -/
def deleteAccount : StateView := ((V.setCode a none).setAccount a none).clearSlots a

/-- The account of an address gets a code hash. -/
def setCodeHash (codeHash : Bytes32) : StateView :=
  V.setAccount a (some { (V.account a).getD .new with codeHash := codeHash })

/-- A code is put. -/
def putCode (value : Bytes) : StateView :=
  (V.setCode a (some value)).setCodeHash a (H.keccak256 value)

/-- A code that the cache does not have is read. -/
def readCode : Bytes × StateView :=
  match V.account a with
  | none => ([], V.touch a)
  | some account =>
    if !account.isContract then ([], V.touch a)
    else
      let code := (V.codeDB account.codeHash).getD []
      (code, (V.touch a).setCode a (some code))

/-- A code is read. -/
def getCode : Bytes × StateView :=
  match V.codes.elements a with
  | some elem => (elem.code.getD [], V)
  | none => V.readCode a

/-- The root of the storage trie of an account. -/
def root (account : Account) : Bytes32 := (V.tries a).getD account.storageRoot

/-- A slot that the cache does not have is read. -/
def readStorage : Except StateError Bytes × StateView :=
  match V.account a with
  | none => (.ok [], V.touch a)
  | some account =>
    let root := V.root a account
    let V' := (V.touch a).setRoot a root
    match V.content root with
    | none => (.error .missingNode, V')
    | some storage => (.ok (storage k), V'.setSlot a k (storage k))

/-- A slot is read. -/
def getStorage : Except StateError Bytes × StateView :=
  if k.length ≠ 32 then (.error .storageKeyLength, V)
  else
    match V.storage.slots a k with
    | some value => (.ok value, V)
    | none => V.readStorage a k

/-- A slot is written to the trie of an account. -/
def write (account : Account) (value : Bytes) : Except StateError Unit × StateView :=
  let root := V.root a account
  match V.content root with
  | none => (.error .missingNode, V.setRoot a root)
  | some storage =>
    let storage := Function.update storage k value
    let root := H.storageRoot storage
    (.ok (),
      ((V.setNode H storage).setRoot a root).setAccount a (some { account with storageRoot := root }))

/-- A slot is put. -/
def putStorage (value : Bytes) : Except StateError Unit × StateView :=
  if k.length ≠ 32 then (.error .storageKeyLength, V)
  else if value.length > 32 then (.error .storageValueTooLong, V)
  else
    match V.account a with
    | none => (.error .nonExistingAccount, V.touch a)
    | some account =>
      ((V.touch a).setSlot a k (unpadBytes value)).write H a k account (unpadBytes value)

/-- A storage is cleared. -/
def clearStorage : StateView :=
  ((V.clearSlots a).setRoot a KECCAK256_RLP).setAccount a
    (some { (V.account a).getD .new with storageRoot := KECCAK256_RLP })

/-! ## The accounts of a view -/

theorem account_of (account : Option Account) : (AccountCacheElement.of account).account = account := by
  rcases account with _ | account
  · rfl
  · rw [AccountCacheElement.of, AccountCacheElement.account, Option.map_some, Option.bind_some,
      Account.createAccountFromRLP_serialize]

theorem account_setAccount (a' : Bytes20) (account : Option Account) :
    (V.setAccount a account).account a' = if a' = a then account else V.account a' := by
  rw [StateView.account, setAccount, CacheView.elements_put]
  by_cases heq : a' = a
  · rw [if_pos heq, if_pos heq]
    exact account_of account
  · rw [if_neg heq, if_neg heq]
    rfl

theorem touch_cases :
    V.touch a = V ∨ V.account a = V.trie a ∧ V.touch a = V.setAccount a (V.trie a) := by
  rcases helem : V.accounts.elements a with _ | elem
  · refine .inr ⟨by rw [StateView.account, helem], ?_⟩
    rw [touch, CacheView.touch, helem]
    rfl
  · refine .inl ?_
    rw [touch, CacheView.touch, helem]
    rfl

@[simp] theorem account_touch (a' : Bytes20) : (V.touch a).account a' = V.account a' := by
  rcases V.touch_cases a with heq | ⟨haccount, heq⟩
  · rw [heq]
  · rw [heq, account_setAccount]
    split
    · next heq => rw [heq, haccount]
    · rfl

@[simp] theorem touch_setAccount (account : Option Account) :
    (V.touch a).setAccount a account = V.setAccount a account := by
  rw [touch, setAccount, CacheView.touch_put]
  rfl

@[simp] theorem setAccount_setAccount (account account' : Option Account) :
    (V.setAccount a account).setAccount a account' = V.setAccount a account' := by
  rw [setAccount, setAccount, CacheView.put_put]
  rfl

@[simp] theorem setRoot_setRoot (root root' : Bytes32) :
    (V.setRoot a root).setRoot a root' = V.setRoot a root' := by
  rw [setRoot, setRoot, Function.update_idem]
  rfl

@[simp] theorem root_touch (account : Account) : (V.touch a).root a account = V.root a account := rfl

@[simp] theorem content_touch (root : Bytes32) : (V.touch a).content root = V.content root := rfl

@[simp] theorem content_setRoot (root root' : Bytes32) :
    (V.setRoot a root').content root = V.content root := rfl

end StateView

/-! ## What a manager stands for -/

/-- **Caches stand for a view**, and those of the checkpoints. -/
def Caches.Stands (c : Caches) (V : StateView) (saved : List StateView) : Prop :=
  Cache.Stands c.account ⟨V.accounts, saved.map StateView.accounts⟩ ∧
    Cache.Stands c.code ⟨V.codes, saved.map StateView.codes⟩ ∧
      StorageCache.Keeps c.storage V.storage (saved.map StateView.storage)

/-- A manager with some caches, over the trie and the databases of a view. -/
def StateView.manager (V : StateView) (saved : List StateView) (c : Caches) : MerkleStateManager where
  _caches := some c
  _trie := ⟨V.trie, saved.map StateView.trie⟩
  _storageTries := V.tries
  nodes := V.nodes
  codeDB := ⟨V.codeDB, saved.map StateView.codeDB⟩
  _checkpointCount := saved.length

namespace MerkleStateManager

/-- **A manager stands for a view**, and those of its checkpoints. -/
def Stands (m : MerkleStateManager) (V : StateView) (saved : List StateView) : Prop :=
  ∃ c : Caches, c.Stands V saved ∧ m = V.manager saved c

variable {H : TrieHashing} {m : MerkleStateManager} {V : StateView} {saved : List StateView}

theorem Stands.getAccount (h : Stands m V saved) (a : Bytes20) :
    ∃ m', m.getAccount a = (V.account a, m') ∧ Stands m' (V.touch a) saved := by
  obtain ⟨c, ⟨haccount, hcode, hstorage⟩, rfl⟩ := h
  have hget : Cache.get c.account a = (V.accounts.elements a, c.account) :=
    Prod.ext (congrFun haccount.1 a) rfl
  rw [MerkleStateManager.getAccount, StateView.account]
  dsimp only [StateView.manager]
  rw [hget]
  rcases helem : V.accounts.elements a with _ | elem
  · have htouch : V.touch a = V.setAccount a (V.trie a) := by
      rw [StateView.touch, CacheView.touch, helem]
      rfl
    rw [htouch]
    exact ⟨_, rfl, { c with account := AccountCache.put c.account a (V.trie a) },
      ⟨haccount.put a _, hcode, hstorage⟩, rfl⟩
  · have htouch : V.touch a = V := by
      rw [StateView.touch, CacheView.touch, helem]
      rfl
    rw [htouch]
    exact ⟨_, rfl, c, ⟨haccount, hcode, hstorage⟩, rfl⟩

theorem Stands.putAccount (h : Stands m V saved) (a : Bytes20) (account : Option Account) :
    Stands (m.putAccount a account) (V.setAccount a account) saved := by
  obtain ⟨c, ⟨haccount, hcode, hstorage⟩, rfl⟩ := h
  rcases account with _ | account
  · exact ⟨{ c with account := AccountCache.del c.account a },
      ⟨haccount.put a _, hcode, hstorage⟩, rfl⟩
  · exact ⟨{ c with account := AccountCache.put c.account a (some account) },
      ⟨haccount.put a _, hcode, hstorage⟩, rfl⟩

/-- Every address may be cleared, or there are no caches. -/
def MayClear (m : MerkleStateManager) (a : Bytes20) : Prop :=
  ∀ c, m._caches = some c → c.storage.MayClear a

theorem Stands.mayClear (h : Stands m V []) (a : Bytes20) : m.MayClear a := by
  obtain ⟨c, ⟨-, -, hstorage⟩, rfl⟩ := h
  intro c' hc'
  obtain rfl := Option.some.inj hc'
  refine .inl ?_
  obtain ⟨-, hlevels, -⟩ := hstorage
  rw [StorageCache._checkpoints]
  generalize c.storage._diffCache = diffs at hlevels
  cases hlevels
  rfl

theorem Stands.deleteAccount (h : Stands m V saved) {a : Bytes20} (hclear : m.MayClear a) :
    Stands (m.deleteAccount a) (V.deleteAccount a) saved := by
  obtain ⟨c, ⟨haccount, hcode, hstorage⟩, rfl⟩ := h
  exact ⟨c.deleteAccount a, ⟨haccount.put a _, hcode.put a _, hstorage.clear (hclear c rfl)⟩, rfl⟩

theorem Stands.modifyAccountFields (h : Stands m V saved) (a : Bytes20) (codeHash : Bytes32) :
    Stands (m.modifyAccountFields a codeHash) (V.setCodeHash a codeHash) saved := by
  obtain ⟨m', hget, h'⟩ := h.getAccount a
  rw [MerkleStateManager.modifyAccountFields, hget]
  have hput := h'.putAccount a (some { (V.account a).getD .new with codeHash := codeHash })
  rw [StateView.touch_setAccount] at hput
  exact hput

theorem Stands.setCodeHash (h : Stands m V saved) (a : Bytes20) (codeHash : Bytes32) :
    Stands (m.setCodeHash a codeHash) (V.setCodeHash a codeHash) saved := by
  obtain ⟨m', hget, h'⟩ := h.getAccount a
  rw [MerkleStateManager.setCodeHash, hget]
  dsimp only
  rcases haccount : V.account a with _ | account
  · have hnew := (h'.putAccount a (some .new)).modifyAccountFields a codeHash
    rw [StateView.setCodeHash, StateView.account_setAccount, if_pos rfl,
      StateView.setAccount_setAccount, StateView.touch_setAccount] at hnew
    rw [StateView.setCodeHash, haccount]
    exact hnew
  · have hsame := h'.modifyAccountFields a codeHash
    rw [StateView.setCodeHash, StateView.account_touch, StateView.touch_setAccount] at hsame
    exact hsame

theorem Stands.putCode (h : Stands m V saved) (a : Bytes20) (value : Bytes) :
    Stands (m.putCode H a value) (V.putCode H a value) saved := by
  obtain ⟨c, ⟨haccount, hcode, hstorage⟩, rfl⟩ := h
  have hput : Stands { V.manager saved c with
      _caches := some { c with code := CodeCache.put c.code a (some value) } }
      (V.setCode a (some value)) saved :=
    ⟨{ c with code := CodeCache.put c.code a (some value) },
      ⟨haccount, hcode.put a _, hstorage⟩, rfl⟩
  exact hput.setCodeHash a (H.keccak256 value)

theorem Stands.readCode (h : Stands m V saved) (a : Bytes20) :
    ∃ m', m.readCode a = ((V.readCode a).1, m') ∧ Stands m' (V.readCode a).2 saved := by
  obtain ⟨m', hget, h'⟩ := h.getAccount a
  rw [MerkleStateManager.readCode, StateView.readCode, hget]
  rcases V.account a with _ | account
  · exact ⟨m', rfl, h'⟩
  · dsimp only
    split
    · exact ⟨m', rfl, h'⟩
    · obtain ⟨c, ⟨haccount, hcode, hstorage⟩, rfl⟩ := h'
      refine ⟨_, rfl, ?_⟩
      exact ⟨{ c with code := CodeCache.put c.code a (some ((V.codeDB account.codeHash).getD [])) },
        ⟨haccount, hcode.put a _, hstorage⟩, rfl⟩

theorem Stands.getCode (h : Stands m V saved) (a : Bytes20) :
    ∃ m', m.getCode a = ((V.getCode a).1, m') ∧ Stands m' (V.getCode a).2 saved := by
  have hread := h.readCode a
  obtain ⟨c, ⟨haccount, hcode, hstorage⟩, rfl⟩ := h
  have hget : Cache.get c.code a = (V.codes.elements a, c.code) := Prod.ext (congrFun hcode.1 a) rfl
  rw [MerkleStateManager.getCode, StateView.getCode]
  dsimp only [StateView.manager]
  rw [hget]
  rcases V.codes.elements a with _ | elem
  · exact hread
  · exact ⟨_, rfl, c, ⟨haccount, hcode, hstorage⟩, rfl⟩

theorem Stands.getStorageTrie (h : Stands m V saved) (a : Bytes20) (account : Account) :
    ∃ m', m._getStorageTrie a account = (V.root a account, m') ∧
      Stands m' (V.setRoot a (V.root a account)) saved := by
  obtain ⟨c, hc, rfl⟩ := h
  rw [_getStorageTrie, StateView.root]
  dsimp only [StateView.manager]
  rcases htrie : V.tries a with _ | root
  · exact ⟨_, rfl, c, hc, rfl⟩
  · have hsame : V.setRoot a root = V := by
      rw [StateView.setRoot, ← htrie, Function.update_eq_self]
    rw [Option.getD_some, hsame]
    exact ⟨_, rfl, c, hc, rfl⟩

theorem Stands.content (h : Stands m V saved) (root : Bytes32) : m.content root = V.content root := by
  obtain ⟨c, hc, rfl⟩ := h
  rfl

theorem Stands.setSlot {c : Caches} (hc : c.Stands V saved) (a : Bytes20) (k : SlotKey) (value : Bytes) :
    Stands { V.manager saved c with _caches := some { c with storage := c.storage.put a k value } }
      (V.setSlot a k value) saved := by
  obtain ⟨haccount, hcode, hstorage⟩ := hc
  exact ⟨{ c with storage := c.storage.put a k value }, ⟨haccount, hcode, hstorage.put a k value⟩, rfl⟩

theorem Stands.readStorage (h : Stands m V saved) (a : Bytes20) (k : SlotKey) :
    ∃ m', m.readStorage a k = ((V.readStorage a k).1, m') ∧ Stands m' (V.readStorage a k).2 saved := by
  obtain ⟨m₁, hget, h₁⟩ := h.getAccount a
  rw [MerkleStateManager.readStorage, StateView.readStorage, hget]
  rcases V.account a with _ | account
  · exact ⟨m₁, rfl, h₁⟩
  · obtain ⟨m₂, htrie, h₂⟩ := h₁.getStorageTrie a account
    dsimp only
    rw [htrie]
    dsimp only
    rw [h₂.content, StateView.content_setRoot, StateView.content_touch, StateView.root_touch]
    rw [StateView.root_touch] at h₂
    rcases V.content (V.root a account) with _ | storage
    · exact ⟨m₂, rfl, h₂⟩
    · obtain ⟨c, hc, rfl⟩ := h₂
      exact ⟨_, rfl, Stands.setSlot hc a k (storage k)⟩

theorem Stands.getStorage (h : Stands m V saved) (a : Bytes20) (k : SlotKey) :
    ∃ m', m.getStorage a k = ((V.getStorage a k).1, m') ∧ Stands m' (V.getStorage a k).2 saved := by
  have hread := h.readStorage a k
  rw [MerkleStateManager.getStorage, StateView.getStorage]
  split
  · exact ⟨m, rfl, h⟩
  · obtain ⟨c, hc, rfl⟩ := h
    have hget : c.storage.get a k = (V.storage.slots a k, c.storage) :=
      Prod.ext (hc.2.2.get_fst a k) rfl
    dsimp only [StateView.manager]
    rw [hget]
    rcases V.storage.slots a k with _ | value
    · exact hread
    · exact ⟨_, rfl, c, hc, rfl⟩

theorem Stands.setStorageRoot (h : Stands m V saved) (a : Bytes20) (account : Account)
    (root : Bytes32) :
    Stands (m.setStorageRoot a account root)
      ((V.setRoot a root).setAccount a (some { account with storageRoot := root })) saved := by
  obtain ⟨c, hc, rfl⟩ := h
  have hroot : Stands { V.manager saved c with
      _storageTries := Function.update V.tries a (some root) } (V.setRoot a root) saved :=
    ⟨c, hc, rfl⟩
  exact hroot.putAccount a _

theorem Stands.writeContractStorage (h : Stands m V saved) (a : Bytes20) (account : Account)
    (k : SlotKey) (value : Bytes) :
    ∃ m', m._writeContractStorage H a account k value = ((V.write H a k account value).1, m') ∧
      Stands m' (V.write H a k account value).2 saved := by
  obtain ⟨m₁, htrie, h₁⟩ := h.getStorageTrie a account
  rw [_writeContractStorage, StateView.write, htrie]
  dsimp only
  rw [h₁.content, StateView.content_setRoot]
  rcases V.content (V.root a account) with _ | storage
  · exact ⟨m₁, rfl, h₁⟩
  · refine ⟨_, rfl, ?_⟩
    obtain ⟨c, hc, rfl⟩ := h₁
    dsimp only
    generalize Function.update storage k value = storage'
    have hnode : Stands { (V.setRoot a (V.root a account)).manager saved c with
        nodes := Function.update V.nodes (H.storageRoot storage') (some storage') }
        ((V.setNode H storage').setRoot a (V.root a account)) saved :=
      ⟨c, hc, rfl⟩
    have hroot := hnode.setStorageRoot a account (H.storageRoot storage')
    rw [StateView.setRoot_setRoot] at hroot
    exact hroot

end MerkleStateManager

end TsEthereum
