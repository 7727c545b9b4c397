import TsEthereum.State.Flush

/-!
# Calls that keep the caches coherent

What a call must not bring in is an account, a code or a storage that does not fit
what the manager has of the address (`Fits`). A call that fits is the same update of
the view as of the manager (`Stands.call`), and leaves the view coherent
(`Coherent.call`).
-/

namespace TsEthereum

/-- **What a call brings in fits**: an account that is put, or that gets a code, agrees
with what is held of its address, and a code and a storage that are written are
among those with hashes and roots of their own. -/
def StateCall.Fits (H : TrieHashing) (holdsAt : Bytes20 → AddressView)
    (content : Bytes32 → Option StorageMap) (codeDB : Bytes32 → Option Bytes) : StateCall → Prop
  | .putAccount a account =>
    ({ holdsAt a with account := account } : AddressView).Sound H content codeDB
  | .putCode a value => value ∈ H.codes ∧
    ({ holdsAt a with account := some ((holdsAt a).account.getD .new) } : AddressView).Sound H content
      codeDB
  | .putStorage a key value => ∀ account storage, (holdsAt a).account = some account →
    content account.storageRoot = some storage →
      Function.update storage key (unpadBytes value) ∈ H.storages
  | _ => True

namespace MerkleStateManager

variable (m : MerkleStateManager) (a : Bytes20)

/-- What a manager has of an address. -/
def holdsAt : AddressView where
  account := (m.getAccount a).1
  code := m._caches.bind fun c => (Cache.get c.code a).1
  slots := fun k => m._caches.bind fun c => (c.storage.get a k).1
  recorded := fun k => ∃ c, m._caches = some c ∧ c.storage.Recorded a k
  root := m._storageTries a

/-- A call fits what a manager has. -/
def Fits (H : TrieHashing) (m : MerkleStateManager) (w : StateCall) : Prop :=
  w.Fits H m.holdsAt m.content m.codeDB.top

end MerkleStateManager

namespace StateView

variable (H : TrieHashing) (V : StateView)

/-- What a call returns and leaves, but for what a flush leaves. -/
def call : StateCall → Except StateError StateResult × StateView
  | .getAccount a => (.ok (.account (V.account a)), V.touch a)
  | .putAccount a account => (.ok .done, V.setAccount a account)
  | .deleteAccount a => (.ok .done, V.deleteAccount a)
  | .getCode a => (.ok (.bytes (V.getCode a).1), (V.getCode a).2)
  | .putCode a value => (.ok .done, V.putCode H a value)
  | .getStorage a k => ((V.getStorage a k).1.map .bytes, (V.getStorage a k).2)
  | .putStorage a k value =>
    ((V.putStorage H a k value).1.map fun _ => .done, (V.putStorage H a k value).2)
  | .clearStorage a => (.ok .done, V.clearStorage a)
  | .getStateRoot => (.ok (.root (H.stateRoot V.account)), V)

/-- **One view extends another**: the trie and the codes are as they were, and every
storage is there. -/
structure Extends (V V' : StateView) : Prop where
  trie : V'.trie = V.trie
  codeDB : V'.codeDB = V.codeDB
  content : ∀ root storage, V.content root = some storage → V'.content root = some storage

end StateView

/-- Calls that clear the slots of an address. -/
def StateCall.clears : StateCall → Option Bytes20
  | .deleteAccount a => some a
  | .clearStorage a => some a
  | _ => none

namespace MerkleStateManager

variable {H : TrieHashing} {m : MerkleStateManager} {V : StateView} {saved : List StateView}

theorem Stands.holdsAt (h : Stands m V saved) : m.holdsAt = V.holdsAt := by
  funext a
  obtain ⟨m', hget, -⟩ := h.getAccount a
  rw [MerkleStateManager.holdsAt, StateView.holdsAt, hget]
  obtain ⟨c, ⟨-, hcode, hstorage⟩, rfl⟩ := h
  have hrecorded : (fun k => ∃ c', (V.manager saved c)._caches = some c' ∧ c'.storage.Recorded a k) =
      V.storage.recorded a := by
    funext k
    rw [← hstorage.recorded_iff]
    refine propext ⟨?_, fun hk => ⟨c, rfl, hk⟩⟩
    rintro ⟨c', hc', hk⟩
    obtain rfl := Option.some.inj hc'
    exact hk
  rw [hrecorded]
  have hslots : (fun k => (V.manager saved c)._caches.bind fun c => (c.storage.get a k).1) =
      V.storage.slots a := by
    funext k
    exact hstorage.get_fst a k
  rw [hslots]
  have hcode' : ((V.manager saved c)._caches.bind fun c => (Cache.get c.code a).1) =
      V.codes.elements a := congrFun hcode.1 a
  rw [hcode']
  rfl

theorem Stands.fits (h : Stands m V saved) (w : StateCall) :
    m.Fits H w ↔ w.Fits H V.holdsAt V.content V.codeDB := by
  have hcontent : m.content = V.content := funext h.content
  rw [Fits, h.holdsAt, hcontent]
  obtain ⟨c, hc, rfl⟩ := h
  exact Iff.rfl

theorem Stands.putStorage (h : Stands m V saved) (a : Bytes20) (k : SlotKey) (value : Bytes) :
    ∃ m', m.putStorage H a k value = ((V.putStorage H a k value).1, m') ∧
      Stands m' (V.putStorage H a k value).2 saved := by
  obtain ⟨m₁, hget, h₁⟩ := h.getAccount a
  rw [MerkleStateManager.putStorage, StateView.putStorage]
  split
  · exact ⟨m, rfl, h⟩
  · split
    · exact ⟨m, rfl, h⟩
    · rw [hget]
      rcases V.account a with _ | account
      · exact ⟨m₁, rfl, h₁⟩
      · obtain ⟨c, hc, rfl⟩ := h₁
        exact (Stands.setSlot hc a k (unpadBytes value)).writeContractStorage a account k _

theorem MayClear.getAccount {a : Bytes20} (h : m.MayClear a) (b : Bytes20) :
    (m.getAccount b).2.MayClear a := by
  intro c hc
  rw [MerkleStateManager.getAccount] at hc
  split at hc
  · exact h c hc
  · next caches hcaches =>
    split at hc
    · rw [← Option.some.inj hc]
      exact h caches hcaches
    · rw [← Option.some.inj hc]
      exact h caches hcaches

theorem Stands.clearStorage (h : Stands m V saved) {a : Bytes20} (hclear : m.MayClear a) :
    Stands (m.clearStorage a) (V.clearStorage a) saved := by
  have hclear₁ := hclear.getAccount a
  obtain ⟨m₁, hget, h₁⟩ := h.getAccount a
  rw [hget] at hclear₁
  rw [MerkleStateManager.clearStorage, hget]
  dsimp only
  obtain ⟨c, ⟨haccount, hcode, hstorage⟩, rfl⟩ := h₁
  have h₂ : Stands { (V.touch a).manager saved c with
      _caches := some { c with storage := c.storage.clearStorage a } }
      ((V.touch a).clearSlots a) saved :=
    ⟨{ c with storage := c.storage.clearStorage a },
      ⟨haccount, hcode, hstorage.clear (hclear₁ c rfl)⟩, rfl⟩
  obtain ⟨m₃, htrie, h₃⟩ := h₂.getStorageTrie a ((V.account a).getD .new)
  have h₄ := h₃.setStorageRoot a ((V.account a).getD .new) KECCAK256_RLP
  rw [StateView.setRoot_setRoot] at h₄
  change Stands _ ((((V.clearSlots a).setRoot a KECCAK256_RLP).touch a).setAccount a _) saved at h₄
  rw [StateView.touch_setAccount] at h₄
  dsimp only [StateView.manager] at htrie ⊢
  rw [htrie]
  exact h₄

theorem Stands.call (h : Stands m V saved) {w : StateCall} (hw : w ≠ .getStateRoot)
    (hclear : ∀ a, w.clears = some a → m.MayClear a) :
    ∃ m', m.call H w = ((V.call H w).1, m') ∧ Stands m' (V.call H w).2 saved := by
  rcases w with a | ⟨a, account⟩ | a | a | ⟨a, value⟩ | ⟨a, k⟩ | ⟨a, k, value⟩ | a | _
  · obtain ⟨m', hget, h'⟩ := h.getAccount a
    refine ⟨m', ?_, h'⟩
    rw [MerkleStateManager.call, hget]
    rfl
  · exact ⟨_, rfl, h.putAccount a account⟩
  · exact ⟨_, rfl, h.deleteAccount (hclear a rfl)⟩
  · obtain ⟨m', hget, h'⟩ := h.getCode a
    refine ⟨m', ?_, h'⟩
    rw [MerkleStateManager.call, hget]
    rfl
  · exact ⟨_, rfl, h.putCode a value⟩
  · obtain ⟨m', hget, h'⟩ := h.getStorage a k
    refine ⟨m', ?_, h'⟩
    rw [MerkleStateManager.call, hget]
    rfl
  · obtain ⟨m', hput, h'⟩ := h.putStorage (H := H) a k value
    refine ⟨m', ?_, h'⟩
    rw [MerkleStateManager.call, hput]
    rfl
  · exact ⟨_, rfl, h.clearStorage (hclear a rfl)⟩
  · exact absurd rfl hw

end MerkleStateManager

/-! ## What a call leaves -/

namespace StateView

variable {H : TrieHashing} {V V' V'' : StateView}

theorem Extends.refl : V.Extends V := ⟨rfl, rfl, fun _ _ => id⟩

theorem Extends.of_eq (htrie : V'.trie = V.trie) (hcodeDB : V'.codeDB = V.codeDB)
    (hnodes : V'.nodes = V.nodes) : V.Extends V' where
  trie := htrie
  codeDB := hcodeDB
  content root storage hroot := by
    rw [StateView.content, hnodes]
    exact hroot

theorem Extends.trans (h : V.Extends V') (h' : V'.Extends V'') : V.Extends V'' where
  trie := h'.trie.trans h.trie
  codeDB := h'.codeDB.trans h.codeDB
  content root storage hroot := h'.content root storage (h.content root storage hroot)

theorem extends_getCode (V : StateView) (a : Bytes20) : V.Extends (V.getCode a).2 := by
  rw [getCode]
  split
  · exact .of_eq rfl rfl rfl
  · rw [readCode]
    split
    · exact .of_eq rfl rfl rfl
    · dsimp only
      split
      · exact .of_eq rfl rfl rfl
      · exact .of_eq rfl rfl rfl

theorem extends_getStorage (V : StateView) (a : Bytes20) (k : SlotKey) :
    V.Extends (V.getStorage a k).2 := by
  rw [getStorage]
  split
  · exact .of_eq rfl rfl rfl
  · split
    · exact .of_eq rfl rfl rfl
    · rw [readStorage]
      split
      · exact .of_eq rfl rfl rfl
      · dsimp only
        split
        · exact .of_eq rfl rfl rfl
        · exact .of_eq rfl rfl rfl

theorem extends_putStorage {a : Bytes20} {k : SlotKey} {value : Bytes} (h : Coherent H ∅ V)
    (hmem : ∀ account storage, V.account a = some account →
      V.content account.storageRoot = some storage →
        Function.update storage k (unpadBytes value) ∈ H.storages) :
    V.Extends (V.putStorage H a k value).2 := by
  rw [putStorage]
  split
  · exact .of_eq rfl rfl rfl
  · split
    · exact .of_eq rfl rfl rfl
    · rcases haccount : V.account a with _ | account
      · exact .of_eq rfl rfl rfl
      · obtain ⟨hroot, storage, hcontent, -⟩ := h.content_root haccount
        have hstorage := hmem account storage haccount hcontent
        have hcontent' : ((V.touch a).setSlot a k (unpadBytes value)).content
            (((V.touch a).setSlot a k (unpadBytes value)).root a account) = some storage := by
          change V.content (V.root a account) = _
          rw [hroot, hcontent]
        dsimp only
        rw [write, hcontent']
        exact ⟨rfl, rfl, fun root storage' => h.content_setNode_of_some hstorage⟩

theorem extends_call (h : Coherent H ∅ V) {w : StateCall}
    (hfits : w.Fits H V.holdsAt V.content V.codeDB) : V.Extends (V.call H w).2 := by
  rcases w with a | ⟨a, account⟩ | a | a | ⟨a, value⟩ | ⟨a, k⟩ | ⟨a, k, value⟩ | a | _
  · exact .of_eq rfl rfl rfl
  · exact .of_eq rfl rfl rfl
  · exact .of_eq rfl rfl rfl
  · exact V.extends_getCode a
  · exact .of_eq rfl rfl rfl
  · exact V.extends_getStorage a k
  · exact extends_putStorage h hfits
  · exact .of_eq rfl rfl rfl
  · exact .of_eq rfl rfl rfl

end StateView

theorem Coherent.call {H : TrieHashing} {V : StateView} (h : Coherent H ∅ V) {w : StateCall}
    (hfits : w.Fits H V.holdsAt V.content V.codeDB) : Coherent H ∅ (V.call H w).2 := by
  rcases w with a | ⟨a, account⟩ | a | a | ⟨a, value⟩ | ⟨a, k⟩ | ⟨a, k, value⟩ | a | _
  · exact h.touch a
  · exact h.putAccount hfits
  · exact h.deleteAccount a
  · exact h.getCode a
  · exact h.putCode hfits.1 hfits.2
  · exact h.getStorage a k
  · exact h.putStorage hfits
  · exact h.clearStorage a
  · exact h

/-! ## A manager over a database -/

/-- **A database**, in which the storages and the codes of the accounts are found. -/
structure StateDatabase (H : TrieHashing) where
  accounts : Bytes20 → Option Account
  nodes : Bytes32 → Option StorageMap
  codeDB : Bytes32 → Option Bytes
  contents : ∀ root storage, nodes root = some storage →
    storage ∈ H.storages ∧ H.storageRoot storage = root
  stored : ∀ hash code, codeDB hash = some code → code ∈ H.codes ∧ H.keccak256 code = hash
  hasStorage : ∀ a account, accounts a = some account →
    account.storageRoot = KECCAK256_RLP ∨ nodes account.storageRoot ≠ none
  hasCode : ∀ a account, accounts a = some account →
    account.codeHash = KECCAK256_NULL ∨ codeDB account.codeHash ≠ none

namespace StateDatabase

variable {H : TrieHashing} (D : StateDatabase H)

/-- A new manager over a database. -/
def manager (caches : Option Caches) : MerkleStateManager :=
  ⟨caches, ⟨D.accounts, []⟩, fun _ => none, D.nodes, ⟨D.codeDB, []⟩, 0⟩

/-- What a new manager with caches holds. -/
def view : StateView :=
  ⟨.empty, .empty, .empty, D.accounts, fun _ => none, D.nodes, D.codeDB⟩

theorem stands : (D.manager (some .new)).Stands D.view [] :=
  ⟨.new, ⟨Cache.stands_new, Cache.stands_new, StorageCache.keeps_new⟩, rfl⟩

theorem coherent : Coherent H ∅ D.view where
  contents := by
    intro root storage hroot
    rw [StateView.content] at hroot
    split at hroot
    · next heq =>
      rw [← Option.some.inj hroot, heq]
      exact ⟨H.empty_mem, H.storageRoot_empty⟩
    · exact D.contents root storage hroot
  stored := D.stored
  codes := by
    intro a elem code helem
    cases helem
  unwritten := by
    intro a elem _ helem
    cases helem
  sound := by
    intro a _
    rw [AddressView.Sound]
    have hholds : (D.view.holdsAt a).account = D.accounts a := rfl
    rw [hholds]
    rcases haccount : D.accounts a with _ | account
    · refine ⟨fun elem helem => ?_, fun k value hvalue => ?_⟩
      · cases helem
      · cases hvalue
    · refine ⟨D.hasCode a account haccount, fun root hroot => ?_, ?_⟩
      · cases hroot
      have hcontent : D.view.content account.storageRoot ≠ none := by
        rw [StateView.content]
        split
        · exact Option.some_ne_none _
        · next hne => exact (D.hasStorage a account haccount).resolve_left hne
      obtain ⟨storage, hstorage⟩ := Option.ne_none_iff_exists'.1 hcontent
      refine ⟨storage, hstorage, fun k hk => ?_⟩
      rcases hk with hk | hk
      · exact hk.elim
      · exact absurd rfl hk

/-- An empty database. -/
def empty (H : TrieHashing) : StateDatabase H where
  accounts _ := none
  nodes _ := none
  codeDB _ := none
  contents := nofun
  stored := nofun
  hasStorage := nofun
  hasCode := nofun

end StateDatabase

/-! ## Some hashes -/

/-- The key of the first slot. -/
def firstSlot : SlotKey := List.replicate 32 0

/-- The hash of a zero byte. -/
def keccakZero : Bytes32 :=
  ⟨[0xbc, 0x36, 0x78, 0x9e, 0x7a, 0x1e, 0x28, 0x14, 0x36, 0x46, 0x42, 0x29, 0x82, 0x8f, 0x81, 0x7d,
    0x66, 0x12, 0xf7, 0xb4, 0x77, 0xd6, 0x65, 0x91, 0xff, 0x96, 0xa9, 0xe0, 0x64, 0xbc, 0xc9, 0x8a],
    rfl⟩

/-- The root of a storage that has 5 in its first slot. -/
def fiveRoot : Bytes32 :=
  ⟨[0xa8, 0x1d, 0x62, 0x53, 0xcf, 0xe9, 0x82, 0xc4, 0x66, 0x84, 0xc6, 0xf1, 0x0f, 0x9e, 0x86, 0x0e,
    0x65, 0x95, 0x9f, 0x04, 0x91, 0x4b, 0x84, 0x35, 0x82, 0x81, 0xb6, 0xcd, 0xef, 0x63, 0xa0, 0x2d],
    rfl⟩

/-- The root of a state that has a new account at one address. -/
def newRoot : Bytes32 :=
  ⟨[0x8b, 0xa2, 0x2b, 0x90, 0x3a, 0xc8, 0x2d, 0x15, 0x21, 0x09, 0x71, 0x57, 0x5b, 0x8b, 0xd4, 0xc0,
    0x37, 0xee, 0x22, 0x46, 0xa6, 0x5f, 0x73, 0xe7, 0xf4, 0x94, 0x82, 0x0b, 0x86, 0x37, 0xab, 0x9d],
    rfl⟩

/-- Hashes of the empty code and of a zero byte, roots of an empty storage and of one
with 5 in its first slot, and of a state that may have a new account. -/
def smallHashing : TrieHashing where
  keccak256 code := if code = [] then KECCAK256_NULL else keccakZero
  storageRoot storage := if storage firstSlot = [] then KECCAK256_RLP else fiveRoot
  stateRoot accounts := if (accounts (repeated 1)).isNone then KECCAK256_RLP else newRoot
  codes := {[], [0]}
  storages := {StorageMap.empty, Function.update StorageMap.empty firstSlot [5]}
  keccak256_injOn := by
    have hne : KECCAK256_NULL ≠ keccakZero := by decide
    rintro code (rfl | rfl) code' (rfl | rfl) h
    · rfl
    · exact absurd h hne
    · exact absurd h.symm hne
    · rfl
  storageRoot_injOn := by
    have hne : KECCAK256_RLP ≠ fiveRoot := by decide
    rintro storage (rfl | rfl) storage' (rfl | rfl) h
    · rfl
    · dsimp only at h
      rw [Function.update_self] at h
      exact absurd h hne
    · dsimp only at h
      rw [Function.update_self] at h
      exact absurd h.symm hne
    · rfl
  keccak256_nil := rfl
  storageRoot_empty := rfl
  nil_mem := .inl rfl
  empty_mem := .inl rfl

end TsEthereum
