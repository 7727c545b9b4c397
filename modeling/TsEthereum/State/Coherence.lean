import TsEthereum.State.View

/-!
# Coherent caches

The caches, the trie and the databases of a state manager have parts of the same
state: a code and its hash, the slots and the root of an account. In a coherent
view these parts agree (`Coherent`). What a call may bring in that does not agree
is an account that is put; every other call keeps a view coherent, and so does a
flush, which then changes nothing that is read (`Coherent.flush`).
-/

namespace TsEthereum

/-- **What is held of an address**: its account, what the caches have, and the root
of its storage trie in memory. -/
structure AddressView where
  account : Option Account
  code : Option CodeCacheElement
  slots : SlotKey → Option Bytes
  recorded : SlotKey → Prop
  root : Option Bytes32

namespace AddressView

variable (H : TrieHashing) (content : Bytes32 → Option StorageMap) (codeDB : Bytes32 → Option Bytes)

/-- **The code of an account is held**: its hash is that of the code in the cache,
or without one that of no code or of a code in the database. -/
def HasCode (x : AddressView) (account : Account) : Prop :=
  match x.code with
  | none => account.codeHash = KECCAK256_NULL ∨ codeDB account.codeHash ≠ none
  | some elem => H.keccak256 (elem.code.getD []) = account.codeHash

/-- **The storage of an account is held**: the trie in memory has its root, if there
is one, and in the storage under it each slot that is in the cache or in a diff is
what the cache has. -/
def HasStorage (x : AddressView) (account : Account) : Prop :=
  (∀ root, x.root = some root → root = account.storageRoot) ∧
    ∃ storage, content account.storageRoot = some storage ∧
      ∀ k, x.recorded k ∨ x.slots k ≠ none → storage k = (x.slots k).getD []

/-- Nothing is held: no code, and slots that are empty. -/
def HasNothing (x : AddressView) : Prop :=
  (∀ elem, x.code = some elem → elem.code = none) ∧ ∀ k value, x.slots k = some value → value = []

/-- **What is held agrees.** -/
def Sound (x : AddressView) : Prop :=
  match x.account with
  | none => x.HasNothing
  | some account => x.HasCode H codeDB account ∧ x.HasStorage content account

variable {H content codeDB} {content' : Bytes32 → Option StorageMap} {codeDB' : Bytes32 → Option Bytes}

theorem Sound.mono {x : AddressView} (h : x.Sound H content codeDB)
    (hcontent : ∀ root storage, content root = some storage → content' root = some storage)
    (hcodeDB : ∀ hash, codeDB hash ≠ none → codeDB' hash ≠ none) : x.Sound H content' codeDB' := by
  obtain ⟨account, code, slots, recorded, root⟩ := x
  rcases account with _ | account
  · exact h
  · obtain ⟨hcode, hroot, storage, hstorage, hslots⟩ := h
    refine ⟨?_, hroot, storage, hcontent _ _ hstorage, hslots⟩
    rcases code with _ | elem
    · exact hcode.imp_right (hcodeDB _)
    · exact hcode

theorem Sound.drop {x y : AddressView} (h : y.Sound H content codeDB) (haccount : x.account = y.account)
    (hcode : x.code = y.code) (hrecorded : ∀ k, x.recorded k → y.recorded k)
    (hslots : ∀ k, x.slots k = y.slots k ∨ x.slots k = none ∧ ¬ x.recorded k)
    (hroot : ∀ root, x.root = some root → y.root = some root) : x.Sound H content codeDB := by
  obtain ⟨account, code, slots, recorded, root⟩ := x
  dsimp only at haccount hcode hrecorded hslots hroot
  subst haccount hcode
  rw [Sound] at h ⊢
  dsimp only
  rcases haccount : y.account with _ | account
  · rw [haccount] at h
    obtain ⟨hnone, hempty⟩ := h
    refine ⟨hnone, fun k value hvalue => ?_⟩
    rcases hslots k with heq | ⟨hdropped, -⟩
    · exact hempty k value (heq.symm.trans hvalue)
    · cases hdropped.symm.trans hvalue
  · rw [haccount] at h
    obtain ⟨hcode, hmemory, storage, hstorage, hheld⟩ := h
    refine ⟨hcode, fun root hr => hmemory root (hroot root hr), storage, hstorage, fun k hk => ?_⟩
    dsimp only at hk ⊢
    rcases hslots k with heq | ⟨hdropped, hnot⟩
    · rw [heq] at hk ⊢
      exact hheld k (hk.imp_left (hrecorded k))
    · exact absurd hdropped (hk.resolve_left hnot)

end AddressView

namespace StateView

variable (V : StateView) (a b : Bytes20) (k : SlotKey)

/-- What a view has of an address. -/
def holdsAt : AddressView where
  account := V.account a
  code := V.codes.elements a
  slots := V.storage.slots a
  recorded := V.storage.recorded a
  root := V.tries a

@[simp] theorem holdsAt_touch : (V.touch a).holdsAt b = V.holdsAt b := by
  rw [holdsAt, account_touch]
  rfl

theorem holdsAt_setAccount (account : Option Account) :
    (V.setAccount a account).holdsAt a = { V.holdsAt a with account := account } := by
  rw [holdsAt, account_setAccount, if_pos rfl]
  rfl

theorem holdsAt_setCode (code : Option Bytes) :
    (V.setCode a code).holdsAt a = { V.holdsAt a with code := some ⟨code⟩ } := by
  have helem : (V.setCode a code).codes.elements a = some ⟨code⟩ := by
    rw [setCode, CacheView.elements_put, if_pos rfl]
  rw [holdsAt, helem]
  rfl

theorem holdsAt_setSlot (value : Bytes) :
    (V.setSlot a k value).holdsAt a =
      { V.holdsAt a with
        slots := Function.update (V.storage.slots a) k (some value)
        recorded := fun k' => k' = k ∨ V.storage.recorded a k' } := by
  have hslots : (V.setSlot a k value).storage.slots a =
      Function.update (V.storage.slots a) k (some value) := Function.update_self ..
  have hrecorded : (V.setSlot a k value).storage.recorded a =
      fun k' => k' = k ∨ V.storage.recorded a k' := by
    funext k'
    exact propext (or_congr (and_iff_right rfl) Iff.rfl)
  rw [holdsAt, hslots, hrecorded]
  rfl

theorem holdsAt_clearSlots :
    (V.clearSlots a).holdsAt a = { V.holdsAt a with slots := fun _ => none } := by
  have hslots : (V.clearSlots a).storage.slots a = fun _ => none := Function.update_self ..
  rw [holdsAt, hslots]
  rfl

theorem holdsAt_setRoot (root : Bytes32) :
    (V.setRoot a root).holdsAt a = { V.holdsAt a with root := some root } := by
  have hroot : (V.setRoot a root).tries a = some root := Function.update_self ..
  rw [holdsAt, hroot]
  rfl

variable {a b}

theorem holdsAt_setAccount_of_ne (h : b ≠ a) (account : Option Account) :
    (V.setAccount a account).holdsAt b = V.holdsAt b := by
  rw [holdsAt, account_setAccount, if_neg h]
  rfl

theorem holdsAt_setCode_of_ne (h : b ≠ a) (code : Option Bytes) :
    (V.setCode a code).holdsAt b = V.holdsAt b := by
  have helem : (V.setCode a code).codes.elements b = V.codes.elements b := by
    rw [setCode, CacheView.elements_put, if_neg h]
  rw [holdsAt, helem]
  rfl

theorem holdsAt_setSlot_of_ne (h : b ≠ a) (value : Bytes) :
    (V.setSlot a k value).holdsAt b = V.holdsAt b := by
  have hslots : (V.setSlot a k value).storage.slots b = V.storage.slots b :=
    Function.update_of_ne h ..
  have hrecorded : (V.setSlot a k value).storage.recorded b = V.storage.recorded b := by
    funext k'
    exact propext (or_iff_right fun heq => h heq.1)
  rw [holdsAt, hslots, hrecorded]
  rfl

theorem holdsAt_clearSlots_of_ne (h : b ≠ a) : (V.clearSlots a).holdsAt b = V.holdsAt b := by
  have hslots : (V.clearSlots a).storage.slots b = V.storage.slots b := Function.update_of_ne h ..
  rw [holdsAt, hslots]
  rfl

theorem holdsAt_setRoot_of_ne (h : b ≠ a) (root : Bytes32) :
    (V.setRoot a root).holdsAt b = V.holdsAt b := by
  have hroot : (V.setRoot a root).tries b = V.tries b := Function.update_of_ne h ..
  rw [holdsAt, hroot]
  rfl

theorem content_setNode {H : TrieHashing} {storage : StorageMap} (hmem : storage ∈ H.storages)
    (root : Bytes32) :
    (V.setNode H storage).content root =
      if root = H.storageRoot storage then some storage else V.content root := by
  rw [StateView.content, StateView.content, StateView.setNode]
  dsimp only
  rw [Function.update_apply]
  by_cases hempty : root = KECCAK256_RLP
  · rw [if_pos hempty, if_pos hempty]
    split
    · next heq =>
      rw [hempty, ← H.storageRoot_empty] at heq
      rw [H.storageRoot_injOn H.empty_mem hmem heq]
    · rfl
  · rw [if_neg hempty, if_neg hempty]

end StateView

/-- **A view is coherent**, but for what it has of some addresses: the databases have
what their keys say, an element that is not written is as in the trie, and what
is held of an address agrees. -/
structure Coherent (H : TrieHashing) (S : Set Bytes20) (V : StateView) : Prop where
  contents : ∀ root storage, V.content root = some storage →
    storage ∈ H.storages ∧ H.storageRoot storage = root
  stored : ∀ hash code, V.codeDB hash = some code → code ∈ H.codes ∧ H.keccak256 code = hash
  codes : ∀ a elem code, V.codes.elements a = some elem → elem.code = some code → code ∈ H.codes
  unwritten : ∀ a elem, a ∉ V.accounts.written → V.accounts.elements a = some elem →
    elem.account = V.trie a
  sound : ∀ a, a ∉ S → (V.holdsAt a).Sound H V.content V.codeDB

namespace Coherent

variable {H : TrieHashing} {S : Set Bytes20} {V : StateView} {a : Bytes20} {k : SlotKey}

theorem off (h : Coherent H ∅ V) (a : Bytes20) : Coherent H {a} V :=
  { h with sound := fun b _ => h.sound b (Set.notMem_empty b) }

theorem close (h : Coherent H {a} V) (ha : (V.holdsAt a).Sound H V.content V.codeDB) :
    Coherent H ∅ V :=
  { h with
    sound := fun b _ => by
      by_cases heq : b = a
      · rw [heq]
        exact ha
      · exact h.sound b heq }

/-! ## One update -/

theorem setAccount (h : Coherent H {a} V) (account : Option Account) :
    Coherent H {a} (V.setAccount a account) :=
  { h with
    unwritten := fun b elem hb helem => by
      have hne : b ≠ a := fun heq => hb (heq ▸ Finset.mem_insert_self ..)
      rw [StateView.setAccount, CacheView.elements_put, if_neg hne] at helem
      exact h.unwritten b elem (fun hmem => hb (Finset.mem_insert_of_mem hmem)) helem
    sound := fun b hb => by
      rw [StateView.holdsAt_setAccount_of_ne V hb]
      exact h.sound b hb }

theorem setCode (h : Coherent H {a} V) (code : Option Bytes) (hcode : ∀ c, code = some c → c ∈ H.codes) :
    Coherent H {a} (V.setCode a code) :=
  { h with
    codes := fun b elem c helem hc => by
      rw [StateView.setCode, CacheView.elements_put] at helem
      split at helem
      · rw [← Option.some.inj helem] at hc
        exact hcode c hc
      · exact h.codes b elem c helem hc
    sound := fun b hb => by
      rw [StateView.holdsAt_setCode_of_ne V hb]
      exact h.sound b hb }

theorem setSlot (h : Coherent H {a} V) (k : SlotKey) (value : Bytes) :
    Coherent H {a} (V.setSlot a k value) :=
  { h with
    sound := fun b hb => by
      rw [StateView.holdsAt_setSlot_of_ne V k hb]
      exact h.sound b hb }

theorem clearSlots (h : Coherent H {a} V) : Coherent H {a} (V.clearSlots a) :=
  { h with
    sound := fun b hb => by
      rw [StateView.holdsAt_clearSlots_of_ne V hb]
      exact h.sound b hb }

theorem setRoot (h : Coherent H {a} V) (root : Bytes32) : Coherent H {a} (V.setRoot a root) :=
  { h with
    sound := fun b hb => by
      rw [StateView.holdsAt_setRoot_of_ne V hb]
      exact h.sound b hb }

theorem content_setNode_of_some (h : Coherent H S V) {storage : StorageMap} (hmem : storage ∈ H.storages)
    {root : Bytes32} {storage' : StorageMap} (hroot : V.content root = some storage') :
    (V.setNode H storage).content root = some storage' := by
  rw [V.content_setNode hmem]
  split
  · next heq =>
    obtain ⟨hmem', hroot'⟩ := h.contents root storage' hroot
    rw [H.storageRoot_injOn hmem hmem' (heq.symm.trans hroot'.symm)]
  · exact hroot

theorem setNode (h : Coherent H S V) {storage : StorageMap} (hmem : storage ∈ H.storages) :
    Coherent H S (V.setNode H storage) :=
  { h with
    contents := fun root storage' hroot => by
      rw [V.content_setNode hmem] at hroot
      split at hroot
      · next heq =>
        obtain rfl := Option.some.inj hroot
        exact ⟨hmem, heq.symm⟩
      · exact h.contents root storage' hroot
    sound := fun b hb =>
      (h.sound b hb).mono (fun _ _ hroot => h.content_setNode_of_some hmem hroot) fun _ => id }

theorem setCodeDB (h : Coherent H S V) {code : Bytes} (hmem : code ∈ H.codes) :
    Coherent H S (V.setCodeDB H code) :=
  { h with
    stored := fun hash code' hhash => by
      rw [StateView.setCodeDB] at hhash
      dsimp only at hhash
      rw [Function.update_apply] at hhash
      split at hhash
      · next heq =>
        obtain rfl := Option.some.inj hhash
        exact ⟨hmem, heq.symm⟩
      · exact h.stored hash code' hhash
    sound := fun b hb => (h.sound b hb).mono (fun _ _ => id) fun hash hhash => by
      rw [StateView.setCodeDB]
      dsimp only
      rw [Function.update_apply]
      split
      · exact Option.some_ne_none _
      · exact hhash }

theorem touch (h : Coherent H ∅ V) (a : Bytes20) : Coherent H ∅ (V.touch a) := by
  rcases V.touch_cases a with heq | ⟨haccount, heq⟩
  · rw [heq]
    exact h
  · rw [heq]
    refine ((h.off a).setAccount (V.trie a)).close ?_
    rw [StateView.holdsAt_setAccount, ← haccount]
    exact h.sound a (Set.notMem_empty a)

/-! ## The calls -/

variable {account : Account}

theorem soundAt (h : Coherent H ∅ V) (a : Bytes20) :
    (V.holdsAt a).Sound H V.content V.codeDB :=
  h.sound a (Set.notMem_empty a)

theorem present (h : Coherent H ∅ V) (haccount : V.account a = some account) :
    (V.holdsAt a).HasCode H V.codeDB account ∧ (V.holdsAt a).HasStorage V.content account := by
  have hsound := h.soundAt a
  unfold AddressView.Sound at hsound
  rw [show (V.holdsAt a).account = some account from haccount] at hsound
  exact hsound

theorem absent (h : Coherent H ∅ V) (haccount : V.account a = none) : (V.holdsAt a).HasNothing := by
  have hsound := h.soundAt a
  unfold AddressView.Sound at hsound
  rw [show (V.holdsAt a).account = none from haccount] at hsound
  exact hsound

theorem content_root (h : Coherent H ∅ V) (haccount : V.account a = some account) :
    V.root a account = account.storageRoot ∧ ∃ storage, V.content account.storageRoot = some storage ∧
      ∀ k, V.storage.recorded a k ∨ V.storage.slots a k ≠ none →
        storage k = (V.storage.slots a k).getD [] := by
  obtain ⟨-, hroot, hstorage⟩ := h.present haccount
  refine ⟨?_, hstorage⟩
  rw [StateView.root]
  rcases htries : V.tries a with _ | root
  · rfl
  · exact hroot root htries

theorem putAccount (h : Coherent H ∅ V) {account : Option Account}
    (hfits : ({ V.holdsAt a with account := account } : AddressView).Sound H V.content V.codeDB) :
    Coherent H ∅ (V.setAccount a account) := by
  refine ((h.off a).setAccount account).close ?_
  rw [StateView.holdsAt_setAccount]
  exact hfits

theorem deleteAccount (h : Coherent H ∅ V) (a : Bytes20) : Coherent H ∅ (V.deleteAccount a) := by
  refine (((h.off a).setCode none nofun).setAccount none).clearSlots.close ?_
  rw [StateView.holdsAt_clearSlots, StateView.holdsAt_setAccount, StateView.holdsAt_setCode]
  refine ⟨fun elem helem => ?_, fun k value hvalue => ?_⟩
  · rw [← Option.some.inj helem]
  · cases hvalue

theorem putCode (h : Coherent H ∅ V) {value : Bytes} (hvalue : value ∈ H.codes)
    (hfits : ({ V.holdsAt a with account := some ((V.account a).getD .new) } : AddressView).Sound H
      V.content V.codeDB) : Coherent H ∅ (V.putCode H a value) := by
  refine (((h.off a).setCode (some value) ?_).setAccount _).close ?_
  · rintro code ⟨⟩
    exact hvalue
  · rw [StateView.holdsAt_setAccount, StateView.holdsAt_setCode]
    exact ⟨rfl, hfits.2⟩

theorem getCode (h : Coherent H ∅ V) (a : Bytes20) : Coherent H ∅ (V.getCode a).2 := by
  rw [StateView.getCode]
  rcases helem : V.codes.elements a with _ | elem
  · rw [StateView.readCode]
    rcases haccount : V.account a with _ | account
    · exact h.touch a
    · dsimp only
      split
      · exact h.touch a
      · next hcontract =>
        obtain ⟨hcode, hstorage⟩ := h.present haccount
        rw [AddressView.HasCode, show (V.holdsAt a).code = none from helem] at hcode
        have hne : account.codeHash ≠ KECCAK256_NULL := by
          intro heq
          rw [Account.isContract, heq] at hcontract
          exact hcontract rfl
        -- Another hash is that of a code in the database.
        obtain ⟨code, hstored⟩ := Option.ne_none_iff_exists'.1 (hcode.resolve_left hne)
        obtain ⟨hmem, hhash⟩ := h.stored _ _ hstored
        rw [hstored, Option.getD_some]
        refine (((h.touch a).off a).setCode (some code) ?_).close ?_
        · rintro c ⟨⟩
          exact hmem
        · rw [StateView.holdsAt_setCode, StateView.holdsAt_touch, AddressView.Sound,
            show (V.holdsAt a).account = some account from haccount]
          exact ⟨hhash, hstorage⟩
  · exact h

theorem getStorage (h : Coherent H ∅ V) (a : Bytes20) (k : SlotKey) :
    Coherent H ∅ (V.getStorage a k).2 := by
  rw [StateView.getStorage]
  split
  · exact h
  · rcases hslot : V.storage.slots a k with _ | value
    · rw [StateView.readStorage]
      rcases haccount : V.account a with _ | account
      · exact h.touch a
      · obtain ⟨hroot, storage, hcontent, hslots⟩ := h.content_root haccount
        dsimp only
        rw [hroot, hcontent]
        refine ((((h.touch a).off a).setRoot account.storageRoot).setSlot k (storage k)).close ?_
        rw [StateView.holdsAt_setSlot, StateView.holdsAt_setRoot, StateView.holdsAt_touch,
          AddressView.Sound, show (V.holdsAt a).account = some account from haccount]
        obtain ⟨hcode, -, -⟩ := h.present haccount
        refine ⟨hcode, ?_, storage, hcontent, fun k' hk' => ?_⟩
        · rintro root ⟨⟩
          rfl
        · change storage k' = (Function.update (V.storage.slots a) k (some (storage k)) k').getD []
          change (k' = k ∨ V.storage.recorded a k') ∨
            Function.update (V.storage.slots a) k (some (storage k)) k' ≠ none at hk'
          rw [Function.update_apply] at hk' ⊢
          split
          · next heq => rw [heq, Option.getD_some]
          · next hne =>
            rw [if_neg hne, or_iff_right hne] at hk'
            exact hslots k' hk'
    · exact h

/-- **A slot is put**, where the storage that results is among those that have roots
of their own. -/
theorem putStorage (h : Coherent H ∅ V) {value : Bytes}
    (hmem : ∀ account storage, V.account a = some account →
      V.content account.storageRoot = some storage →
        Function.update storage k (unpadBytes value) ∈ H.storages) :
    Coherent H ∅ (V.putStorage H a k value).2 := by
  rw [StateView.putStorage]
  split
  · exact h
  · split
    · exact h
    · rcases haccount : V.account a with _ | account
      · exact h.touch a
      · obtain ⟨hroot, storage, hcontent, hslots⟩ := h.content_root haccount
        obtain ⟨hcode, -⟩ := h.present haccount
        have hstorage := hmem account storage haccount hcontent
        have hcontent' : ((V.touch a).setSlot a k (unpadBytes value)).content
            (((V.touch a).setSlot a k (unpadBytes value)).root a account) = some storage := by
          change V.content (V.root a account) = _
          rw [hroot, hcontent]
        dsimp only
        rw [StateView.write, hcontent']
        dsimp only
        generalize hstorage' : Function.update storage k (unpadBytes value) = storage' at hstorage ⊢
        refine ((((((h.touch a).off a).setSlot k (unpadBytes value)).setNode hstorage).setRoot
          (H.storageRoot storage')).setAccount _).close ?_
        rw [StateView.holdsAt_setAccount, StateView.holdsAt_setRoot]
        refine ⟨hcode, ?_, storage', ?_, fun k' hk' => ?_⟩
        · rintro root ⟨⟩
          rfl
        · exact (StateView.content_setNode _ hstorage _).trans (if_pos rfl)
        · change storage' k' =
            ((((V.touch a).setSlot a k (unpadBytes value)).holdsAt a).slots k').getD []
          change (((V.touch a).setSlot a k (unpadBytes value)).holdsAt a).recorded k' ∨
            (((V.touch a).setSlot a k (unpadBytes value)).holdsAt a).slots k' ≠ none at hk'
          rw [StateView.holdsAt_setSlot] at hk' ⊢
          dsimp only at hk' ⊢
          rw [← hstorage', Function.update_apply]
          rw [Function.update_apply] at hk' ⊢
          split
          · rfl
          · next hne =>
            rw [if_neg hne, or_iff_right hne] at hk'
            exact hslots k' hk'

theorem clearStorage (h : Coherent H ∅ V) (a : Bytes20) : Coherent H ∅ (V.clearStorage a) := by
  refine (((h.off a).clearSlots.setRoot KECCAK256_RLP).setAccount _).close ?_
  rw [StateView.holdsAt_setAccount, StateView.holdsAt_setRoot, StateView.holdsAt_clearSlots]
  refine ⟨?_, ?_, .empty, if_pos rfl, fun k _ => rfl⟩
  · rcases haccount : V.account a with _ | account
    · obtain ⟨hnone, -⟩ := h.absent haccount
      rw [AddressView.HasCode]
      dsimp only
      rcases hcode : (V.holdsAt a).code with _ | elem
      · exact .inl rfl
      · dsimp only
        rw [hnone elem hcode]
        exact H.keccak256_nil
    · exact (h.present haccount).1
  · rintro root ⟨⟩
    rfl

end Coherent

/-! ## What is read -/

/-- The slots of the account of an address. -/
def StateView.value (V : StateView) (a : Bytes20) (k : SlotKey) : Bytes :=
  match V.account a with
  | none => []
  | some account => ((V.content account.storageRoot).getD .empty) k

theorem Coherent.getStorage_fst {H : TrieHashing} {V : StateView} (h : Coherent H ∅ V) (a : Bytes20)
    (k : SlotKey) :
    (V.getStorage a k).1 =
      if k.length ≠ 32 then .error .storageKeyLength else .ok (V.value a k) := by
  rw [StateView.getStorage, StateView.value]
  split
  · rfl
  · rcases haccount : V.account a with _ | account
    · obtain ⟨-, hempty⟩ := h.absent haccount
      rcases hslot : V.storage.slots a k with _ | value
      · rw [StateView.readStorage, haccount]
      · rw [hempty k value hslot]
    · obtain ⟨hroot, storage, hcontent, hslots⟩ := h.content_root haccount
      dsimp only
      rw [hcontent, Option.getD_some]
      rcases hslot : V.storage.slots a k with _ | value
      · rw [StateView.readStorage, haccount]
        dsimp only
        rw [hroot, hcontent]
      · rw [hslots k (.inr (by rw [hslot]; exact Option.some_ne_none _)), hslot, Option.getD_some]

theorem StateView.value_of_empty {V : StateView} {a : Bytes20} {account : Account}
    (haccount : V.account a = some account) (hroot : account.storageRoot = KECCAK256_RLP)
    (k : SlotKey) : V.value a k = [] := by
  rw [StateView.value, haccount]
  dsimp only
  rw [StateView.content, hroot, if_pos rfl]
  rfl

end TsEthereum
