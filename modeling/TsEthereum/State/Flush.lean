import TsEthereum.State.Coherence

/-!
# Flushing coherent caches

A flush writes the codes, the slots and the accounts of the caches, in this order,
and puts each account it writes below. Where the caches are coherent all it writes
is there, or is what is read: nothing that is read changes, and the trie has every
account (`Stands.flush`).
-/

namespace TsEthereum

namespace StateView

/-- **One view settles another**: what is read of it is the same, codes of the cache
are in the database, and tries of some addresses in memory. -/
structure Settles (H : TrieHashing) (P : Bytes20 → Prop) (V V' : StateView) : Prop where
  account : ∀ a, V'.account a = V.account a
  codes : V'.codes.elements = V.codes.elements
  slots : V'.storage.slots = V.storage.slots
  recorded : ∀ a k, V'.storage.recorded a k → V.storage.recorded a k
  content : ∀ root, V'.content root = V.content root
  codeDB : ∀ hash code, V.codeDB hash = some code → V'.codeDB hash = some code
  codeDB_of : ∀ hash code, V'.codeDB hash = some code → V.codeDB hash = some code ∨
    ∃ a elem, V.codes.elements a = some elem ∧ elem.code = some code ∧ hash = H.keccak256 code
  tries : ∀ a, V'.tries a = V.tries a ∨ V.tries a = none ∧ P a

variable {H : TrieHashing} {P : Bytes20 → Prop} {V V' V'' : StateView} {a : Bytes20}

theorem Settles.refl : V.Settles H P V where
  account _ := rfl
  codes := rfl
  slots := rfl
  recorded _ _ := id
  content _ := rfl
  codeDB _ _ := id
  codeDB_of _ _ := .inl
  tries _ := .inl rfl

theorem Settles.trans (h : V.Settles H P V') (h' : V'.Settles H P V'') : V.Settles H P V'' where
  account a := (h'.account a).trans (h.account a)
  codes := h'.codes.trans h.codes
  slots := h'.slots.trans h.slots
  recorded a k hk := h.recorded a k (h'.recorded a k hk)
  content root := (h'.content root).trans (h.content root)
  codeDB hash code hcode := h'.codeDB hash code (h.codeDB hash code hcode)
  codeDB_of hash code hcode := by
    rcases h'.codeDB_of hash code hcode with hmem | hmem
    · exact h.codeDB_of hash code hmem
    · rw [h.codes] at hmem
      exact .inr hmem
  tries a := by
    rcases h'.tries a with heq | ⟨hnone, hP⟩
    · rw [heq]
      exact h.tries a
    · rcases h.tries a with heq | hfresh
      · exact .inr ⟨heq ▸ hnone, hP⟩
      · exact .inr hfresh

theorem Settles.setAccount {account : Option Account} (haccount : V.account a = account) :
    V.Settles H P (V.setAccount a account) :=
  { (refl : V.Settles H P V) with
    account := fun b => by
      rw [account_setAccount]
      split
      · next heq => rw [heq, haccount]
      · rfl }

theorem Settles.touch (a : Bytes20) : V.Settles H P (V.touch a) :=
  { (refl : V.Settles H P V) with account := fun b => V.account_touch a b }

theorem Settles.setCodeDB (h : Coherent H ∅ V) {elem : CodeCacheElement} {code : Bytes}
    (helem : V.codes.elements a = some elem) (hcode : elem.code = some code) :
    V.Settles H P (V.setCodeDB H code) := by
  have hmem := h.codes a elem code helem hcode
  refine { (refl : V.Settles H P V) with
    codeDB := fun hash code' hstored => ?_, codeDB_of := fun hash code' hstored => ?_ }
  · rw [StateView.setCodeDB]
    dsimp only
    rw [Function.update_apply]
    split
    · next heq =>
      obtain ⟨hmem', hhash'⟩ := h.stored hash code' hstored
      rw [H.keccak256_injOn hmem hmem' (heq.symm.trans hhash'.symm)]
    · exact hstored
  · rw [StateView.setCodeDB] at hstored
    dsimp only at hstored
    rw [Function.update_apply] at hstored
    split at hstored
    · next heq =>
      obtain rfl := Option.some.inj hstored
      exact .inr ⟨a, elem, helem, hcode, heq⟩
    · exact .inl hstored

theorem Settles.setNode {storage : StorageMap} (hmem : storage ∈ H.storages)
    (hcontent : V.content (H.storageRoot storage) = some storage) :
    V.Settles H P (V.setNode H storage) :=
  { (refl : V.Settles H P V) with
    content := fun root => by
      rw [V.content_setNode hmem]
      split
      · next heq => rw [heq, hcontent]
      · rfl }

theorem Settles.setRoot {root : Bytes32} (hP : P a)
    (hroot : ∀ root', V.tries a = some root' → root' = root) : V.Settles H P (V.setRoot a root) :=
  { (refl : V.Settles H P V) with
    tries := fun b => by
      by_cases heq : b = a
      · subst heq
        rcases htries : V.tries b with _ | root'
        · exact .inr ⟨rfl, hP⟩
        · refine .inl ?_
          change Function.update V.tries b (some root) b = some root'
          rw [Function.update_self, hroot root' htries]
      · exact .inl (Function.update_of_ne heq ..) }

end StateView

namespace Coherent

variable {H : TrieHashing} {P : Bytes20 → Prop} {V : StateView} {a : Bytes20} {k : SlotKey}
variable {account : Account}

theorem putSame (h : Coherent H ∅ V) (haccount : V.account a = some account) :
    Coherent H ∅ (V.setAccount a (some account)) := by
  refine h.putAccount ?_
  rw [← haccount]
  exact h.soundAt a

theorem settleCode (h : Coherent H ∅ V) {elem : CodeCacheElement} {code : Bytes}
    (helem : V.codes.elements a = some elem) (hcode : elem.code = some code) :
    Coherent H ∅ ((V.setCodeDB H code).setCodeHash a (H.keccak256 code)) ∧
      V.Settles H P ((V.setCodeDB H code).setCodeHash a (H.keccak256 code)) := by
  have hmem := h.codes a elem code helem hcode
  rcases haccount : V.account a with _ | account
  · obtain ⟨hnone, -⟩ := h.absent haccount
    rw [hnone elem helem] at hcode
    cases hcode
  · obtain ⟨hhash, -⟩ := h.present haccount
    rw [AddressView.HasCode, show (V.holdsAt a).code = some elem from helem] at hhash
    dsimp only at hhash
    rw [hcode, Option.getD_some] at hhash
    -- The account has the hash of the code that is written.
    have hsame : (V.setCodeDB H code).setCodeHash a (H.keccak256 code) =
        (V.setCodeDB H code).setAccount a (some account) := by
      rw [StateView.setCodeHash, show (V.setCodeDB H code).account a = some account from haccount,
        hhash]
      rfl
    rw [hsame]
    exact ⟨(h.setCodeDB hmem).putSame haccount,
      (StateView.Settles.setCodeDB h helem hcode).trans (.setAccount haccount)⟩

theorem settleSlot (h : Coherent H ∅ V) (hP : P a) (haccount : V.account a = some account)
    {storage : StorageMap} (hcontent : V.content account.storageRoot = some storage) :
    (V.write H a k account (storage k)).1 = .ok () ∧
      Coherent H ∅ (V.write H a k account (storage k)).2 ∧
        V.Settles H P (V.write H a k account (storage k)).2 := by
  obtain ⟨hroot, -⟩ := h.content_root haccount
  obtain ⟨hmem, hstorage⟩ := h.contents _ _ hcontent
  obtain ⟨hcode, hroot', hslots⟩ := h.present haccount
  rw [StateView.write, hroot, hcontent]
  dsimp only
  rw [Function.update_eq_self, hstorage]
  refine ⟨rfl, ?_, ?_⟩
  · refine ((((h.setNode hmem).off a).setRoot account.storageRoot).setAccount _).close ?_
    rw [StateView.holdsAt_setAccount, StateView.holdsAt_setRoot]
    refine ⟨hcode, ?_, ?_⟩
    · rintro root ⟨⟩
      rfl
    · obtain ⟨storage', hcontent', hslots⟩ := hslots
      exact ⟨storage', h.content_setNode_of_some hmem hcontent', hslots⟩
  · have hnode : V.Settles H P (V.setNode H storage) :=
      .setNode hmem (by rw [hstorage, hcontent])
    have htrie : V.Settles H P ((V.setNode H storage).setRoot a account.storageRoot) :=
      hnode.trans (.setRoot hP hroot')
    exact htrie.trans (.setAccount haccount)

end Coherent

namespace MerkleStateManager

variable {H : TrieHashing} {P : Bytes20 → Prop} {m : MerkleStateManager} {V : StateView}

/-! ## The codes -/

theorem Stands.flushCode (h : Stands m V []) (hV : Coherent H ∅ V) {item : Bytes20 × CodeCacheElement}
    (hitem : V.codes.elements item.1 = some item.2) :
    ∃ V', Stands (m.flushCode H item) V' [] ∧ Coherent H ∅ V' ∧ V.Settles H P V' := by
  rw [MerkleStateManager.flushCode]
  rcases hcode : item.2.code with _ | code
  · exact ⟨V, h, hV, .refl⟩
  · obtain ⟨hcoherent, hsettles⟩ := hV.settleCode (P := P) hitem hcode
    obtain ⟨c, hc, rfl⟩ := h
    have hDB : Stands ((V.manager [] c).putCodeDB H code) (V.setCodeDB H code) [] := ⟨c, hc, rfl⟩
    exact ⟨_, hDB.setCodeHash item.1 (H.keccak256 code), hcoherent, hsettles⟩

theorem Stands.foldl_flushCode {items : List (Bytes20 × CodeCacheElement)} (h : Stands m V [])
    (hV : Coherent H ∅ V) (hitems : ∀ item ∈ items, V.codes.elements item.1 = some item.2) :
    ∃ V', Stands (items.foldl (MerkleStateManager.flushCode H) m) V' [] ∧ Coherent H ∅ V' ∧
      V.Settles H P V' := by
  induction items generalizing m V with
  | nil => exact ⟨V, h, hV, .refl⟩
  | cons item items ih =>
    obtain ⟨V₁, h₁, hV₁, hsettles₁⟩ := h.flushCode (P := P) hV (hitems item List.mem_cons_self)
    obtain ⟨V₂, h₂, hV₂, hsettles₂⟩ := ih h₁ hV₁ fun item' hmem => by
      rw [hsettles₁.codes]
      exact hitems item' (List.mem_cons_of_mem _ hmem)
    exact ⟨V₂, h₂, hV₂, hsettles₁.trans hsettles₂⟩

theorem Stands.flushCodes (h : Stands m V []) (hV : Coherent H ∅ V) :
    ∃ V', Stands (m.flushCodes H) V' [] ∧ Coherent H ∅ V' ∧ V.Settles H P V' := by
  obtain ⟨c, ⟨haccount, hcode, hstorage⟩, rfl⟩ := h
  have hflushed := Cache.Stands.flush hcode
  have h₀ : Stands { V.manager [] c with _caches := some { c with code := (Cache.flush c.code).2 } }
      { V with codes := { V.codes with written := ∅ } } [] :=
    ⟨{ c with code := (Cache.flush c.code).2 }, ⟨haccount, hflushed, hstorage⟩, rfl⟩
  have hV₀ : Coherent H ∅ { V with codes := { V.codes with written := ∅ } } := { hV with }
  have hsettles₀ : V.Settles H P { V with codes := { V.codes with written := ∅ } } :=
    { (StateView.Settles.refl : V.Settles H P V) with }
  have hitems : ∀ item ∈ (Cache.flush c.code).1, V.codes.elements item.1 = some item.2 :=
    fun item hmem => ((Cache.Stands.mem_flush hcode item.1 item.2).1 hmem).2
  obtain ⟨V', h', hV', hsettles⟩ := h₀.foldl_flushCode (P := P) hV₀ hitems
  exact ⟨V', h', hV', hsettles₀.trans hsettles⟩

/-! ## The slots -/

/-- Slots are as in the storage of their account, and of some addresses. -/
def SlotsFit (P : Bytes20 → Prop) (V : StateView) (items : List (Bytes20 × SlotKey × Option Bytes)) :
    Prop :=
  ∀ item ∈ items, P item.1 ∧ ∀ account, V.account item.1 = some account →
    ∃ storage, V.content account.storageRoot = some storage ∧ storage item.2.1 = item.2.2.getD []

theorem Stands.flushSlot (h : Stands m V []) (hV : Coherent H ∅ V)
    {item : Bytes20 × SlotKey × Option Bytes} (hfit : SlotsFit P V [item]) :
    ∃ m' V', m.flushSlot H item = (.ok (), m') ∧ Stands m' V' [] ∧ Coherent H ∅ V' ∧
      V.Settles H P V' := by
  obtain ⟨hP, hstorage⟩ := hfit item List.mem_cons_self
  obtain ⟨m₁, hget, h₁⟩ := h.getAccount item.1
  rw [MerkleStateManager.flushSlot, hget]
  have hV₁ := hV.touch item.1
  have hsettles₁ : V.Settles H P (V.touch item.1) := .touch item.1
  rcases haccount : V.account item.1 with _ | account
  · exact ⟨m₁, _, rfl, h₁, hV₁, hsettles₁⟩
  · obtain ⟨storage, hcontent, hslot⟩ := hstorage account haccount
    obtain ⟨m₂, hwrite, h₂⟩ := h₁.writeContractStorage (H := H) item.1 account item.2.1
      (item.2.2.getD [])
    rw [← StateView.account_touch V item.1] at haccount
    obtain ⟨hok, hV₂, hsettles₂⟩ := hV₁.settleSlot (k := item.2.1) hP haccount hcontent
    rw [hslot] at hok hV₂ hsettles₂
    refine ⟨m₂, _, ?_, h₂, hV₂, hsettles₁.trans hsettles₂⟩
    rw [← hok]
    exact hwrite

theorem Stands.flushSlots {items : List (Bytes20 × SlotKey × Option Bytes)} (h : Stands m V [])
    (hV : Coherent H ∅ V) (hfit : SlotsFit P V items) :
    ∃ m' V', flushSlots H m items = (.ok (), m') ∧ Stands m' V' [] ∧ Coherent H ∅ V' ∧
      V.Settles H P V' := by
  induction items generalizing m V with
  | nil => exact ⟨m, V, rfl, h, hV, .refl⟩
  | cons item items ih =>
    obtain ⟨m₁, V₁, hflush₁, h₁, hV₁, hsettles₁⟩ := h.flushSlot hV fun item' hmem =>
      hfit item' (List.mem_cons.2 (.inl (List.mem_singleton.1 hmem)))
    have hfit₁ : SlotsFit P V₁ items := by
      intro item' hmem
      obtain ⟨hP, hstorage⟩ := hfit item' (List.mem_cons_of_mem _ hmem)
      refine ⟨hP, fun account haccount => ?_⟩
      rw [hsettles₁.account] at haccount
      obtain ⟨storage, hcontent, hslot⟩ := hstorage account haccount
      exact ⟨storage, (hsettles₁.content _).trans hcontent, hslot⟩
    obtain ⟨m₂, V₂, hflush₂, h₂, hV₂, hsettles₂⟩ := ih h₁ hV₁ hfit₁
    refine ⟨m₂, V₂, ?_, h₂, hV₂, hsettles₁.trans hsettles₂⟩
    rw [MerkleStateManager.flushSlots, hflush₁]
    exact hflush₂

theorem Stands.flushStorage (h : Stands m V []) (hV : Coherent H ∅ V)
    (hP : ∀ a k, V.storage.recorded a k → P a) :
    ∃ m' V', m.flushStorage H = (.ok (), m') ∧ Stands m' V' [] ∧ Coherent H ∅ V' ∧
      V.Settles H P V' := by
  obtain ⟨c, ⟨haccount, hcode, hstorage⟩, rfl⟩ := h
  obtain ⟨items, cache, hflush, hflushed, hitems⟩ := hstorage.flush
  have h₀ : Stands { V.manager [] c with _caches := some { c with storage := cache } }
      { V with storage := ⟨V.storage.slots, fun _ _ => False⟩ } [] :=
    ⟨{ c with storage := cache }, ⟨haccount, hcode, hflushed⟩, rfl⟩
  have hV₀ : Coherent H ∅ { V with storage := ⟨V.storage.slots, fun _ _ => False⟩ } := by
    refine { hV with sound := fun a _ => ?_ }
    exact (hV.soundAt a).drop rfl rfl (fun _ => False.elim) (fun _ => .inl rfl) fun _ => id
  have hsettles₀ : V.Settles H P { V with storage := ⟨V.storage.slots, fun _ _ => False⟩ } :=
    { (StateView.Settles.refl : V.Settles H P V) with recorded := fun _ _ => False.elim }
  have hfit : SlotsFit P { V with storage := ⟨V.storage.slots, fun _ _ => False⟩ } items := by
    intro item hmem
    obtain ⟨hrecorded, hvalue⟩ := hitems item hmem
    refine ⟨hP _ _ hrecorded, fun account haccount => ?_⟩
    obtain ⟨-, storage, hcontent, hslots⟩ := hV.content_root haccount
    refine ⟨storage, hcontent, ?_⟩
    rw [hvalue]
    exact hslots _ (.inl hrecorded)
  obtain ⟨m', V', hslots, h', hV', hsettles⟩ := h₀.flushSlots hV₀ hfit
  refine ⟨m', V', ?_, h', hV', hsettles₀.trans hsettles⟩
  rw [MerkleStateManager.flushStorage]
  dsimp only [StateView.manager]
  rw [hflush]
  exact hslots

/-! ## The accounts -/

theorem foldl_flushAccount (items : List (Bytes20 × AccountCacheElement)) (m : MerkleStateManager) :
    items.foldl flushAccount m =
      { m with
        _trie := m._trie.modify fun trie =>
          items.foldl (fun trie item => Function.update trie item.1 item.2.account) trie } := by
  induction items generalizing m with
  | nil => rfl
  | cons item items ih =>
    rw [List.foldl_cons, ih]
    rfl

theorem foldl_update {items : List (Bytes20 × AccountCacheElement)} (trie : Bytes20 → Option Account)
    (a : Bytes20) :
    (∃ elem, (a, elem) ∈ items ∧
      items.foldl (fun trie item => Function.update trie item.1 item.2.account) trie a = elem.account) ∨
    (∀ elem, (a, elem) ∉ items) ∧
      items.foldl (fun trie item => Function.update trie item.1 item.2.account) trie a = trie a := by
  induction items generalizing trie with
  | nil => exact .inr ⟨fun _ => List.not_mem_nil, rfl⟩
  | cons item items ih =>
    rw [List.foldl_cons]
    rcases ih (Function.update trie item.1 item.2.account) with ⟨elem, hmem, heq⟩ | ⟨hnone, heq⟩
    · exact .inl ⟨elem, List.mem_cons_of_mem _ hmem, heq⟩
    · rw [heq, Function.update_apply]
      by_cases ha : a = item.1
      · subst ha
        exact .inl ⟨item.2, List.mem_cons_self, if_pos rfl⟩
      · refine .inr ⟨fun elem hmem => ?_, if_neg ha⟩
        rcases List.mem_cons.1 hmem with rfl | hmem
        · exact ha rfl
        · exact hnone elem hmem

theorem Stands.flushAccounts (h : Stands m V []) (hV : Coherent H ∅ V) :
    ∃ V', Stands m.flushAccounts V' [] ∧ Coherent H ∅ V' ∧ V.Settles H P V' ∧ V'.trie = V.account := by
  obtain ⟨c, ⟨haccount, hcode, hstorage⟩, rfl⟩ := h
  have hmem := Cache.Stands.mem_flush haccount
  have htrie : (Cache.flush c.account).1.foldl
      (fun trie item => Function.update trie item.1 item.2.account) V.trie = V.account := by
    funext a
    rw [StateView.account]
    rcases foldl_update V.trie a with ⟨elem, hitem, heq⟩ | ⟨hnone, heq⟩
    · rw [heq, ((hmem a elem).1 hitem).2]
    · rw [heq]
      rcases helem : V.accounts.elements a with _ | elem
      · rfl
      · -- What is not written is as in the trie.
        have hunwritten : a ∉ V.accounts.written := fun hwritten =>
          hnone elem ((hmem a elem).2 ⟨hwritten, helem⟩)
        exact (hV.unwritten a elem hunwritten helem).symm
  have haccount' (a : Bytes20) : StateView.account
      { V with accounts := ⟨V.accounts.elements, ∅⟩, trie := V.account } a = V.account a := by
    rw [StateView.account]
    dsimp only
    rcases helem : V.accounts.elements a with _ | elem
    · rfl
    · rw [StateView.account, helem]
  refine ⟨{ V with accounts := ⟨V.accounts.elements, ∅⟩, trie := V.account }, ?_, ?_, ?_, rfl⟩
  · refine ⟨{ c with account := (Cache.flush c.account).2 },
      ⟨Cache.Stands.flush haccount, hcode, hstorage⟩, ?_⟩
    rw [MerkleStateManager.flushAccounts]
    dsimp only [StateView.manager]
    rw [foldl_flushAccount, MapStack.modify]
    dsimp only
    rw [htrie]
  · refine { hV with unwritten := fun a elem _ helem => ?_, sound := fun a _ => ?_ }
    · dsimp only at helem ⊢
      rw [StateView.account, helem]
    · exact (hV.soundAt a).drop (haccount' a) rfl (fun _ => id) (fun _ => .inl rfl) fun _ => id
  · exact { (StateView.Settles.refl : V.Settles H P V) with account := haccount' }

/-! ## Flushing -/

/-- **A flush changes nothing that is read**, where no checkpoint is open, and the trie
then has every account. -/
theorem Stands.flush (h : Stands m V []) (hV : Coherent H ∅ V) :
    ∃ m' V', m.flush H = (.ok (), m') ∧ Stands m' V' [] ∧ Coherent H ∅ V' ∧
      V.Settles H (fun a => ∃ k, V.storage.recorded a k) V' ∧ V'.trie = V.account := by
  obtain ⟨V₁, h₁, hV₁, hsettles₁⟩ :=
    h.flushCodes (P := fun a => ∃ k, V.storage.recorded a k) hV
  obtain ⟨m₂, V₂, hflush, h₂, hV₂, hsettles₂⟩ :=
    h₁.flushStorage (P := fun a => ∃ k, V.storage.recorded a k) hV₁
      fun a k hk => ⟨k, hsettles₁.recorded a k hk⟩
  obtain ⟨V₃, h₃, hV₃, hsettles₃, htrie⟩ :=
    h₂.flushAccounts (P := fun a => ∃ k, V.storage.recorded a k) hV₂
  have hsettles := (hsettles₁.trans hsettles₂).trans hsettles₃
  refine ⟨m₂.flushAccounts, V₃, ?_, h₃, hV₃, hsettles, ?_⟩
  · rw [MerkleStateManager.flush, hflush]
  · rw [htrie]
    funext a
    rw [← (hsettles₁.trans hsettles₂).account a]

/-- Nothing was written since the last checkpoint. -/
def RecordsNothing (m : MerkleStateManager) : Prop :=
  ∀ c, m._caches = some c → c.account._diffCache.head? = some ∅ ∧
    c.code._diffCache.head? = some ∅ ∧ c.storage._diffCache.head? = some ∅

theorem flush_of_head {κ ν : Type} [DecidableEq κ] {c : Cache (LruCache.orderedMap κ ν)}
    (h : c._diffCache.head? = some ∅) : c.flush = ([], c) := by
  obtain ⟨store, diffs⟩ := c
  dsimp only at h
  obtain ⟨lower, rfl⟩ := List.head?_eq_some_iff.1 h
  rfl

theorem flush_of_recordsNothing (h : m.RecordsNothing) : m.flush H = (.ok (), m) := by
  obtain ⟨caches, trie, tries, nodes, codeDB, count⟩ := m
  rcases caches with _ | ⟨account, code, storage⟩
  · rfl
  · obtain ⟨haccount, hcode, hstorage⟩ := h _ rfl
    dsimp only at haccount hcode hstorage
    have hstorage' : storage.flush = .ok ([], storage) := by
      obtain ⟨store, diffs⟩ := storage
      dsimp only at hstorage
      obtain ⟨lower, rfl⟩ := List.head?_eq_some_iff.1 hstorage
      rfl
    rw [MerkleStateManager.flush, MerkleStateManager.flushCodes]
    dsimp only
    rw [flush_of_head hcode]
    dsimp only [List.foldl_nil]
    rw [MerkleStateManager.flushStorage]
    dsimp only
    rw [hstorage']
    dsimp only [MerkleStateManager.flushSlots]
    rw [MerkleStateManager.flushAccounts]
    dsimp only
    rw [flush_of_head haccount]
    rfl

end MerkleStateManager

end TsEthereum
