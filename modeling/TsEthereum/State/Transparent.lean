import TsEthereum.State.Reverts

/-!
# The caches are transparent

A manager without caches has what a coherent view reads: the accounts in its trie, the
same tries in memory and storages in the database, and every code that is cached
(`Mirrors`). So both managers return the same from every call that fits
(`caches_transparent`). A storage trie stays in memory when its account is deleted,
and an account that is put there again with another root does not fit
(`not_caches_transparent`).
-/

namespace TsEthereum

namespace MerkleStateManager

/-- **A manager without caches mirrors a view.** -/
structure Mirrors (H : TrieHashing) (V : StateView) (u : MerkleStateManager) : Prop where
  caches : u._caches = none
  trie : u._trie.top = V.account
  tries : u._storageTries = V.tries
  content : ∀ root, u.content root = V.content root
  codeDB : ∀ hash code, V.codeDB hash = some code → u.codeDB.top hash = some code
  codes : ∀ a elem code, V.codes.elements a = some elem → elem.code = some code →
    u.codeDB.top (H.keccak256 code) = some code
  stored : ∀ hash code, u.codeDB.top hash = some code → code ∈ H.codes ∧ H.keccak256 code = hash
  memoised : ∀ a k, V.storage.recorded a k ∨ V.storage.slots a k ≠ none → V.tries a ≠ none

variable {H : TrieHashing} {V V' : StateView} {u : MerkleStateManager} {a : Bytes20} {k : SlotKey}

namespace Mirrors

/-! ## One update -/

theorem touch (h : Mirrors H V u) (a : Bytes20) : Mirrors H (V.touch a) u :=
  { h with trie := h.trie.trans (funext fun b => (V.account_touch a b).symm) }

theorem putAccount (h : Mirrors H V u) (a : Bytes20) (account : Option Account) :
    Mirrors H (V.setAccount a account) (u.putAccount a account) := by
  have hput : u.putAccount a account =
      { u with _trie := u._trie.modify fun trie => Function.update trie a account } := by
    rw [MerkleStateManager.putAccount, h.caches]
  rw [hput]
  refine { h with trie := ?_ }
  funext b
  rw [StateView.account_setAccount, ← congrFun h.trie b]
  exact Function.update_apply ..

theorem setCode (h : Mirrors H V u) (code : Option Bytes)
    (hcode : ∀ c, code = some c → u.codeDB.top (H.keccak256 c) = some c) :
    Mirrors H (V.setCode a code) u :=
  { h with
    codes := fun b elem c helem hc => by
      rw [StateView.setCode, CacheView.elements_put] at helem
      split at helem
      · rw [← Option.some.inj helem] at hc
        exact hcode c hc
      · exact h.codes b elem c helem hc }

theorem setSlot (h : Mirrors H V u) (htries : V.tries a ≠ none) (k : SlotKey) (value : Bytes) :
    Mirrors H (V.setSlot a k value) u :=
  { h with
    memoised := fun b k' hk' => by
      by_cases heq : b = a
      · rw [heq]
        exact htries
      · have hsame := V.holdsAt_setSlot_of_ne k heq value
        rw [show (V.setSlot a k value).storage.recorded b = V.storage.recorded b from
          congrArg AddressView.recorded hsame,
          show (V.setSlot a k value).storage.slots b = V.storage.slots b from
          congrArg AddressView.slots hsame] at hk'
        exact h.memoised b k' hk' }

theorem clearSlots (h : Mirrors H V u) : Mirrors H (V.clearSlots a) u :=
  { h with
    memoised := fun b k hk => by
      refine h.memoised b k (hk.imp_right fun hne => ?_)
      rw [StateView.clearSlots, SlotView.clear_slots] at hne
      split at hne
      · exact absurd rfl hne
      · exact hne }

theorem setRoot (h : Mirrors H V u) (root : Bytes32) :
    Mirrors H (V.setRoot a root)
      { u with _storageTries := Function.update u._storageTries a (some root) } :=
  { h with
    tries := by
      rw [StateView.setRoot, h.tries]
    memoised := fun b k hk => by
      change Function.update V.tries a (some root) b ≠ none
      rw [Function.update_apply]
      split
      · exact Option.some_ne_none _
      · exact h.memoised b k hk }

theorem setNode (h : Mirrors H V u) {storage : StorageMap} :
    Mirrors H (V.setNode H storage)
      { u with nodes := Function.update u.nodes (H.storageRoot storage) (some storage) } :=
  { h with
    content := fun root => by
      have hroot := h.content root
      rw [MerkleStateManager.content, StateView.content] at hroot ⊢
      split
      · rfl
      · next hne =>
        rw [if_neg hne, if_neg hne] at hroot
        rw [StateView.setNode]
        dsimp only
        rw [Function.update_apply, Function.update_apply, hroot] }

theorem putCodeDB (h : Mirrors H V u) {code : Bytes} (hmem : code ∈ H.codes) :
    Mirrors H V (u.putCodeDB H code) ∧
      (u.putCodeDB H code).codeDB.top (H.keccak256 code) = some code := by
  have hsame (hash : Bytes32) (code' : Bytes) (hstored : u.codeDB.top hash = some code') :
      (u.putCodeDB H code).codeDB.top hash = some code' := by
    obtain ⟨hmem', hhash⟩ := h.stored hash code' hstored
    change Function.update u.codeDB.top (H.keccak256 code) (some code) hash = some code'
    rw [Function.update_apply]
    split
    · next heq => rw [H.keccak256_injOn hmem hmem' (heq.symm.trans hhash.symm)]
    · exact hstored
  refine ⟨{ h with
    codeDB := fun hash code' hstored => hsame hash code' (h.codeDB hash code' hstored)
    codes := fun b elem c helem hc => hsame _ c (h.codes b elem c helem hc)
    stored := fun hash code' hstored => ?_ }, Function.update_self ..⟩
  change Function.update u.codeDB.top (H.keccak256 code) (some code) hash = some code' at hstored
  rw [Function.update_apply] at hstored
  split at hstored
  · next heq =>
    obtain rfl := Option.some.inj hstored
    exact ⟨hmem, heq.symm⟩
  · exact h.stored hash code' hstored

/-! ## The calls -/

theorem getAccount (h : Mirrors H V u) (a : Bytes20) : u.getAccount a = (V.account a, u) := by
  rw [MerkleStateManager.getAccount, h.caches, ← h.trie]

theorem modifyAccountFields (h : Mirrors H V u) (a : Bytes20) (codeHash : Bytes32) :
    Mirrors H (V.setCodeHash a codeHash) (u.modifyAccountFields a codeHash) := by
  rw [MerkleStateManager.modifyAccountFields, h.getAccount]
  exact h.putAccount a _

theorem setCodeHash (h : Mirrors H V u) (a : Bytes20) (codeHash : Bytes32) :
    Mirrors H (V.setCodeHash a codeHash) (u.setCodeHash a codeHash) := by
  rw [MerkleStateManager.setCodeHash, h.getAccount]
  dsimp only
  rcases haccount : V.account a with _ | account
  · have hnew := (h.putAccount a (some .new)).modifyAccountFields a codeHash
    rw [StateView.setCodeHash, StateView.account_setAccount, if_pos rfl,
      StateView.setAccount_setAccount] at hnew
    rw [StateView.setCodeHash, haccount]
    exact hnew
  · exact h.modifyAccountFields a codeHash

theorem putCode (h : Mirrors H V u) (a : Bytes20) {value : Bytes} (hmem : value ∈ H.codes) :
    Mirrors H (V.putCode H a value) (u.putCode H a value) := by
  obtain ⟨hput, hstored⟩ := h.putCodeDB hmem
  have hcode : Mirrors H (V.setCode a (some value)) (u.putCodeDB H value) := by
    refine hput.setCode _ ?_
    rintro c ⟨⟩
    exact hstored
  rw [MerkleStateManager.putCode, h.caches]
  exact hcode.setCodeHash a (H.keccak256 value)

theorem getCode (h : Mirrors H V u) (hV : Coherent H ∅ V) (a : Bytes20) :
    u.getCode a = ((V.getCode a).1, u) ∧ Mirrors H (V.getCode a).2 u := by
  rw [MerkleStateManager.getCode, h.caches]
  dsimp only
  rw [readCode, h.getAccount, StateView.getCode]
  rcases helem : V.codes.elements a with _ | elem
  · rw [StateView.readCode]
    rcases haccount : V.account a with _ | account
    · exact ⟨rfl, h.touch a⟩
    · dsimp only
      split
      · exact ⟨rfl, h.touch a⟩
      · next hcontract =>
        obtain ⟨hcode, -⟩ := hV.present haccount
        rw [AddressView.HasCode, show (V.holdsAt a).code = none from helem] at hcode
        have hne : account.codeHash ≠ KECCAK256_NULL := by
          intro heq
          rw [Account.isContract, heq] at hcontract
          exact hcontract rfl
        obtain ⟨code, hstored⟩ := Option.ne_none_iff_exists'.1 (hcode.resolve_left hne)
        obtain ⟨-, hhash⟩ := hV.stored _ _ hstored
        have hstored' := h.codeDB _ _ hstored
        rw [h.caches, hstored, hstored', Option.getD_some]
        refine ⟨rfl, (h.touch a).setCode _ ?_⟩
        rintro c ⟨⟩
        rw [hhash, hstored']
  · refine ⟨?_, h⟩
    rcases haccount : V.account a with _ | account
    · dsimp only
      rw [(hV.absent haccount).1 elem helem]
      rfl
    · obtain ⟨hcode, -⟩ := hV.present haccount
      rw [AddressView.HasCode, show (V.holdsAt a).code = some elem from helem] at hcode
      dsimp only at hcode ⊢
      rcases hmem : elem.code with _ | code
      · -- An account without a code has the hash of none.
        rw [hmem, Option.getD_none, H.keccak256_nil] at hcode
        rw [Account.isContract, ← hcode, if_pos (by simp)]
        rfl
      · rw [hmem, Option.getD_some] at hcode
        split
        · next hcontract =>
          have hnull : account.codeHash = KECCAK256_NULL := by
            simpa [Account.isContract] using hcontract
          have hnil : code = [] := by
            refine H.keccak256_injOn (hV.codes a elem code helem hmem) H.nil_mem ?_
            rw [hcode, hnull, H.keccak256_nil]
          rw [hnil]
          rfl
        · rw [h.caches, ← hcode, h.codes a elem code helem hmem]

theorem content_with_tries (u : MerkleStateManager) (tries : Bytes20 → Option Bytes32)
    (root : Bytes32) : { u with _storageTries := tries }.content root = u.content root := rfl

theorem getStorageTrie (h : Mirrors H V u) (a : Bytes20) (account : Account) :
    u._getStorageTrie a account = (V.root a account,
      { u with _storageTries := Function.update u._storageTries a (some (V.root a account)) }) := by
  rw [_getStorageTrie, StateView.root, ← h.tries]
  rcases htries : u._storageTries a with _ | root
  · rfl
  · have hsame : Function.update u._storageTries a (some root) = u._storageTries := by
      rw [← htries, Function.update_eq_self]
    rw [Option.getD_some, hsame]

theorem getStorage (h : Mirrors H V u) (hV : Coherent H ∅ V) (a : Bytes20) (k : SlotKey) :
    ∃ u', u.getStorage a k = ((V.getStorage a k).1, u') ∧ Mirrors H (V.getStorage a k).2 u' := by
  rw [hV.getStorage_fst, MerkleStateManager.getStorage, StateView.getStorage, StateView.value]
  split
  · exact ⟨u, rfl, h⟩
  · rw [h.caches]
    dsimp only
    rw [readStorage, h.getAccount]
    rcases haccount : V.account a with _ | account
    · refine ⟨u, rfl, ?_⟩
      rw [StateView.readStorage, haccount]
      split
      · exact h
      · exact h.touch a
    · obtain ⟨hroot, storage, hcontent, -⟩ := hV.content_root haccount
      dsimp only
      rw [h.getStorageTrie, hroot]
      have hcontent' : u.content account.storageRoot = some storage := (h.content _).trans hcontent
      have hroot' := h.setRoot (a := a) account.storageRoot
      dsimp only
      rw [content_with_tries, hcontent', hcontent, h.caches]
      refine ⟨_, rfl, ?_⟩
      rcases hslot : V.storage.slots a k with _ | value
      · rw [StateView.readStorage, haccount]
        dsimp only
        rw [hroot, hcontent]
        have htouch := (h.touch a).setRoot (a := a) account.storageRoot
        rw [h.caches] at htouch
        refine htouch.setSlot ?_ k (storage k)
        · change Function.update V.tries a (some account.storageRoot) a ≠ none
          rw [Function.update_self]
          exact Option.some_ne_none _
      · -- The trie of a slot that is cached is in memory.
        have htries := h.memoised a k (.inr (by rw [hslot]; exact Option.some_ne_none _))
        obtain ⟨root, hmemory⟩ := Option.ne_none_iff_exists'.1 htries
        have hsame : V.setRoot a account.storageRoot = V := by
          rw [StateView.root, hmemory, Option.getD_some] at hroot
          rw [StateView.setRoot, ← hroot, ← hmemory, Function.update_eq_self]
        rw [hsame, h.caches] at hroot'
        exact hroot'

theorem putStorage (h : Mirrors H V u) (hV : Coherent H ∅ V) (a : Bytes20) (k : SlotKey)
    (value : Bytes) :
    ∃ u', u.putStorage H a k value = ((V.putStorage H a k value).1, u') ∧
      Mirrors H (V.putStorage H a k value).2 u' := by
  rw [MerkleStateManager.putStorage, StateView.putStorage]
  split
  · exact ⟨u, rfl, h⟩
  · split
    · exact ⟨u, rfl, h⟩
    · rw [h.getAccount]
      rcases haccount : V.account a with _ | account
      · exact ⟨u, rfl, h.touch a⟩
      · obtain ⟨hroot, storage, hcontent, -⟩ := hV.content_root haccount
        have hcontent' : u.content account.storageRoot = some storage := (h.content _).trans hcontent
        dsimp only
        rw [h.caches]
        dsimp only
        rw [_writeContractStorage, h.getStorageTrie, hroot]
        dsimp only
        rw [content_with_tries, hcontent', StateView.write, show ((V.touch a).setSlot a k (unpadBytes value)).root a account =
          account.storageRoot from hroot,
          show ((V.touch a).setSlot a k (unpadBytes value)).content account.storageRoot =
            some storage from hcontent]
        dsimp only
        refine ⟨_, rfl, ?_⟩
        generalize Function.update storage k (unpadBytes value) = storage'
        rw [setStorageRoot]
        dsimp only
        rw [Function.update_idem]
        refine Mirrors.putAccount ?_ a _
        refine Mirrors.setSlot ((h.touch a).setNode.setRoot (H.storageRoot storage')) ?_ k
          (unpadBytes value)
        change Function.update V.tries a (some (H.storageRoot storage')) a ≠ none
        rw [Function.update_self]
        exact Option.some_ne_none _

theorem clearStorage (h : Mirrors H V u) (a : Bytes20) :
    Mirrors H (V.clearStorage a) (u.clearStorage a) := by
  rw [MerkleStateManager.clearStorage, h.getAccount]
  dsimp only
  rw [h.caches]
  dsimp only
  rw [h.getStorageTrie]
  dsimp only
  rw [setStorageRoot]
  dsimp only
  rw [Function.update_idem]
  exact Mirrors.putAccount (h.clearSlots.setRoot KECCAK256_RLP) a _

theorem call (h : Mirrors H V u) (hV : Coherent H ∅ V) {w : StateCall} (hw : w ≠ .getStateRoot)
    (hfits : w.Fits H V.holdsAt V.content V.codeDB) :
    ∃ u', u.call H w = ((V.call H w).1, u') ∧ Mirrors H (V.call H w).2 u' := by
  rcases w with a | ⟨a, account⟩ | a | a | ⟨a, value⟩ | ⟨a, k⟩ | ⟨a, k, value⟩ | a | _
  · refine ⟨u, ?_, h.touch a⟩
    rw [MerkleStateManager.call, h.getAccount]
    rfl
  · exact ⟨_, rfl, h.putAccount a account⟩
  · refine ⟨_, rfl, ?_⟩
    have hdelete : u.deleteAccount a = u.putAccount a none := by
      rw [MerkleStateManager.deleteAccount, MerkleStateManager.putAccount, h.caches]
    rw [hdelete]
    have hnone : ∀ c : Bytes, (none : Option Bytes) = some c → u.codeDB.top (H.keccak256 c) = some c := by
      intro c hc
      cases hc
    exact ((h.setCode none hnone).putAccount a none).clearSlots
  · obtain ⟨hget, h'⟩ := h.getCode hV a
    refine ⟨u, ?_, h'⟩
    rw [MerkleStateManager.call, hget]
    rfl
  · exact ⟨_, rfl, h.putCode a hfits.1⟩
  · obtain ⟨u', hget, h'⟩ := h.getStorage hV a k
    refine ⟨u', ?_, h'⟩
    rw [MerkleStateManager.call, hget]
    rfl
  · obtain ⟨u', hput, h'⟩ := h.putStorage hV a k value
    refine ⟨u', ?_, h'⟩
    rw [MerkleStateManager.call, hput]
    rfl
  · exact ⟨_, rfl, h.clearStorage a⟩
  · exact absurd rfl hw

theorem settles (h : Mirrors H V u)
    (hsettles : V.Settles H (fun a => ∃ k, V.storage.recorded a k) V') : Mirrors H V' u := by
  have htries : V'.tries = V.tries := by
    funext a
    rcases hsettles.tries a with heq | ⟨hnone, k, hk⟩
    · exact heq
    · exact absurd hnone (h.memoised a k (.inl hk))
  exact {
    caches := h.caches
    trie := h.trie.trans (funext fun a => (hsettles.account a).symm)
    tries := h.tries.trans htries.symm
    content := fun root => (h.content root).trans (hsettles.content root).symm
    codeDB := fun hash code hcode => by
      rcases hsettles.codeDB_of hash code hcode with hstored | ⟨a, elem, helem, hmem, heq⟩
      · exact h.codeDB hash code hstored
      · rw [heq]
        exact h.codes a elem code helem hmem
    codes := fun a elem code helem => h.codes a elem code (hsettles.codes ▸ helem)
    stored := h.stored
    memoised := fun a k hk => by
      rw [htries]
      refine h.memoised a k (hk.imp (hsettles.recorded a k) fun hne => ?_)
      rwa [hsettles.slots] at hne }

end Mirrors

/-! ## Every run -/

variable {m : MerkleStateManager}

/-- What some calls return. -/
def results (H : TrieHashing) (m : MerkleStateManager) :
    List StateCall → List (Except StateError StateResult)
  | [] => []
  | w :: ws => (m.call H w).1 :: results H (m.call H w).2 ws

/-- What they leave. -/
def after (H : TrieHashing) (m : MerkleStateManager) (ws : List StateCall) : MerkleStateManager :=
  ws.foldl (fun m w => (m.call H w).2) m

/-- Each call fits where it is made. -/
def AllFit (H : TrieHashing) (m : MerkleStateManager) : List StateCall → Prop
  | [] => True
  | w :: ws => m.Fits H w ∧ AllFit H (m.call H w).2 ws

theorem results_append (ws ws' : List StateCall) (m : MerkleStateManager) :
    results H m (ws ++ ws') = results H m ws ++ results H (after H m ws) ws' := by
  induction ws generalizing m with
  | nil => rfl
  | cons w ws ih => exact congrArg _ (ih _)

theorem AllFit.of_append {ws ws' : List StateCall} (h : AllFit H m (ws ++ ws')) :
    AllFit H m ws ∧ AllFit H (after H m ws) ws' := by
  induction ws generalizing m with
  | nil => exact ⟨trivial, h⟩
  | cons w ws ih =>
    obtain ⟨hw, hrest⟩ := h
    obtain ⟨hfirst, hsecond⟩ := ih hrest
    exact ⟨⟨hw, hfirst⟩, hsecond⟩

/-- **The two managers go on alike**: one stands for a coherent view, the other
mirrors it. -/
def Alike (H : TrieHashing) (m u : MerkleStateManager) : Prop :=
  ∃ V, Stands m V [] ∧ Coherent H ∅ V ∧ Mirrors H V u

theorem Alike.call (h : Alike H m u) {w : StateCall} (hfits : m.Fits H w) :
    (m.call H w).1 = (u.call H w).1 ∧ Alike H (m.call H w).2 (u.call H w).2 := by
  obtain ⟨V, h, hV, hmirrors⟩ := h
  by_cases hw : w = .getStateRoot
  · subst hw
    obtain ⟨m', V', hflush, h', hV', hsettles, htrie⟩ := h.flush hV
    have hm : m.call H .getStateRoot = (.ok (.root (H.stateRoot V.account)), m') := by
      obtain ⟨c, hc, rfl⟩ := h'
      rw [MerkleStateManager.call, getStateRoot, hflush, ← htrie]
      rfl
    have hu : u.call H .getStateRoot = (.ok (.root (H.stateRoot V.account)), u) := by
      have hnothing : u.flush H = (.ok (), u) :=
        flush_of_recordsNothing fun c hc => by
          rw [hmirrors.caches] at hc
          cases hc
      rw [MerkleStateManager.call, getStateRoot, hnothing, ← hmirrors.trie]
      rfl
    rw [hm, hu]
    exact ⟨rfl, V', h', hV', hmirrors.settles hsettles⟩
  · have hfits' := (h.fits w).1 hfits
    obtain ⟨m', hm, h'⟩ := h.call (H := H) hw fun a _ => h.mayClear a
    obtain ⟨u', hu, hmirrors'⟩ := hmirrors.call hV hw hfits'
    rw [hm, hu]
    exact ⟨rfl, _, h', hV.call hfits', hmirrors'⟩

theorem Alike.run (h : Alike H m u) {ws : List StateCall} (hfits : AllFit H m ws) :
    results H m ws = results H u ws ∧ Alike H (after H m ws) (after H u ws) := by
  induction ws generalizing m u with
  | nil => exact ⟨rfl, h⟩
  | cons w ws ih =>
    obtain ⟨hw, hrest⟩ := hfits
    obtain ⟨hsame, h'⟩ := h.call hw
    obtain ⟨hresults, hafter⟩ := ih h' hrest
    refine ⟨?_, hafter⟩
    rw [results, results, hsame, hresults]

theorem alike_manager (D : StateDatabase H) : Alike H (D.manager (some .new)) (D.manager none) := by
  refine ⟨D.view, D.stands, D.coherent, ?_⟩
  exact {
    caches := rfl
    trie := rfl
    tries := rfl
    content := fun _ => rfl
    codeDB := fun _ _ => id
    codes := nofun
    stored := D.stored
    memoised := fun a k hk => by
      rcases hk with hk | hk
      · exact hk.elim
      · exact absurd rfl hk }

theorem getStorage_of_put (h : Alike H m u) {account : Account}
    (hfits : m.Fits H (.putAccount a (some account))) (hroot : account.storageRoot = KECCAK256_RLP)
    (hk : k.length = 32) : ((m.putAccount a (some account)).getStorage a k).1 = .ok [] := by
  obtain ⟨V, h, hV, -⟩ := h
  have hfits' := (h.fits _).1 hfits
  have hV' : Coherent H ∅ (V.setAccount a (some account)) := hV.putAccount hfits'
  obtain ⟨m', hget, -⟩ := (h.putAccount a (some account)).getStorage a k
  have haccount : (V.setAccount a (some account)).account a = some account := by
    rw [StateView.account_setAccount, if_pos rfl]
  rw [hget, hV'.getStorage_fst, if_neg (by simp [hk]), StateView.value_of_empty haccount hroot]

/-- **The caches are transparent**: a manager with caches and one without, over the same
database, return the same from every read and from `getStateRoot`, in every run in
which what is put fits what the manager with caches has; and an account that is
deleted, and put again with no storage, has empty slots. -/
theorem caches_transparent (H : TrieHashing) (D : StateDatabase H) (calls : List StateCall)
    (hfits : AllFit H (D.manager (some .new)) calls) :
    results H (D.manager (some .new)) calls = results H (D.manager none) calls ∧
      ∀ pre address account key, calls = pre ++ [.deleteAccount address,
        .putAccount address (some account), .getStorage address key] →
        account.storageRoot = KECCAK256_RLP → key.length = 32 →
          (results H (D.manager (some .new)) calls).getLast? = some (.ok (.bytes [])) := by
  refine ⟨((alike_manager D).run hfits).1, ?_⟩
  rintro pre address account key rfl hroot hkey
  obtain ⟨hpre, hdelete, hput, -⟩ := hfits.of_append
  obtain ⟨-, halike⟩ := (alike_manager D).run hpre
  obtain ⟨-, halike'⟩ := halike.call hdelete
  have hget := getStorage_of_put (k := key) halike' hput hroot hkey
  rw [results_append, List.getLast?_append]
  rw [results, results, results, results, List.getLast?_cons_cons, List.getLast?_cons_cons,
    List.getLast?_singleton, Option.some_or]
  exact congrArg some (congrArg (Except.map StateResult.bytes) hget)

/-- A slot is put, then the account deleted and put again. -/
def recreatedCalls : List StateCall :=
  [.putAccount (repeated 1) (some .new), .putStorage (repeated 1) firstSlot [5],
    .deleteAccount (repeated 1), .putAccount (repeated 1) (some .new),
    .getStorage (repeated 1) firstSlot]

/-- The storage is cleared before. -/
def clearedCalls : List StateCall :=
  [.getStateRoot, .putAccount (repeated 1) (some .new), .putStorage (repeated 1) firstSlot [5],
    .clearStorage (repeated 1), .deleteAccount (repeated 1), .putAccount (repeated 1) (some .new),
    .getStorage (repeated 1) firstSlot]

theorem allFit_cons (h : Stands m V []) {w : StateCall} {ws : List StateCall} (hw : w ≠ .getStateRoot)
    (hfits : w.Fits H V.holdsAt V.content V.codeDB)
    (hrest : ∀ m', Stands m' (V.call H w).2 [] → AllFit H m' ws) : AllFit H m (w :: ws) := by
  obtain ⟨m', hcall, h'⟩ := h.call (H := H) hw fun a _ => h.mayClear a
  refine ⟨(h.fits w).2 hfits, ?_⟩
  rw [hcall]
  exact hrest m' h'

/-- An account is put again once its storage is cleared, and reads as empty. -/
theorem caches_transparent_cleared :
    (results smallHashing ((StateDatabase.empty smallHashing).manager (some .new))
      clearedCalls).getLast? = some (.ok (.bytes [])) := by
  refine (caches_transparent smallHashing (.empty smallHashing) clearedCalls ?_).2
    [.getStateRoot, .putAccount (repeated 1) (some .new), .putStorage (repeated 1) firstSlot [5],
      .clearStorage (repeated 1)] (repeated 1) .new firstSlot rfl rfl rfl
  have hroot : (((StateDatabase.empty smallHashing).manager (some .new)).call smallHashing
      .getStateRoot).2 = (StateDatabase.empty smallHashing).manager (some .new) := rfl
  refine ⟨trivial, ?_⟩
  rw [hroot]
  refine allFit_cons (StateDatabase.empty smallHashing).stands nofun ?_ fun m₁ h₁ => ?_
  · refine ⟨.inl rfl, nofun, .empty, rfl, fun k hk => ?_⟩
    rcases hk with hk | hk
    · exact hk.elim
    · exact absurd rfl hk
  refine allFit_cons h₁ nofun ?_ fun m₂ h₂ => ?_
  · intro account storage haccount hstorage
    dsimp only [StateView.call, StateView.holdsAt] at haccount
    rw [StateView.account_setAccount, if_pos rfl] at haccount
    obtain rfl := Option.some.inj haccount
    obtain rfl := Option.some.inj hstorage
    exact .inr rfl
  refine allFit_cons h₂ nofun trivial fun m₃ h₃ => ?_
  refine allFit_cons h₃ nofun trivial fun m₄ h₄ => ?_
  refine allFit_cons h₄ nofun ?_ fun m₅ h₅ => ⟨trivial, trivial⟩
  refine ⟨rfl, ?_, .empty, rfl, fun k _ => rfl⟩
  rintro root hmemory
  exact (Option.some.inj hmemory).symm

/-- **The storage of an account that is deleted and put again is not empty**: its trie is
still in memory. -/
theorem not_caches_transparent :
    ¬ ∀ (H : TrieHashing) (D : StateDatabase H) (calls : List StateCall),
      results H (D.manager (some .new)) calls = results H (D.manager none) calls ∧
        ∀ pre address account key, calls = pre ++ [.deleteAccount address,
          .putAccount address (some account), .getStorage address key] →
          account.storageRoot = KECCAK256_RLP → key.length = 32 →
            (results H (D.manager (some .new)) calls).getLast? = some (.ok (.bytes [])) := by
  intro h
  obtain ⟨hsame, hempty⟩ := h smallHashing (.empty smallHashing) recreatedCalls
  have hread := hempty [.putAccount (repeated 1) (some .new), .putStorage (repeated 1) firstSlot [5]]
    (repeated 1) .new firstSlot rfl rfl rfl
  rw [hsame] at hread
  have hfive : (results smallHashing ((StateDatabase.empty smallHashing).manager none)
      recreatedCalls).getLast? = some (.ok (.bytes [5])) := rfl
  rw [hfive] at hread
  cases hread

end MerkleStateManager

end TsEthereum
