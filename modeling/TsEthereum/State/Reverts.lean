import TsEthereum.State.Calls

/-!
# Reverts of the state manager

A revert takes back the caches, the trie and the codes, and drops the storage tries
in memory; what is read is then what was read at the checkpoint, in every run in
which what is brought in fits and no undo log is lost (`revert_restores_reads`). An
undo log is lost where a flush resets it above a checkpoint, as `getStateRoot` does
(`not_revert_restores_flushed`).
-/

namespace TsEthereum

/-- **What is read** of a state manager. -/
structure StateReads where
  account : Bytes20 → Option Account
  code : Bytes20 → Bytes
  storage : Bytes20 → SlotKey → Except StateError Bytes

namespace StateView

variable {H : TrieHashing} {V V' : StateView}

/-- What is read of a view. -/
def reads (V : StateView) : StateReads :=
  ⟨V.account, fun a => (V.getCode a).1, fun a k => (V.getStorage a k).1⟩

/-- **Coherent views with the same accounts and codes read alike**, where what one has
in the databases the other has. -/
theorem reads_eq (hV : Coherent H ∅ V) (hV' : Coherent H ∅ V') (haccount : ∀ a, V'.account a = V.account a)
    (hcodes : V'.codes.elements = V.codes.elements)
    (hcontent : ∀ root storage, V.content root = some storage → V'.content root = some storage)
    (hcodeDB : ∀ hash code, V.codeDB hash = some code → V'.codeDB hash = some code) :
    V'.reads = V.reads := by
  have hcode (a : Bytes20) : (V'.getCode a).1 = (V.getCode a).1 := by
    rw [getCode, getCode, hcodes]
    rcases helem : V.codes.elements a with _ | elem
    · rw [readCode, readCode, haccount]
      rcases hpresent : V.account a with _ | account
      · rfl
      · dsimp only
        split
        · rfl
        · next hcontract =>
          obtain ⟨hhas, -⟩ := hV.present hpresent
          rw [AddressView.HasCode, show (V.holdsAt a).code = none from helem] at hhas
          have hne : account.codeHash ≠ KECCAK256_NULL := by
            intro heq
            rw [Account.isContract, heq] at hcontract
            exact hcontract rfl
          obtain ⟨code, hstored⟩ := Option.ne_none_iff_exists'.1 (hhas.resolve_left hne)
          rw [hstored, hcodeDB _ _ hstored]
    · rfl
  have hstorage (a : Bytes20) (k : SlotKey) : (V'.getStorage a k).1 = (V.getStorage a k).1 := by
    rw [hV.getStorage_fst, hV'.getStorage_fst, value, value, haccount]
    rcases hpresent : V.account a with _ | account
    · rfl
    · obtain ⟨-, storage, hfound, -⟩ := hV.content_root hpresent
      dsimp only
      rw [hfound, hcontent _ _ hfound]
  rw [reads, reads, funext haccount, funext hcode, funext fun a => funext (hstorage a)]

end StateView

namespace MerkleStateManager

variable {H : TrieHashing} {m : MerkleStateManager} {V v : StateView} {saved : List StateView}

/-- What is read of a manager. -/
def reads (m : MerkleStateManager) : StateReads :=
  ⟨fun a => (m.getAccount a).1, fun a => (m.getCode a).1, fun a k => (m.getStorage a k).1⟩

theorem Stands.reads (h : Stands m V saved) : m.reads = V.reads := by
  have haccount (a : Bytes20) : (m.getAccount a).1 = V.account a := by
    obtain ⟨m', hget, -⟩ := h.getAccount a
    rw [hget]
  have hcode (a : Bytes20) : (m.getCode a).1 = (V.getCode a).1 := by
    obtain ⟨m', hget, -⟩ := h.getCode a
    rw [hget]
  have hstorage (a : Bytes20) (k : SlotKey) : (m.getStorage a k).1 = (V.getStorage a k).1 := by
    obtain ⟨m', hget, -⟩ := h.getStorage a k
    rw [hget]
  rw [MerkleStateManager.reads, StateView.reads, funext haccount, funext hcode,
    funext fun a => funext (hstorage a)]

/-! ## What is tracked -/

/-- **No undo log is lost**: what a call brings in fits; an account is deleted, or its
storage cleared, where its slots that an earlier diff has are in the last one, or no
checkpoint is open; and the state root is computed where no checkpoint is open, or
nothing was written since the last one. -/
def Undoable (H : TrieHashing) (m : MerkleStateManager) : SnapshotOp StateCall → Prop
  | .write w => m.Fits H w ∧ (∀ a, w.clears = some a → m.MayClear a) ∧
    (w = .getStateRoot → m._checkpointCount = 0 ∨ m.RecordsNothing)
  | _ => True

/-- **A manager tracks what is read** at its checkpoints: it stands for a coherent view,
and for coherent ones that were saved, over the same trie and codes. -/
def Tracks (H : TrieHashing) (m : MerkleStateManager) (observed : List StateReads) : Prop :=
  ∃ V saved, Stands m V saved ∧ Coherent H ∅ V ∧ (∀ v ∈ saved, Coherent H ∅ v ∧ v.Extends V) ∧
    observed = saved.map StateView.reads

theorem Stands.flush_reads (h : Stands m V []) (hV : Coherent H ∅ V) :
    ∃ m', m.flush H = (.ok (), m') ∧ Tracks H m' [] ∧ m'.reads = V.reads := by
  obtain ⟨m', V', hflush, h', hV', hsettles, -⟩ := h.flush hV
  refine ⟨m', hflush, ⟨V', [], h', hV', fun v hv => absurd hv List.not_mem_nil, rfl⟩, ?_⟩
  rw [h'.reads]
  exact StateView.reads_eq hV hV' hsettles.account hsettles.codes
    (fun root storage hroot => (hsettles.content root).trans hroot) hsettles.codeDB

theorem tracks_call {observed : List StateReads} {w : StateCall} (h : Tracks H m observed)
    (hundo : m.Undoable H (.write w)) : Tracks H (m.call H w).2 observed := by
  obtain ⟨V, saved, h, hV, hsaved, rfl⟩ := h
  obtain ⟨hfits, hclear, hroot⟩ := hundo
  by_cases hw : w = .getStateRoot
  · subst hw
    have hcall : (m.call H .getStateRoot).2 = (m.flush H).2 := by
      rw [call, returns, getStateRoot]
      rcases m.flush H with ⟨_ | _, m'⟩
      · rfl
      · rfl
    rw [hcall]
    rcases hroot rfl with hground | hnothing
    · have hnil : saved = [] := by
        obtain ⟨c, hc, rfl⟩ := h
        exact List.eq_nil_of_length_eq_zero hground
      subst hnil
      obtain ⟨m', hflush, htracks, -⟩ := h.flush_reads hV
      rw [hflush]
      exact htracks
    · rw [flush_of_recordsNothing hnothing]
      exact ⟨V, saved, h, hV, hsaved, rfl⟩
  · have hfits' := (h.fits w).1 hfits
    obtain ⟨m', hcall, h'⟩ := h.call (H := H) hw hclear
    rw [hcall]
    refine ⟨_, saved, h', hV.call hfits', fun v hv => ?_, rfl⟩
    obtain ⟨hv, hextends⟩ := hsaved v hv
    exact ⟨hv, hextends.trans (StateView.extends_call hV hfits')⟩

theorem Stands.checkpoint (h : Stands m V saved) : Stands m.checkpoint V (V :: saved) := by
  obtain ⟨c, ⟨haccount, hcode, hstorage⟩, rfl⟩ := h
  exact ⟨c.checkpoint, ⟨haccount.checkpoint, hcode.checkpoint, hstorage.checkpoint⟩, rfl⟩

theorem Stands.settle (m : MerkleStateManager) (count : ℕ)
    (h : Stands { m with _checkpointCount := count - 1 } V saved)
    (hV : Coherent H ∅ V) (hsaved : ∀ v ∈ saved, Coherent H ∅ v ∧ v.Extends V) :
    Tracks H ({ m with _checkpointCount := count }.settle H).2 (saved.map StateView.reads) ∧
      ({ m with _checkpointCount := count }.settle H).2.reads = V.reads := by
  rw [MerkleStateManager.settle]
  dsimp only
  split
  · next hground =>
    have hnil : saved = [] := by
      obtain ⟨c, hc, heq⟩ := h
      have hcount : count - 1 = saved.length := congrArg _checkpointCount heq
      exact List.eq_nil_of_length_eq_zero (hcount.symm.trans hground)
    subst hnil
    obtain ⟨m', hflush, htracks, hreads⟩ := h.flush_reads hV
    rw [hflush]
    exact ⟨htracks, hreads⟩
  · exact ⟨⟨V, saved, h, hV, hsaved, rfl⟩, h.reads⟩

theorem Stands.commit (h : Stands m V (v :: saved)) (hV : Coherent H ∅ V)
    (hsaved : ∀ v' ∈ v :: saved, Coherent H ∅ v' ∧ v'.Extends V) :
    Tracks H (m.commit H).2 (saved.map StateView.reads) := by
  obtain ⟨c, ⟨haccount, hcode, hstorage⟩, rfl⟩ := h
  have h' : Stands (V.manager saved c.commit) V saved :=
    ⟨c.commit, ⟨haccount.commit (List.cons_ne_nil _ _), hcode.commit (List.cons_ne_nil _ _),
      hstorage.commit⟩, rfl⟩
  exact (Stands.settle (V.manager saved c.commit) (saved.length + 1) h' hV
    (List.forall_mem_cons.1 hsaved).2).1

theorem Stands.revert (h : Stands m V (v :: saved)) (hV : Coherent H ∅ V)
    (hsaved : ∀ v' ∈ v :: saved, Coherent H ∅ v' ∧ v'.Extends V) :
    Tracks H (m.revert H).2 (saved.map StateView.reads) ∧ (m.revert H).2.reads = v.reads := by
  obtain ⟨c, ⟨haccount, hcode, hstorage⟩, rfl⟩ := h
  obtain ⟨slots, hdrops, hkeeps⟩ := hstorage.revert
  obtain ⟨hv, hextends⟩ := hsaved v List.mem_cons_self
  -- The caches are as they were, but for slots that were not written.
  let V' : StateView := { v with storage := slots, tries := fun _ => none, nodes := V.nodes }
  have hcontent : ∀ root storage, v.content root = some storage → V'.content root = some storage :=
    hextends.content
  have h' : Stands (V'.manager saved c.revert) V' saved :=
    ⟨c.revert, ⟨haccount.revert (List.cons_ne_nil _ _), hcode.revert (List.cons_ne_nil _ _), hkeeps⟩,
      rfl⟩
  have hV' : Coherent H ∅ V' :=
    { hv with
      contents := hV.contents
      sound := fun a _ => by
        have hsound := (hv.soundAt a).mono hcontent fun _ => id
        exact hsound.drop rfl rfl (fun k => (congrFun (congrFun hdrops.1 a) k).mp)
          (fun k => (hdrops.2 a k).imp_right (And.imp_right fun hnot hk =>
            hnot ((congrFun (congrFun hdrops.1 a) k).mp hk))) nofun }
  have hsaved' : ∀ v' ∈ saved, Coherent H ∅ v' ∧ v'.Extends V' := by
    intro v' hv'
    obtain ⟨hcoherent, hextends'⟩ := hsaved v' (List.mem_cons_of_mem _ hv')
    exact ⟨hcoherent, hextends.trie.symm.trans hextends'.trie,
      hextends.codeDB.symm.trans hextends'.codeDB, hextends'.content⟩
  obtain ⟨htracks, hreads⟩ := Stands.settle (V'.manager saved c.revert) (saved.length + 1) h' hV'
    hsaved'
  refine ⟨htracks, hreads.trans ?_⟩
  exact StateView.reads_eq hv hV' (fun _ => rfl) rfl hcontent fun _ _ => id

/-! ## Every run -/

theorem restoresObserved (H : TrieHashing) :
    RestoresObserved (step H) MerkleStateManager.reads (Tracks H) (Undoable H) where
  onWrite _ _ _ h hundo := tracks_call h hundo
  onCheckpoint := by
    rintro m _ ⟨V, saved, h, hV, hsaved, rfl⟩
    refine ⟨V, V :: saved, h.checkpoint, hV, fun v hv => ?_, ?_⟩
    · rcases List.mem_cons.1 hv with rfl | hv
      · exact ⟨hV, .refl⟩
      · exact hsaved v hv
    · rw [h.reads, List.map_cons]
  onCommit := by
    rintro m _ observed ⟨V, saved, h, hV, hsaved, heq⟩
    rcases saved with _ | ⟨v, saved⟩
    · cases heq
    · obtain ⟨-, rfl⟩ := List.cons.inj heq
      exact h.commit hV hsaved
  onRevert := by
    rintro m _ observed ⟨V, saved, h, hV, hsaved, heq⟩
    rcases saved with _ | ⟨v, saved⟩
    · cases heq
    · obtain ⟨rfl, rfl⟩ := List.cons.inj heq
      exact h.revert hV hsaved

theorem tracks_manager {H : TrieHashing} (D : StateDatabase H) : Tracks H (D.manager (some .new)) [] :=
  ⟨D.view, [], D.stands, D.coherent, fun _ hv => absurd hv List.not_mem_nil, rfl⟩

/-- **A revert restores what is read** of a state manager with caches: every account,
code and slot is what it was at the matching checkpoint, whatever is put, deleted,
cleared, committed or reverted in between, in every run in which what is put fits and
no undo log is lost. -/
theorem revert_restores_reads (H : TrieHashing) (D : StateDatabase H)
    (pre body : List (SnapshotOp StateCall)) (hpre : Nested pre) (hbody : Matched body)
    (hfine : AllFine (step H) (Undoable H) (D.manager (some .new)) (pre ++ reverted body)) :
    let before := pre.foldl (step H) (D.manager (some .new))
    let after := (pre ++ reverted body).foldl (step H) (D.manager (some .new))
    ∀ address, (after.getAccount address).1 = (before.getAccount address).1 ∧
      (after.getCode address).1 = (before.getCode address).1 ∧
        ∀ key, (after.getStorage address key).1 = (before.getStorage address key).1 := by
  intro before after address
  have hreads : after.reads = before.reads :=
    (restoresObserved H).observe_reverted (tracks_manager D) hpre hbody hfine
  refine ⟨?_, ?_, fun key => ?_⟩
  · exact congrFun (congrArg StateReads.account hreads) address
  · exact congrFun (congrArg StateReads.code hreads) address
  · exact congrFun (congrFun (congrArg StateReads.storage hreads) address) key

/-- An account is put, and the state root computed. -/
def flushedCalls : List (SnapshotOp StateCall) :=
  [.write (.putAccount (repeated 1) (some .new)), .write .getStateRoot]

/-- A new account is deleted above a checkpoint, and comes back. -/
theorem revert_restores_reads_deleted :
    let m := (StateDatabase.empty smallHashing).manager (some .new)
    let body := [.write (.deleteAccount (repeated 1)), .checkpoint, .write (.getCode (repeated 1)),
      .commit]
    (((flushedCalls ++ reverted body).foldl (step smallHashing) m).getAccount (repeated 1)).1 =
      ((flushedCalls.foldl (step smallHashing) m).getAccount (repeated 1)).1 := by
  intro m body
  refine (revert_restores_reads smallHashing (.empty smallHashing) flushedCalls body ⟨0, rfl⟩ rfl ?_
    (repeated 1)).1
  have hput : (StateDatabase.empty smallHashing).manager (some .new) |>.Fits smallHashing
      (.putAccount (repeated 1) (some .new)) := by
    rw [(StateDatabase.empty smallHashing).stands.fits]
    refine ⟨.inl rfl, nofun, .empty, rfl, fun k hk => ?_⟩
    rcases hk with hk | hk
    · exact hk.elim
    · exact absurd rfl hk
  refine allFine_cons.2 ⟨⟨hput, nofun, nofun⟩, allFine_cons.2 ⟨⟨trivial, nofun, fun _ => .inl rfl⟩, ?_⟩⟩
  refine allFine_cons.2 ⟨trivial, allFine_cons.2 ⟨⟨trivial, ?_, nofun⟩, ?_⟩⟩
  · intro a _ c hc
    have hdiffs : c.storage._diffCache = [∅, ∅] := by
      rw [← Option.some.inj hc]
      rfl
    refine .inr fun k hk => ?_
    obtain ⟨diffMap, hmem, hk⟩ := hk
    rw [hdiffs] at hmem
    have hempty : diffMap = ∅ := by simpa using hmem
    rw [hempty, StorageDiff.of_empty] at hk
    exact absurd hk (AList.notMem_empty k)
  · refine allFine_cons.2 ⟨trivial, allFine_cons.2 ⟨⟨trivial, nofun, nofun⟩, ?_⟩⟩
    exact allFine_cons.2 ⟨trivial, allFine_cons.2 ⟨trivial, allFine_nil⟩⟩

theorem getAccount_of_cached {a : Bytes20} {elem : AccountCacheElement}
    (h : (m._caches.bind fun c => (Cache.get c.account a).1) = some elem) :
    (m.getAccount a).1 = elem.account := by
  obtain ⟨c, hc, hget⟩ := Option.bind_eq_some_iff.1 h
  rw [getAccount, hc]
  dsimp only
  rcases hcache : Cache.get c.account a with ⟨elem', cache⟩
  rw [hcache] at hget
  dsimp only at hget
  rw [hget]

set_option maxRecDepth 2000 in
/-- **What is flushed above a checkpoint is not reverted**: an account that is put there,
before the state root is computed, is read once the checkpoint is reverted. -/
theorem not_revert_restores_flushed :
    ¬ ∀ (H : TrieHashing) (D : StateDatabase H) (pre body : List (SnapshotOp StateCall)), Nested pre →
      Matched body →
        let before := pre.foldl (step H) (D.manager (some .new))
        let after := (pre ++ reverted body).foldl (step H) (D.manager (some .new))
        ∀ address, (after.getAccount address).1 = (before.getAccount address).1 ∧
          (after.getCode address).1 = (before.getCode address).1 ∧
            ∀ key, (after.getStorage address key).1 = (before.getStorage address key).1 := by
  intro h
  have hrestored := (h smallHashing (.empty smallHashing) [] flushedCalls ⟨0, rfl⟩ rfl (repeated 1)).1
  have hcached : (((reverted flushedCalls).foldl (step smallHashing)
      ((StateDatabase.empty smallHashing).manager (some .new)))._caches.bind fun c =>
        (Cache.get c.account (repeated 1)).1) = some (.of (some .new)) := rfl
  rw [List.nil_append, getAccount_of_cached hcached, StateView.account_of] at hrestored
  cases hrestored

end MerkleStateManager

end TsEthereum
