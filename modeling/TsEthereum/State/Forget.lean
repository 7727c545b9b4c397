import TsEthereum.State.Cache

/-!
# What an LRU cache forgets

An element of an LRU cache gives way when `size` others were written after it
(`mem_flush_lru_iff`). `CacheOpts` documents it: no more accounts than `size`
should be modified between two flushes, otherwise the cache forgets the old
modifications.
-/

namespace TsEthereum

/-- The key and the value that a call writes, a deleted one with `undefined`. -/
def CacheCall.written {κ α : Type} : CacheCall κ α → Option (κ × Option α)
  | .put address value => some (address, value)
  | .del address => some (address, none)
  | .get _ => none
  | .flush => none

namespace Cache

variable {κ ν α : Type} [DecidableEq κ] {C : LruCache κ ν} {c : Cache C}
variable {diffMap : DiffMap κ ν} {diffs : List (DiffMap κ ν)}

/-! ## What any call keeps -/

theorem step_store {P : C.State → Prop} (hget : ∀ s k, P s → P (C.get s k).2)
    (hset : ∀ s k v, P s → P (C.set s k v)) (hdelete : ∀ s k, P s → P (C.delete s k))
    (element : Option α → ν) (h : P c.store) (op : SnapshotOp (CacheCall κ α)) :
    P (c.step element op).store := by
  have hsave (k : κ) : P (c._saveCachePreState k).store := by
    unfold _saveCachePreState
    split
    · exact h
    · split
      · exact h
      · exact hget _ _ h
  have hcollect (keys : List κ) (store : C.State) (hstore : P store) :
      P (collect (C := C) keys store).2 := by
    induction keys generalizing store with
    | nil => exact hstore
    | cons k keys ih => exact ih _ (hget _ _ hstore)
  have hrestore (l : List (Σ _ : κ, Option ν)) (store : C.State) (hstore : P store) :
      P (l.foldl restore store) := by
    induction l generalizing store with
    | nil => exact hstore
    | cons entry l ih =>
      obtain ⟨k, _ | elem⟩ := entry
      · exact ih _ (hdelete _ _ hstore)
      · exact ih _ (hset _ _ _ hstore)
  rcases op with (⟨k, value⟩ | k | k | _) | _ | _ | _
  · exact hset _ _ _ (hsave k)
  · exact hset _ _ _ (hsave k)
  · exact hget _ _ h
  · change P c.flush.2.store
    unfold flush
    split
    · exact h
    · exact hcollect _ _ h
  · exact h
  · change P c.commit.store
    unfold commit
    split
    · exact h
    · exact h
  · change P c.revert.store
    unfold revert
    split
    · exact h
    · exact hrestore _ _ h

theorem length_saveCachePreState (c : Cache C) (k : κ) :
    (c._saveCachePreState k)._diffCache.length = c._diffCache.length := by
  unfold _saveCachePreState
  split
  · rfl
  · next h =>
    split
    · rfl
    · rw [h, List.length_cons, List.length_cons]

theorem length_diffCache (element : Option α → ν) :
    FollowsSnapshots (fun (s : Unit) (_ : CacheCall κ α) => s) (Cache.step (C := C) element)
      (fun c s => c._diffCache.length = s.saved.length + 1) fun _ _ => True where
  onWrite := by
    rintro c s (⟨k, value⟩ | k | k | _) h -
    · exact (length_saveCachePreState c k).trans h
    · exact (length_saveCachePreState c k).trans h
    · exact h
    · change c.flush.2._diffCache.length = s.saved.length + 1
      unfold flush
      split
      · exact h
      · next hdiffs =>
        rw [hdiffs] at h
        exact h
  onCheckpoint := by
    rintro c s h -
    exact congrArg Nat.succ h
  onCommit := by
    rintro c ⟨s, _ | ⟨t, saved⟩⟩ h - hne
    · exact absurd rfl hne
    · change c.commit._diffCache.length = saved.length + 1
      change c._diffCache.length = saved.length + 1 + 1 at h
      unfold commit
      split
      · next hdiffs =>
        rw [hdiffs] at h
        exact Nat.succ.inj h
      · next hnot =>
        rcases hdiffs : c._diffCache with _ | ⟨diffMap, _ | ⟨lower, diffs⟩⟩
        · rw [hdiffs] at h
          cases h
        · rw [hdiffs] at h
          cases h
        · exact absurd hdiffs (hnot _ _ _)
  onRevert := by
    rintro c ⟨s, _ | ⟨t, saved⟩⟩ h - hne
    · exact absurd rfl hne
    · change c.revert._diffCache.length = saved.length + 1
      change c._diffCache.length = saved.length + 1 + 1 at h
      unfold revert
      split
      · next hdiffs =>
        rw [hdiffs] at h
        cases h
      · next hdiffs =>
        rw [hdiffs] at h
        exact Nat.succ.inj h

theorem diffCache_flush {ops : List (SnapshotOp (CacheCall κ α))} (hmatched : Matched ops)
    (element : Option α → ν) :
    (ops.foldl (step element) (new : Cache C)).flush.2._diffCache = [∅] := by
  have hlength := (length_diffCache element).foldl (c := (new : Cache C))
    (s := (⟨(), []⟩ : Snapshots Unit)) rfl hmatched fun _ _ _ => trivial
  have hsaved := Snapshots.length_saved (fun (s : Unit) (_ : CacheCall κ α) => s) ⟨(), []⟩ hmatched
  rw [hsaved] at hlength
  unfold flush
  split
  · next hdiffs =>
    rw [hdiffs] at hlength
    cases hlength
  · next hdiffs =>
    rw [hdiffs] at hlength
    dsimp only
    rw [List.eq_nil_of_length_eq_zero (Nat.succ.inj hlength)]

/-! ## What is written and flushed -/

/-- Reading an element before it is set makes no difference. -/
def SetAfterGet (C : LruCache κ ν) : Prop :=
  ∀ s k v, C.set (C.get s k).2 k v = C.set s k v

theorem put_spec (hC : SetAfterGet C) (hdiffs : c._diffCache = diffMap :: diffs) (k : κ) (elem : ν) :
    (c.put k elem).store = C.set c.store k elem ∧
      ∃ diffMap', (c.put k elem)._diffCache = diffMap' :: diffs ∧
        ∀ k', k' ∈ diffMap' ↔ k' = k ∨ k' ∈ diffMap := by
  unfold put _saveCachePreState
  rw [hdiffs]
  dsimp only
  split
  · next hmem =>
    refine ⟨rfl, diffMap, hdiffs, fun k' => ⟨.inr, ?_⟩⟩
    rintro (rfl | hk')
    · exact hmem
    · exact hk'
  · exact ⟨hC _ _ _, _, rfl, fun k' => AList.mem_insert _⟩

theorem foldl_call (hC : SetAfterGet C) (element : Option α → ν) {calls : List (CacheCall κ α)}
    (hcalls : ∀ w ∈ calls, w.written.isSome) (hdiffs : c._diffCache = diffMap :: diffs) :
    (calls.foldl (call element) c).store =
        ((calls.filterMap CacheCall.written).map fun w => (w.1, element w.2)).foldl
          (fun s e => C.set s e.1 e.2) c.store ∧
      ∃ diffMap', (calls.foldl (call element) c)._diffCache = diffMap' :: diffs ∧
        ∀ k, k ∈ diffMap' ↔ k ∈ (calls.filterMap CacheCall.written).map Prod.fst ∨ k ∈ diffMap := by
  induction calls generalizing c diffMap with
  | nil => exact ⟨rfl, diffMap, hdiffs, fun k => by simp⟩
  | cons w calls ih =>
    have hrest : ∀ w ∈ calls, w.written.isSome := (List.forall_mem_cons.1 hcalls).2
    obtain ⟨⟨k, value⟩, hw⟩ := Option.isSome_iff_exists.1 (hcalls w List.mem_cons_self)
    have hcall : call element c w = c.put k (element value) := by
      rcases w with ⟨k', value'⟩ | k' | k' | _
      · cases hw
        rfl
      · cases hw
        rfl
      · cases hw
      · cases hw
    obtain ⟨hstore, diffMap', hdiffs', hmem⟩ := put_spec hC hdiffs k (element value)
    rw [List.filterMap_cons, hw, List.foldl_cons, hcall]
    dsimp only
    obtain ⟨hstore', diffMap'', hdiffs'', hmem'⟩ := ih hrest hdiffs'
    refine ⟨?_, diffMap'', hdiffs'', fun k' => ?_⟩
    · rw [hstore', hstore]
      rfl
    · rw [hmem', hmem, List.map_cons, List.mem_cons, or_left_comm, or_assoc]

theorem mem_foldl_update {writes : List (κ × Option α)} (element : Option α → ν)
    {store : (LruCache.orderedMap κ ν).State} {pre post : List (κ × Option α)} {k : κ}
    {value : Option α} (hwrites : writes = pre ++ (k, value) :: post) (hk : k ∉ post.map Prod.fst) :
    (LruCache.orderedMap κ ν).holds ((writes.map fun w => (w.1, element w.2)).foldl
      (fun s e => (LruCache.orderedMap κ ν).set s e.1 e.2) store) k = some (element value) := by
  subst hwrites
  rw [List.map_append, List.map_cons, List.foldl_append, List.foldl_cons]
  generalize List.foldl _ store _ = store
  have hset : (LruCache.orderedMap κ ν).holds
      ((LruCache.orderedMap κ ν).set store k (element value)) k = some (element value) :=
    Function.update_self ..
  generalize (LruCache.orderedMap κ ν).set store k (element value) = store at hset ⊢
  induction post generalizing store with
  | nil => exact hset
  | cons w post ih =>
    rw [List.map_cons, List.mem_cons, not_or] at hk
    exact ih hk.2 _ ((Function.update_of_ne hk.1 ..).trans hset)

theorem exists_last_write {writes : List (κ × Option α)} {k : κ}
    (h : k ∈ writes.map Prod.fst) :
    ∃ pre value post, writes = pre ++ (k, value) :: post ∧ k ∉ post.map Prod.fst := by
  induction writes with
  | nil => cases h
  | cons w writes ih =>
    by_cases hrest : k ∈ writes.map Prod.fst
    · obtain ⟨pre, value, post, rfl, hpost⟩ := ih hrest
      exact ⟨w :: pre, value, post, rfl, hpost⟩
    · rw [List.map_cons, List.mem_cons] at h
      obtain ⟨k', value⟩ := w
      obtain rfl : k = k' := h.resolve_right hrest
      exact ⟨[], value, writes, rfl, hrest⟩

section

variable (element : Option α → ν) (past : List (SnapshotOp (CacheCall κ α)))
variable (calls : List (CacheCall κ α))

/-- The items of a flush after some calls, made after a flush. -/
def flushed (C : LruCache κ ν) : List (κ × ν) :=
  (calls.foldl (call element) (past.foldl (step element) (new : Cache C)).flush.2).flush.1

variable {past calls}

theorem mem_flushed (hC : SetAfterGet C) (hpast : Matched past)
    (hcalls : ∀ w ∈ calls, w.written.isSome) (k : κ) (elem : ν) :
    (k, elem) ∈ flushed element past calls C ↔
      k ∈ (calls.filterMap CacheCall.written).map Prod.fst ∧
        C.holds (((calls.filterMap CacheCall.written).map fun w => (w.1, element w.2)).foldl
          (fun s e => C.set s e.1 e.2)
          (past.foldl (step element) (new : Cache C)).flush.2.store) k = some elem := by
  obtain ⟨hstore, diffMap, hdiffs, hmem⟩ := foldl_call hC element hcalls
    (diffCache_flush (C := C) hpast element)
  rw [flushed, mem_flush hdiffs, hstore, hmem, or_iff_left (AList.notMem_empty k)]

end

theorem fits_store (size : ℕ) (element : Option α → ν) (past : List (SnapshotOp (CacheCall κ α))) :
    LruCache.Fits size
      (past.foldl (step element) (new : Cache (LruCache.lru κ ν size))).flush.2.store := by
  have hstep (c : Cache (LruCache.lru κ ν size)) (op : SnapshotOp (CacheCall κ α))
      (h : LruCache.Fits size c.store) : LruCache.Fits size (c.step element op).store := by
    refine step_store (C := LruCache.lru κ ν size) (P := LruCache.Fits size) (fun s k hs => ?_) (fun s k v hs => ?_)
      (fun s k hs => LruCache.fits_eraseKey hs k) element h op
    · unfold LruCache.lru
      dsimp only
      split
      · next hlookup => exact LruCache.fits_get hs hlookup
      · exact hs
    · exact LruCache.fits_set hs.1 k v
  have hrun (ops : List (SnapshotOp (CacheCall κ α))) (c : Cache (LruCache.lru κ ν size))
      (h : LruCache.Fits size c.store) : LruCache.Fits size (ops.foldl (step element) c).store := by
    induction ops generalizing c with
    | nil => exact h
    | cons op ops ih => exact ih _ (hstep c op h)
  exact hstep _ (.write .flush) (hrun past new ⟨List.nodup_nil, Nat.zero_le _⟩)

/-- **What an LRU cache forgets.** After a flush, whatever the calls before it
were, and some accounts that are put or deleted, a flush returns an account
that was written, with the value written last, exactly when fewer than `size`
other addresses were written after that, and none twice. So where no more than
`size` addresses are written, nothing is lost: it returns what an ordered map
does. -/
theorem flushed_lru (size : ℕ) (element : Option α → ν)
    (past : List (SnapshotOp (CacheCall κ α))) (hpast : Matched past)
    (calls : List (CacheCall κ α)) (hcalls : ∀ w ∈ calls, w.written.isSome) :
    let writes := calls.filterMap CacheCall.written
    let items := flushed element past calls (LruCache.lru κ ν size)
    (∀ k elem, (k, elem) ∈ items ↔
      ∃ pre value post, writes = pre ++ (k, value) :: post ∧ k ∉ post.map Prod.fst ∧
        elem = element value ∧ (post.map Prod.fst).toFinset.card < size) ∧
      (items.map Prod.fst).Nodup ∧
      ((writes.map Prod.fst).toFinset.card ≤ size →
        ∀ k elem, (k, elem) ∈ items ↔
          (k, elem) ∈ flushed element past calls (LruCache.orderedMap κ ν)) := by
  intro writes items
  obtain ⟨hnodup, hlength⟩ := fits_store size element past
  have hlookup {pre post : List (κ × Option α)} {k : κ} {value : Option α}
      (hwrites : writes = pre ++ (k, value) :: post) (hk : k ∉ post.map Prod.fst) (elem : ν) :
      (k, elem) ∈ items ↔ elem = element value ∧ (post.map Prod.fst).toFinset.card < size := by
    have hmap : ((post.map fun w => (w.1, element w.2)).map Prod.fst) = post.map Prod.fst := by
      rw [List.map_map]
      rfl
    have hholds := LruCache.lookup_foldl_take (pre.map fun w => (w.1, element w.2))
      (post.map fun w => (w.1, element w.2)) (k := k) (v := element value) (n := size) hnodup
      (by rwa [hmap])
    rw [List.take_of_length_le hlength, hmap] at hholds
    have hitems := mem_flushed (C := LruCache.lru κ ν size) element LruCache.lru_set_get hpast hcalls k elem
    rw [show calls.filterMap CacheCall.written = writes from rfl, hwrites] at hitems
    simp only [List.map_append, List.map_cons] at hitems
    refine hitems.trans ((and_iff_right (by simp)).trans ?_)
    refine (Eq.congr hholds rfl).trans ?_
    split
    · next hlt => simp [hlt, eq_comm]
    · next hge => simp [hge]
  have hmem (k : κ) (elem : ν) : (k, elem) ∈ items ↔
      ∃ pre value post, writes = pre ++ (k, value) :: post ∧ k ∉ post.map Prod.fst ∧
        elem = element value ∧ (post.map Prod.fst).toFinset.card < size := by
    constructor
    · intro h
      have hk := ((mem_flushed element LruCache.lru_set_get hpast hcalls k elem).1 h).1
      obtain ⟨pre, value, post, hwrites, hpost⟩ := exists_last_write hk
      exact ⟨pre, value, post, hwrites, hpost, (hlookup hwrites hpost elem).1 h⟩
    · rintro ⟨pre, value, post, hwrites, hpost, h⟩
      exact (hlookup hwrites hpost elem).2 h
  refine ⟨hmem, nodup_flush, fun hcard k elem => ?_⟩
  rw [hmem, mem_flushed (C := LruCache.orderedMap κ ν) element (fun _ _ _ => rfl) hpast hcalls]
  constructor
  · rintro ⟨pre, value, post, hwrites, hpost, rfl, -⟩
    exact ⟨by rw [show calls.filterMap CacheCall.written = _ from hwrites]; simp,
      mem_foldl_update element hwrites hpost⟩
  · rintro ⟨hk, hholds⟩
    obtain ⟨pre, value, post, hwrites, hpost⟩ := exists_last_write hk
    rw [mem_foldl_update element hwrites hpost] at hholds
    refine ⟨pre, value, post, hwrites, hpost, (Option.some.inj hholds).symm, ?_⟩
    -- The address itself is one of those written.
    have hsub : (post.map Prod.fst).toFinset ⊂ (writes.map Prod.fst).toFinset := by
      refine Finset.ssubset_iff_subset_ne.2 ⟨fun k' hk' => ?_, fun heq => hpost ?_⟩
      · rw [List.mem_toFinset] at hk' ⊢
        rw [show writes = _ from hwrites, List.map_append, List.map_cons]
        exact List.mem_append_right _ (List.mem_cons_of_mem _ hk')
      · rw [← List.mem_toFinset, heq, List.mem_toFinset]
        exact hk
    exact (Finset.card_lt_card hsub).trans_le hcard

/-- An account is put and read. -/
def readAccount : List (SnapshotOp (CacheCall Bytes20 Account)) :=
  [.write (.put (repeated 1) (some .new)), .write (.get (repeated 1))]

/-- An account is deleted, and another one put. -/
def twoWrites : List (CacheCall Bytes20 Account) :=
  [.del (repeated 1), .put (repeated 2) (some .new)]

/-- A deleted account is flushed from a cache of two. -/
theorem flushed_lru_deleted :
    ((repeated 1, .of none) : Bytes20 × AccountCacheElement) ∈
      flushed AccountCacheElement.of readAccount twoWrites (LruCache.lru _ _ 2) :=
  ((flushed_lru 2 AccountCacheElement.of readAccount rfl twoWrites (by decide)).1 _ _).2
    ⟨[], none, [(repeated 2, some .new)], rfl, by decide, rfl, by decide⟩

/-- **An LRU cache may lose a write**: from a cache of one element, of two accounts
that are written the first is not flushed. -/
theorem flushed_lru_forgets :
    ¬ ∀ size, 1 ≤ size → ∀ calls : List (CacheCall Bytes20 Account),
      (∀ w ∈ calls, w.written.isSome) → ∀ pre address account post,
        calls.filterMap CacheCall.written = pre ++ (address, account) :: post →
        address ∉ post.map Prod.fst →
        (address, AccountCacheElement.of account) ∈
          flushed AccountCacheElement.of [] calls (LruCache.lru _ _ size) := by
  intro h
  have hmem := h 1 le_rfl twoWrites (by decide) [] (repeated 1) none
    [(repeated 2, some .new)] rfl (by decide)
  have hkeys : (flushed AccountCacheElement.of [] twoWrites (LruCache.lru Bytes20 _ 1)).map
      Prod.fst = [repeated 2] := rfl
  have hkey := List.mem_map_of_mem (f := Prod.fst) hmem
  rw [hkeys] at hkey
  exact absurd (List.mem_singleton.1 hkey) (by decide)

end Cache

end TsEthereum
