import TsEthereum.State.Cache
import Mathlib.Data.List.Lookmap

/-!
# The storage cache

`cache/storage.ts`: the slots of each address, and under them the diffs of the
open checkpoints, here by address and slot. `put` and `del` save what a slot
was before; `clearStorage` gives an address a new map and saves nothing. So a
revert restores the slots, but for those that were cleared and not written
above the checkpoint (`revert_restores_slots`).
-/

namespace TsEthereum

/-- A slot of the storage: its key. -/
abbrev SlotKey : Type := Bytes

/-- A `StorageCacheMap`. -/
abbrev StorageCacheMap : Type := SlotKey → Option Bytes

/-- A `DiffStorageCacheMap`, the entry that was set last first. -/
abbrev DiffStorageCacheMap : Type := DiffMap SlotKey Bytes

/-- A `Map` of `_diffCache`. -/
abbrev StorageDiff : Type := AList fun _ : Bytes20 => DiffStorageCacheMap

/-- `Map.set`: an entry that exists stays where it is. -/
def StorageDiff.set (diffMap : StorageDiff) (addressHex : Bytes20)
    (diffStorageMap : DiffStorageCacheMap) : StorageDiff :=
  if addressHex ∈ diffMap then diffMap.replace addressHex diffStorageMap
  else diffMap.insert addressHex diffStorageMap

/-- The map of an address, an empty one if there is none. -/
def StorageDiff.of (diffMap : StorageDiff) (addressHex : Bytes20) : DiffStorageCacheMap :=
  (diffMap.lookup addressHex).getD ∅

/-- **The `StorageCache`.** -/
structure StorageCache (C : LruCache Bytes20 StorageCacheMap) where
  store : C.State
  _diffCache : List StorageDiff

namespace StorageCache

variable {C : LruCache Bytes20 StorageCacheMap}

/-- A new cache. -/
def new : StorageCache C := ⟨C.empty, [∅]⟩

/-- `hexToBytes('0x80')`: the slot is known to be empty. -/
def emptyValue : Bytes := [0x80]

/-- 'internal error: storage cache map for account should be defined'. -/
inductive StorageCacheError where
  | mapNotDefined

variable (c : StorageCache C)

def _checkpoints : ℕ := c._diffCache.length - 1

/-- **`_saveCachePreState`**. -/
def _saveCachePreState (addressHex : Bytes20) (keyHex : SlotKey) : StorageCache C :=
  match c._diffCache with
  | [] => c
  | diffMap :: lower =>
    if keyHex ∈ diffMap.of addressHex then c
    else
      let (oldStorageMap, store) := C.get c.store addressHex
      let oldStorage := oldStorageMap.bind (· keyHex)
      ⟨store, diffMap.set addressHex ((diffMap.of addressHex).insert keyHex oldStorage) :: lower⟩

/-- A slot is set in the map of its address, in a new one if there is none. -/
def setSlot (store : C.State) (addressHex : Bytes20) (keyHex : SlotKey) (value : Option Bytes) :
    C.State :=
  let (storageMap, store) := C.get store addressHex
  C.set store addressHex (Function.update (storageMap.getD fun _ => none) keyHex value)

/-- **`put`**. -/
def put (addressHex : Bytes20) (keyHex : SlotKey) (value : Bytes) : StorageCache C :=
  let saved := c._saveCachePreState addressHex keyHex
  { saved with store := setSlot saved.store addressHex keyHex (some value) }

/-- **`del`**. -/
def del (addressHex : Bytes20) (keyHex : SlotKey) : StorageCache C :=
  let saved := c._saveCachePreState addressHex keyHex
  { saved with store := setSlot saved.store addressHex keyHex (some emptyValue) }

/-- **`get`**. -/
def get (addressHex : Bytes20) (keyHex : SlotKey) : Option Bytes × StorageCache C :=
  let (storageMap, store) := C.get c.store addressHex
  (storageMap.bind (· keyHex), { c with store := store })

/-- **`clearStorage`**. -/
def clearStorage (addressHex : Bytes20) : StorageCache C :=
  { c with store := C.set c.store addressHex fun _ => none }

/-- The slots of some addresses. -/
def collect : List (Σ _ : Bytes20, DiffStorageCacheMap) → C.State →
    Except StorageCacheError (List (Bytes20 × SlotKey × Option Bytes) × C.State)
  | [], store => .ok ([], store)
  | ⟨addressHex, diffStorageMap⟩ :: rest, store =>
    match C.get store addressHex with
    | (none, _) => .error .mapNotDefined
    | (some storageMap, store) => do
      let (items, store) ← collect rest store
      .ok ((diffStorageMap.keys.reverse.map fun keyHex => (addressHex, keyHex, storageMap keyHex)) ++
        items, store)

/-- **`flush`**: the slots the last map has keys of. -/
def flush : Except StorageCacheError (List (Bytes20 × SlotKey × Option Bytes) × StorageCache C) :=
  match c._diffCache with
  | [] => .ok ([], c)
  | diffMap :: lower => do
    let (items, store) ← collect diffMap.entries.reverse c.store
    .ok (items, ⟨store, ∅ :: lower⟩)

/-- The slots of an address are put back. -/
def restore (store : C.State) (entry : Σ _ : Bytes20, DiffStorageCacheMap) : C.State :=
  entry.2.entries.reverse.foldl (fun store slot => setSlot store entry.1 slot.1 slot.2) store

/-- **`revert`**. -/
def revert : StorageCache C :=
  match c._diffCache with
  | [] => c
  | diffMap :: lower => ⟨diffMap.entries.reverse.foldl restore c.store, lower⟩

/-- The slots of an address go to the map below, those it does not have. -/
def merge (lower : StorageDiff) (entry : Σ _ : Bytes20, DiffStorageCacheMap) : StorageDiff :=
  lower.set entry.1 (entry.2.entries.reverse.foldl Cache.merge (lower.of entry.1))

/-- **`commit`**. -/
def commit : StorageCache C :=
  match c._diffCache with
  | higherHeightDiffMap :: lowerHeightDiffMap :: rest =>
    { c with
      _diffCache := higherHeightDiffMap.entries.reverse.foldl merge lowerHeightDiffMap :: rest }
  | _ => { c with _diffCache := [] }

/-- **`checkpoint`**. -/
def checkpoint : StorageCache C := { c with _diffCache := ∅ :: c._diffCache }

end StorageCache

/-! ## Diffs by address and slot -/

namespace StorageDiff

variable {diffMap : StorageDiff} {a a' : Bytes20} {d : DiffStorageCacheMap} {k : SlotKey}

theorem dlookup_kreplace {l : List (Σ _ : Bytes20, DiffStorageCacheMap)} (h : a ∈ l.keys) :
    (l.kreplace a d).dlookup a' = if a' = a then some d else l.dlookup a' := by
  induction l with
  | nil => cases h
  | cons e l ih =>
    obtain ⟨b, d'⟩ := e
    unfold List.kreplace at ih ⊢
    by_cases hb : a = b
    · subst hb
      rw [List.lookmap_cons_some _ _ (dif_pos rfl)]
      split
      · next heq => rw [heq, List.dlookup_cons_eq]
      · next hne => rw [List.dlookup_cons_ne _ _ hne, List.dlookup_cons_ne _ _ hne]
    · rw [List.lookmap_cons_none _ _ (dif_neg hb)]
      have hmem : a ∈ l.keys := (List.mem_cons.1 h).resolve_left hb
      rcases eq_or_ne a' b with rfl | hne
      · rw [List.dlookup_cons_eq, List.dlookup_cons_eq, if_neg (Ne.symm hb)]
      · rw [List.dlookup_cons_ne _ _ hne, List.dlookup_cons_ne _ _ hne, ih hmem]

theorem lookup_set (diffMap : StorageDiff) (a a' : Bytes20) (d : DiffStorageCacheMap) :
    (diffMap.set a d).lookup a' = if a' = a then some d else diffMap.lookup a' := by
  unfold set
  split
  · next hmem => exact dlookup_kreplace hmem
  · split
    · next heq => rw [heq, AList.lookup_insert]
    · next hne => rw [AList.lookup_insert_ne hne]

theorem of_set (diffMap : StorageDiff) (a a' : Bytes20) (d : DiffStorageCacheMap) :
    (diffMap.set a d).of a' = if a' = a then d else diffMap.of a' := by
  rw [of, lookup_set]
  split
  · rfl
  · rfl

theorem of_empty (a : Bytes20) : (∅ : StorageDiff).of a = ∅ := by
  rw [of, AList.lookup_empty, Option.getD_none]

end StorageDiff

/-! ## The diffs as an undo log -/

/-- The slots of all addresses. -/
abbrev Slots : Type := Bytes20 → SlotKey → Option Bytes

/-- A slot is set. -/
def Slots.set (s : Slots) (a : Bytes20) (k : SlotKey) (value : Option Bytes) : Slots :=
  Function.update s a (Function.update (s a) k value)

theorem Slots.set_apply (s : Slots) (a a' : Bytes20) (k k' : SlotKey) (value : Option Bytes) :
    s.set a k value a' k' = if a' = a ∧ k' = k then value else s a' k' := by
  unfold Slots.set
  rcases eq_or_ne a' a with rfl | ha
  · rw [Function.update_self]
    rcases eq_or_ne k' k with rfl | hk
    · rw [Function.update_self, if_pos ⟨rfl, rfl⟩]
    · rw [Function.update_of_ne hk, if_neg fun h => hk h.2]
  · rw [Function.update_of_ne ha, if_neg fun h => ha h.1]

namespace StorageCache

/-- The slots an ordered map holds. -/
def slots (store : (LruCache.orderedMap Bytes20 StorageCacheMap).State) : Slots :=
  fun a k => ((LruCache.orderedMap Bytes20 StorageCacheMap).holds store a).bind (· k)

variable {store : (LruCache.orderedMap Bytes20 StorageCacheMap).State}

theorem slots_setSlot (a : Bytes20) (k : SlotKey) (value : Option Bytes) :
    slots (setSlot store a k value) = (slots store).set a k value := by
  funext a' k'
  rw [Slots.set_apply, slots, setSlot, LruCache.orderedMap_get]
  dsimp only
  rw [LruCache.orderedMap_holds_set]
  by_cases ha : a' = a
  · subst ha
    rw [if_pos rfl, Option.bind_some]
    rcases eq_or_ne k' k with rfl | hk
    · rw [Function.update_self, if_pos ⟨rfl, rfl⟩]
    · rw [Function.update_of_ne hk, if_neg fun h => hk h.2, slots]
      rcases (LruCache.orderedMap Bytes20 StorageCacheMap).holds store a' with _ | storageMap
      · rfl
      · rfl
  · rw [if_neg ha, if_neg fun h => ha h.1, slots]

/-- What the slots were before the writes of a diff. -/
def undo (diffMap : StorageDiff) (s : Slots) : Slots :=
  fun a k => ((diffMap.of a).lookup k).getD (s a k)

theorem undo_empty (s : Slots) : undo ∅ s = s := by
  funext a k
  rw [undo, StorageDiff.of_empty, AList.lookup_empty, Option.getD_none]

theorem slots_foldl_setSlot {l : List (Σ _ : SlotKey, Option Bytes)} (hl : l.NodupKeys)
    (a : Bytes20) (store : (LruCache.orderedMap Bytes20 StorageCacheMap).State) (a' : Bytes20)
    (k : SlotKey) :
    slots (l.foldl (fun store slot => setSlot store a slot.1 slot.2) store) a' k =
      if a' = a then (l.dlookup k).getD (slots store a' k) else slots store a' k := by
  induction l generalizing store with
  | nil => rw [List.dlookup_nil, Option.getD_none, ite_self, List.foldl_nil]
  | cons slot l ih =>
    obtain ⟨k', old⟩ := slot
    obtain ⟨hk', hl⟩ := List.nodupKeys_cons.1 hl
    rw [List.foldl_cons, ih hl, slots_setSlot, Slots.set_apply]
    by_cases ha : a' = a
    · rw [if_pos ha, if_pos ha]
      rcases eq_or_ne k k' with rfl | hk
      · rw [List.dlookup_eq_none.2 hk', List.dlookup_cons_eq, if_pos ⟨ha, rfl⟩]
        rfl
      · rw [List.dlookup_cons_ne _ _ hk, if_neg fun h => hk h.2]
    · rw [if_neg ha, if_neg ha, if_neg fun h => ha h.1]

theorem slots_restore (entry : Σ _ : Bytes20, DiffStorageCacheMap) (a : Bytes20) (k : SlotKey) :
    slots (restore store entry) a k =
      if a = entry.1 then (entry.2.lookup k).getD (slots store a k) else slots store a k := by
  rw [restore, slots_foldl_setSlot (Cache.nodupKeys_reverse _), Cache.dlookup_reverse]

theorem slots_foldl_restore {l : List (Σ _ : Bytes20, DiffStorageCacheMap)} (hl : l.NodupKeys)
    (store : (LruCache.orderedMap Bytes20 StorageCacheMap).State) (a : Bytes20) (k : SlotKey) :
    slots (l.foldl restore store) a k =
      (((l.dlookup a).getD ∅).lookup k).getD (slots store a k) := by
  induction l generalizing store with
  | nil => rw [List.dlookup_nil, Option.getD_none, AList.lookup_empty, Option.getD_none,
      List.foldl_nil]
  | cons entry l ih =>
    obtain ⟨b, d⟩ := entry
    obtain ⟨hb, hl⟩ := List.nodupKeys_cons.1 hl
    rw [List.foldl_cons, ih hl, slots_restore]
    rcases eq_or_ne a b with rfl | ha
    · rw [List.dlookup_eq_none.2 hb, List.dlookup_cons_eq, if_pos rfl, Option.getD_none,
        AList.lookup_empty, Option.getD_none, Option.getD_some]
    · rw [List.dlookup_cons_ne _ _ ha, if_neg ha]

theorem lookup_foldl_merge {l : List (Σ _ : Bytes20, DiffStorageCacheMap)} (hl : l.NodupKeys)
    (lower : StorageDiff) (a : Bytes20) (k : SlotKey) :
    ((l.foldl merge lower).of a).lookup k =
      ((lower.of a).lookup k).or (((l.dlookup a).getD ∅).lookup k) := by
  induction l generalizing lower with
  | nil => rw [List.dlookup_nil, Option.getD_none, AList.lookup_empty, Option.or_none,
      List.foldl_nil]
  | cons entry l ih =>
    obtain ⟨b, d⟩ := entry
    obtain ⟨hb, hl⟩ := List.nodupKeys_cons.1 hl
    rw [List.foldl_cons, ih hl, merge, StorageDiff.of_set]
    rcases eq_or_ne a b with rfl | ha
    · rw [List.dlookup_eq_none.2 hb, List.dlookup_cons_eq, if_pos rfl, Option.getD_none,
        AList.lookup_empty, Option.or_none, Option.getD_some,
        Cache.foldl_merge (Cache.nodupKeys_reverse d), Cache.dlookup_reverse]
    · rw [List.dlookup_cons_ne _ _ ha, if_neg ha]

theorem dlookup_reverse (diffMap : StorageDiff) (a : Bytes20) :
    (diffMap.entries.reverse.dlookup a).getD ∅ = diffMap.of a := by
  rw [List.perm_dlookup a ((List.perm_nodupKeys (List.reverse_perm _)).2 diffMap.nodupKeys)
    (List.reverse_perm _)]
  rfl

theorem nodupKeys_reverse (diffMap : StorageDiff) : diffMap.entries.reverse.NodupKeys :=
  (List.perm_nodupKeys (List.reverse_perm _)).2 diffMap.nodupKeys

theorem undo_merge (higher lower : StorageDiff) (s : Slots) :
    undo (higher.entries.reverse.foldl merge lower) s = undo lower (undo higher s) := by
  funext a k
  rw [undo, undo, undo, lookup_foldl_merge (nodupKeys_reverse higher), dlookup_reverse]
  rcases (lower.of a).lookup k with _ | old
  · rw [Option.none_or, Option.getD_none]
  · rw [Option.some_or, Option.getD_some, Option.getD_some]

end StorageCache

/-! ## Every run -/

/-- A call on the storage cache, but for those on its checkpoints. -/
inductive StorageCall where
  | put (address : Bytes20) (key : SlotKey) (value : Bytes)
  | del (address : Bytes20) (key : SlotKey)
  | get (address : Bytes20) (key : SlotKey)
  | clearStorage (address : Bytes20)

/-- What a call does to the slots. -/
def Slots.call (s : Slots) : StorageCall → Slots
  | .put address key value => s.set address key (some value)
  | .del address key => s.set address key (some StorageCache.emptyValue)
  | .get _ _ => s
  | .clearStorage address => Function.update s address fun _ => none

namespace StorageCache

/-- **What a call leaves.** -/
def step {C : LruCache Bytes20 StorageCacheMap} (c : StorageCache C) :
    SnapshotOp StorageCall → StorageCache C
  | .write (.put address key value) => c.put address key value
  | .write (.del address key) => c.del address key
  | .write (.get address key) => (c.get address key).2
  | .write (.clearStorage address) => c.clearStorage address
  | .checkpoint => c.checkpoint
  | .commit => c.commit
  | .revert => c.revert

/-- A `StorageCache` of type `ORDERED_MAP`. -/
abbrev Ordered : Type := StorageCache (LruCache.orderedMap Bytes20 StorageCacheMap)

variable {c : Ordered} {s : Snapshots Slots} {diffMap : StorageDiff} {diffs : List StorageDiff}

theorem get_fst (c : Ordered) (a : Bytes20) (k : SlotKey) : (c.get a k).1 = slots c.store a k := rfl

/-- **The cache stands for its slots**, and those that were saved. -/
def Stands (c : Ordered) (s : Snapshots Slots) : Prop :=
  slots c.store = s.current ∧ UndoLevels undo c._diffCache s.current s.saved

/-- **A storage is cleared where nothing is lost**: no checkpoint is open, or all
slots of the address that the cache holds are in the last diff. -/
def ClearsRecorded (c : Ordered) (op : SnapshotOp StorageCall) : Prop :=
  ∀ address, op = .write (.clearStorage address) →
    c._checkpoints = 0 ∨ ∀ key, (c.get address key).1 ≠ none →
      ∃ diffMap ∈ c._diffCache.head?, key ∈ diffMap.of address

/-- A diff with the entry of a slot. -/
def saved (diffMap : StorageDiff) (a : Bytes20) (k : SlotKey) (s : Slots) : StorageDiff :=
  if k ∈ diffMap.of a then diffMap else diffMap.set a ((diffMap.of a).insert k (s a k))

theorem undo_saved (diffMap : StorageDiff) (a : Bytes20) (k : SlotKey) (s : Slots)
    (value : Option Bytes) : undo (saved diffMap a k s) (s.set a k value) = undo diffMap s := by
  funext a' k'
  rw [undo, undo, Slots.set_apply]
  unfold saved
  split
  · next hmem =>
    split
    · next heq =>
      obtain ⟨rfl, rfl⟩ := heq
      obtain ⟨old, hold⟩ := Option.isSome_iff_exists.1 (AList.lookup_isSome.2 hmem)
      rw [hold, Option.getD_some, Option.getD_some]
    · rfl
  · next hmem =>
    rw [StorageDiff.of_set]
    rcases eq_or_ne a' a with rfl | ha
    · rw [if_pos rfl]
      rcases eq_or_ne k' k with rfl | hk
      · rw [AList.lookup_insert, AList.lookup_eq_none.2 hmem, Option.getD_some, Option.getD_none]
      · rw [AList.lookup_insert_ne hk, if_neg fun h => hk h.2]
    · rw [if_neg ha, if_neg fun h => ha h.1]

theorem saveCachePreState_eq (hdiffs : c._diffCache = diffMap :: diffs) (a : Bytes20)
    (k : SlotKey) :
    c._saveCachePreState a k = ⟨c.store, saved diffMap a k (slots c.store) :: diffs⟩ := by
  obtain ⟨store, _⟩ := c
  dsimp only at hdiffs
  subst hdiffs
  unfold _saveCachePreState saved
  dsimp only
  split
  · rfl
  · rfl

theorem Stands.set (h : Stands c s) (a : Bytes20) (k : SlotKey) (value : Bytes) :
    Stands { c._saveCachePreState a k with
        store := setSlot (c._saveCachePreState a k).store a k (some value) }
      { s with current := s.current.set a k (some value) } := by
  obtain ⟨hslots, hlevels⟩ := h
  obtain ⟨diffMap, diffs, hdiffs⟩ := hlevels.exists_cons
  rw [hdiffs] at hlevels
  rw [saveCachePreState_eq hdiffs, Stands, slots_setSlot, hslots]
  exact ⟨rfl, hlevels.write (undo_saved _ _ _ _ _)⟩

/-- **The cache follows snapshots of its slots**, where nothing that is cleared is
lost. -/
theorem follows : FollowsSnapshots Slots.call step Stands ClearsRecorded where
  onWrite := by
    rintro c s (⟨a, k, value⟩ | ⟨a, k⟩ | ⟨a, k⟩ | a) h hfine
    · exact h.set a k value
    · exact h.set a k emptyValue
    · exact h
    · obtain ⟨hslots, hlevels⟩ := h
      have hclear : slots (c.clearStorage a).store = s.current.call (.clearStorage a) := by
        funext a' k
        rw [clearStorage, slots, LruCache.orderedMap_holds_set, ← hslots, Slots.call,
          Function.update_apply]
        split
        · rfl
        · rfl
      refine ⟨hclear, ?_⟩
      change UndoLevels undo c._diffCache _ s.saved
      obtain ⟨s, saved⟩ := s
      obtain ⟨diffMap, diffs, hdiffs⟩ := hlevels.exists_cons
      dsimp only at hslots hlevels hclear ⊢
      rw [hdiffs] at hlevels ⊢
      rcases hfine a rfl with hground | hrecorded
      · rw [_checkpoints, hdiffs, List.length_cons, Nat.add_sub_cancel] at hground
        obtain rfl := List.eq_nil_of_length_eq_zero hground
        rcases hlevels with _ | ⟨hrest, hundo⟩
        · exact .ground _ _
        · cases hrest
      · refine hlevels.write ?_
        funext a' k
        change ((diffMap.of a').lookup k).getD (s.call (.clearStorage a) a' k) = _
        rw [undo, ← hclear, clearStorage, slots, LruCache.orderedMap_holds_set]
        split
        · next heq =>
          subst heq
          rcases hheld : (c.get a' k).1 with _ | value
          · rw [← hslots, ← get_fst, hheld]
            rfl
          · obtain ⟨diffMap', hmem, hk⟩ := hrecorded k (by rw [hheld]; nofun)
            rw [hdiffs, List.head?_cons] at hmem
            obtain rfl := Option.some.inj hmem
            obtain ⟨old, hold⟩ := Option.isSome_iff_exists.1 (AList.lookup_isSome.2 hk)
            rw [hold, Option.getD_some, Option.getD_some]
        · rw [← slots, hslots]
  onCheckpoint := by
    rintro c s ⟨hslots, hlevels⟩ -
    exact ⟨hslots, hlevels.checkpoint (undo_empty _)⟩
  onCommit := by
    rintro c ⟨s, saved⟩ ⟨hslots, hlevels⟩ - hne
    dsimp only at hslots hlevels hne
    change Stands c.commit ⟨s, saved.tail⟩
    unfold commit
    rcases hdiffs : c._diffCache with _ | ⟨diffMap, _ | ⟨lower, diffs⟩⟩
    · rw [hdiffs] at hlevels
      cases hlevels
    · rw [hdiffs] at hlevels
      rcases hlevels with _ | ⟨hrest, hundo⟩
      · exact absurd rfl hne
      · cases hrest
    · rw [hdiffs] at hlevels
      exact ⟨hslots, hlevels.commit (undo_merge _ _ _)⟩
  onRevert := by
    rintro c ⟨s, saved⟩ ⟨hslots, hlevels⟩ - hne
    dsimp only at hslots hlevels hne
    change Stands c.revert ⟨saved.head?.getD s, saved.tail⟩
    unfold revert
    rcases hdiffs : c._diffCache with _ | ⟨diffMap, diffs⟩
    · rw [hdiffs] at hlevels
      cases hlevels
    · rw [hdiffs] at hlevels
      obtain ⟨hlevels, hsaved⟩ := hlevels.revert hne
      have hrestored : slots (diffMap.entries.reverse.foldl restore c.store) = undo diffMap s := by
        funext a k
        rw [slots_foldl_restore (nodupKeys_reverse diffMap), dlookup_reverse, hslots]
        rfl
      rw [hsaved]
      exact ⟨hrestored, hlevels⟩

theorem stands_new : Stands new ⟨fun _ _ => none, []⟩ := ⟨rfl, .ground _ _⟩

/-- **A revert restores the slots** to what they were at its checkpoint, whatever
is committed or reverted in between, in every run in which a storage is only
cleared where no slot that the cache holds is lost for the last checkpoint. -/
theorem revert_restores_slots (pre body : List (SnapshotOp StorageCall)) (hpre : Nested pre)
    (hbody : Matched body) (hfine : AllFine step ClearsRecorded new (pre ++ reverted body))
    (address : Bytes20) (key : SlotKey) :
    (((pre ++ reverted body).foldl step new : Ordered).get address key).1 =
      ((pre.foldl step new : Ordered).get address key).1 := by
  obtain ⟨s, hbefore, hafter⟩ := follows.exists_restored stands_new hpre hbody hfine
  rw [get_fst, get_fst, hbefore.1, hafter.1]

/-- A slot is put, and its storage cleared where no checkpoint is open. -/
def clearedBelow : List (SnapshotOp StorageCall) :=
  [.write (.put (repeated 1) [1] [5]), .write (.clearStorage (repeated 1)),
    .write (.put (repeated 1) [2] [6])]

/-- Above a checkpoint it is deleted before the storage is cleared. -/
def clearedRecorded : List (SnapshotOp StorageCall) :=
  [.write (.del (repeated 1) [2]), .write (.clearStorage (repeated 1)), .checkpoint, .commit]

theorem revert_restores_slots_recorded :
    (((clearedBelow ++ reverted clearedRecorded).foldl step new : Ordered).get (repeated 1) [2]).1 =
      some [6] := by
  have hrestored := revert_restores_slots clearedBelow clearedRecorded ⟨0, rfl⟩ rfl (by
    refine allFine_cons.2 ⟨nofun, allFine_cons.2 ⟨fun _ _ => .inl rfl, ?_⟩⟩
    refine allFine_cons.2 ⟨nofun, allFine_cons.2 ⟨nofun, allFine_cons.2 ⟨nofun, ?_⟩⟩⟩
    refine allFine_cons.2 ⟨?_, allFine_cons.2 ⟨nofun, allFine_cons.2 ⟨nofun, ?_⟩⟩⟩
    · rintro _ ⟨⟩
      refine .inr fun key hkey => ?_
      have h2 : key = [2] := by
        by_contra hne
        refine hkey ?_
        change Function.update (Function.update (fun _ => none) [2] (some [6])) [2]
          (some emptyValue) key = none
        rw [Function.update_of_ne hne, Function.update_of_ne hne]
      subst h2
      exact ⟨_, rfl, by decide⟩
    · exact allFine_cons.2 ⟨nofun, allFine_nil⟩) (repeated 1) [2]
  exact hrestored

/-- **A storage that is cleared above a checkpoint is not restored**: its slots are
read as unknown once the checkpoint is reverted. -/
theorem not_revert_restores_cleared :
    ¬ ∀ pre body : List (SnapshotOp StorageCall), Nested pre → Matched body → ∀ address key,
      (((pre ++ reverted body).foldl step new : Ordered).get address key).1 =
        ((pre.foldl step new : Ordered).get address key).1 := by
  intro h
  have hlost := h [.write (.put (repeated 1) [1] [5])] [.write (.clearStorage (repeated 1))] ⟨0, rfl⟩
    rfl (repeated 1) [1]
  revert hlost
  decide

end StorageCache

end TsEthereum
