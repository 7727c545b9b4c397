import TsEthereum.State.Storage

/-!
# What the storage cache keeps

A `SlotView` is what the storage cache is for: the slots, and those that were
written since the last flush. A revert goes back to what they were at its
checkpoint, but that slots which were not recorded there may be dropped
(`Keeps.revert`), and a flush has the recorded slots only (`Keeps.flush`).
-/

namespace TsEthereum

/-- **What the storage cache is for**: the slots, and those that were written since
the last flush. -/
structure SlotView where
  slots : Slots
  recorded : Bytes20 → SlotKey → Prop

namespace SlotView

/-- No call was made. -/
def empty : SlotView := ⟨fun _ _ => none, fun _ _ => False⟩

/-- A slot is written. -/
def put (s : SlotView) (a : Bytes20) (k : SlotKey) (value : Bytes) : SlotView :=
  ⟨s.slots.set a k (some value), fun a' k' => (a' = a ∧ k' = k) ∨ s.recorded a' k'⟩

/-- The slots of an address are dropped. -/
def clear (s : SlotView) (a : Bytes20) : SlotView :=
  { s with slots := Function.update s.slots a fun _ => none }

theorem clear_slots (s : SlotView) (a a' : Bytes20) (k : SlotKey) :
    (s.clear a).slots a' k = if a' = a then none else s.slots a' k := by
  rw [clear]
  dsimp only
  rw [Function.update_apply]
  split
  · rfl
  · rfl

/-- **One view drops slots of another**, but none that is recorded. -/
def Drops (s t : SlotView) : Prop :=
  s.recorded = t.recorded ∧
    ∀ a k, s.slots a k = t.slots a k ∨ s.slots a k = none ∧ ¬ t.recorded a k

end SlotView

namespace StorageCache

variable {diffMap lower : StorageDiff} {diffs : List StorageDiff} {s t : SlotView}
variable {saved : List SlotView}

/-- **The diffs are in levels**: undoing the last leads to what was saved, but for
slots that are not recorded there, and they have the slots that were written since
then. -/
inductive Levels : List StorageDiff → SlotView → List SlotView → Prop
  | ground {diffMap : StorageDiff} {s : SlotView}
      (hrecorded : ∀ a k, s.recorded a k ↔ k ∈ diffMap.of a) : Levels [diffMap] s []
  | level {diffMap : StorageDiff} {diffs : List StorageDiff} {s t : SlotView}
      {saved : List SlotView} (hrest : Levels diffs t saved)
      (hundo : ∀ a k, undo diffMap s.slots a k = t.slots a k ∨
        undo diffMap s.slots a k = none ∧ ¬ t.recorded a k)
      (hrecorded : ∀ a k, s.recorded a k ↔ t.recorded a k ∨ k ∈ diffMap.of a) :
      Levels (diffMap :: diffs) s (t :: saved)

theorem Levels.exists_cons (h : Levels diffs s saved) : ∃ diffMap lower, diffs = diffMap :: lower := by
  rcases h with _ | _
  · exact ⟨_, _, rfl⟩
  · exact ⟨_, _, rfl⟩

theorem mem_of_saved (diffMap : StorageDiff) (a a' : Bytes20) (k k' : SlotKey) (s : Slots) :
    k' ∈ (StorageCache.saved diffMap a k s).of a' ↔ (a' = a ∧ k' = k) ∨ k' ∈ diffMap.of a' := by
  unfold StorageCache.saved
  split
  · next hmem =>
    refine ⟨.inr, ?_⟩
    rintro (⟨rfl, rfl⟩ | h)
    · exact hmem
    · exact h
  · rw [StorageDiff.of_set]
    split
    · next heq =>
      subst heq
      simp [AList.mem_insert]
    · next hne => simp [hne]

theorem Levels.put (h : Levels (diffMap :: diffs) s saved) (a : Bytes20) (k : SlotKey) (value : Bytes) :
    Levels (StorageCache.saved diffMap a k s.slots :: diffs) (s.put a k value) saved := by
  rcases h with hrecorded | ⟨hrest, hundo, hrecorded⟩
  · refine .ground fun a' k' => ?_
    rw [mem_of_saved, ← hrecorded]
    rfl
  · refine .level hrest (fun a' k' => ?_) fun a' k' => ?_
    · rw [SlotView.put, undo_saved]
      exact hundo a' k'
    · rw [mem_of_saved, or_left_comm, ← hrecorded]
      rfl

theorem Levels.checkpoint (h : Levels diffs s saved) : Levels (∅ :: diffs) s (s :: saved) :=
  .level h (fun a k => .inl (by rw [undo_empty]))
    fun a k => by simp [StorageDiff.of_empty, AList.notMem_empty]

theorem lookup_merge (higher lower : StorageDiff) (a : Bytes20) (k : SlotKey) :
    ((higher.entries.reverse.foldl merge lower).of a).lookup k =
      ((lower.of a).lookup k).or ((higher.of a).lookup k) := by
  rw [lookup_foldl_merge (nodupKeys_reverse higher), dlookup_reverse]

theorem mem_of_merge (higher lower : StorageDiff) (a : Bytes20) (k : SlotKey) :
    k ∈ (higher.entries.reverse.foldl merge lower).of a ↔ k ∈ lower.of a ∨ k ∈ higher.of a := by
  rw [← AList.lookup_isSome, lookup_merge, Option.isSome_or, Bool.or_eq_true, AList.lookup_isSome,
    AList.lookup_isSome]

theorem Levels.commit (h : Levels (diffMap :: lower :: diffs) s saved) :
    Levels (diffMap.entries.reverse.foldl merge lower :: diffs) s saved.tail := by
  rcases h with _ | @⟨_, _, _, t, saved, hrest, hundo, hrecorded⟩
  rcases hrest with hrecorded' | @⟨_, _, _, t', saved, hrest', hundo', hrecorded'⟩
  · refine .ground fun a k => ?_
    rw [hrecorded, hrecorded', mem_of_merge]
  · refine .level hrest' (fun a k => ?_) fun a k => ?_
    · have hlower := hundo' a k
      have hhigher := hundo a k
      have hsub : t'.recorded a k → t.recorded a k := fun h => (hrecorded' a k).2 (.inl h)
      rw [undo_merge]
      -- What the lower level does not have is as the higher one left it.
      rcases hlookup : (lower.of a).lookup k with _ | old
      · rw [undo, hlookup, Option.getD_none] at hlower ⊢
        rcases hhigher with heq | ⟨hnone, hnot⟩
        · rw [heq]
          exact hlower
        · exact .inr ⟨hnone, fun h => hnot (hsub h)⟩
      · rw [undo, hlookup, Option.getD_some] at hlower ⊢
        exact hlower
    · rw [hrecorded, hrecorded', mem_of_merge, or_assoc]

theorem Levels.drop (h : Levels diffs t saved) (hdrops : s.Drops t) : Levels diffs s saved := by
  obtain ⟨hsame, hslots⟩ := hdrops
  rcases h with hrecorded | @⟨diffMap, _, _, u, saved, hrest, hundo, hrecorded⟩
  · refine .ground fun a k => ?_
    rw [hsame, hrecorded]
  · refine .level hrest (fun a k => ?_) fun a k => ?_
    · have hlevel := hundo a k
      rcases hlookup : (diffMap.of a).lookup k with _ | old
      · rw [undo, hlookup, Option.getD_none] at hlevel ⊢
        rcases hslots a k with heq | ⟨hnone, hnot⟩
        · rw [heq]
          exact hlevel
        · exact .inr ⟨hnone, fun h => hnot ((hrecorded a k).2 (.inl h))⟩
      · rw [undo, hlookup, Option.getD_some] at hlevel ⊢
        exact hlevel
    · rw [hsame, hrecorded]

/-- **The slots of an address are dropped** where no checkpoint is open, or where
what is recorded of them is in the last diff. -/
theorem Levels.clear (h : Levels (diffMap :: diffs) s saved) (a : Bytes20)
    (hlast : diffs = [] ∨ ∀ k, s.recorded a k → s.slots a k ≠ none → k ∈ diffMap.of a) :
    Levels (diffMap :: diffs) (s.clear a) saved := by
  rcases h with hrecorded | @⟨_, _, _, t, saved, hrest, hundo, hrecorded⟩
  · exact .ground hrecorded
  · refine .level hrest (fun a' k => ?_) hrecorded
    have hlevel := hundo a' k
    rw [undo] at hlevel ⊢
    rcases hlookup : (diffMap.of a').lookup k with _ | old
    · rw [hlookup, Option.getD_none] at hlevel
      rw [Option.getD_none, SlotView.clear_slots]
      split
      · next heq =>
        subst heq
        -- What the diff has no entry of is not recorded below, or is empty there.
        by_cases ht : t.recorded a' k
        · refine .inl ?_
          have hs : s.slots a' k = none := by
            by_contra hne
            rcases hlast with hnil | hlast
            · obtain ⟨_, _, hcons⟩ := hrest.exists_cons
              rw [hnil] at hcons
              cases hcons
            · have hmem := hlast k ((hrecorded a' k).2 (.inl ht)) hne
              rw [← AList.lookup_isSome, hlookup] at hmem
              cases hmem
          rcases hlevel with heq | ⟨-, hnot⟩
          · rw [← heq, hs]
          · exact absurd ht hnot
        · exact .inr ⟨rfl, ht⟩
      · exact hlevel
    · rw [hlookup, Option.getD_some] at hlevel
      exact hlevel

/-- Every address that a diff has is in the map of the cache. -/
def Mapped (c : Ordered) : Prop :=
  ∀ diffMap ∈ c._diffCache, ∀ a ∈ diffMap,
    (LruCache.orderedMap Bytes20 StorageCacheMap).holds c.store a ≠ none

/-- **The cache keeps a view**, and those of its checkpoints. -/
def Keeps (c : Ordered) (s : SlotView) (saved : List SlotView) : Prop :=
  slots c.store = s.slots ∧ Levels c._diffCache s saved ∧ Mapped c

/-! ## The calls on the cache -/

variable {c : Ordered}

theorem holds_setSlot {store : (LruCache.orderedMap Bytes20 StorageCacheMap).State} (a : Bytes20)
    (k : SlotKey) (value : Option Bytes) {a' : Bytes20}
    (h : (LruCache.orderedMap Bytes20 StorageCacheMap).holds store a' ≠ none) :
    (LruCache.orderedMap Bytes20 StorageCacheMap).holds (setSlot store a k value) a' ≠ none := by
  rw [setSlot, LruCache.orderedMap_get]
  dsimp only
  rw [LruCache.orderedMap_holds_set]
  split
  · exact Option.some_ne_none _
  · exact h

theorem holds_foldl_setSlot {a : Bytes20} (l : List (Σ _ : SlotKey, Option Bytes))
    {store : (LruCache.orderedMap Bytes20 StorageCacheMap).State} {a' : Bytes20}
    (h : (LruCache.orderedMap Bytes20 StorageCacheMap).holds store a' ≠ none) :
    (LruCache.orderedMap Bytes20 StorageCacheMap).holds
      (l.foldl (fun store slot => setSlot store a slot.1 slot.2) store) a' ≠ none := by
  induction l generalizing store with
  | nil => exact h
  | cons slot l ih => exact ih (holds_setSlot a slot.1 slot.2 h)

theorem holds_foldl_restore (l : List (Σ _ : Bytes20, DiffStorageCacheMap))
    {store : (LruCache.orderedMap Bytes20 StorageCacheMap).State} {a : Bytes20}
    (h : (LruCache.orderedMap Bytes20 StorageCacheMap).holds store a ≠ none) :
    (LruCache.orderedMap Bytes20 StorageCacheMap).holds (l.foldl restore store) a ≠ none := by
  induction l generalizing store with
  | nil => exact h
  | cons entry l ih => exact ih (holds_foldl_setSlot _ h)

theorem mem_set {diffMap : StorageDiff} {a a' : Bytes20} {d : DiffStorageCacheMap} :
    a' ∈ diffMap.set a d ↔ a' = a ∨ a' ∈ diffMap := by
  rw [← AList.lookup_isSome, StorageDiff.lookup_set]
  split
  · next heq => simp [heq]
  · next hne => simp [hne, AList.lookup_isSome]

theorem mem_foldl_merge (l : List (Σ _ : Bytes20, DiffStorageCacheMap)) {lower : StorageDiff}
    {a : Bytes20} (h : a ∈ l.foldl merge lower) : a ∈ lower ∨ a ∈ l.keys := by
  induction l generalizing lower with
  | nil => exact .inl h
  | cons entry l ih =>
    rw [List.keys_cons, List.mem_cons]
    rcases ih h with hmem | hmem
    · rcases mem_set.1 hmem with heq | hmem
      · exact .inr (.inl heq)
      · exact .inl hmem
    · exact .inr (.inr hmem)

theorem Keeps.put (h : Keeps c s saved) (a : Bytes20) (k : SlotKey) (value : Bytes) :
    Keeps (c.put a k value) (s.put a k value) saved := by
  obtain ⟨hslots, hlevels, hmapped⟩ := h
  obtain ⟨diffMap, diffs, hdiffs⟩ := hlevels.exists_cons
  rw [hdiffs] at hlevels
  rw [StorageCache.put, saveCachePreState_eq hdiffs, hslots]
  refine ⟨?_, hlevels.put a k value, ?_⟩
  · dsimp only
    rw [slots_setSlot, hslots]
    rfl
  · intro diffMap' hdiffMap' a' ha'
    rcases List.mem_cons.1 hdiffMap' with rfl | hlower
    · by_cases heq : a' = a
      · subst heq
        dsimp only
        rw [setSlot, LruCache.orderedMap_get]
        dsimp only
        rw [LruCache.orderedMap_holds_set, if_pos rfl]
        exact Option.some_ne_none _
      · refine holds_setSlot a k _ (hmapped diffMap (hdiffs ▸ List.mem_cons_self) a' ?_)
        unfold StorageCache.saved at ha'
        split at ha'
        · exact ha'
        · exact (mem_set.1 ha').resolve_left heq
    · exact holds_setSlot a k _ (hmapped diffMap' (hdiffs ▸ List.mem_cons_of_mem _ hlower) a' ha')

/-- A slot is in a diff. -/
def Recorded (c : Ordered) (a : Bytes20) (k : SlotKey) : Prop :=
  ∃ diffMap ∈ c._diffCache, k ∈ diffMap.of a

/-- **An address may be cleared**: no checkpoint is open, or each of its slots that
the cache holds and a diff has is in the last diff. -/
def MayClear (c : Ordered) (a : Bytes20) : Prop :=
  c._checkpoints = 0 ∨ ∀ k, c.Recorded a k → (c.get a k).1 ≠ none →
    ∃ diffMap ∈ c._diffCache.head?, k ∈ diffMap.of a

theorem Levels.recorded_iff (h : Levels diffs s saved) (a : Bytes20) (k : SlotKey) :
    s.recorded a k ↔ ∃ diffMap ∈ diffs, k ∈ diffMap.of a := by
  induction h with
  | ground hrecorded => simp [hrecorded]
  | level hrest hundo hrecorded ih => simp [hrecorded, ih, or_comm]

theorem Keeps.recorded_iff (h : Keeps c s saved) (a : Bytes20) (k : SlotKey) :
    c.Recorded a k ↔ s.recorded a k :=
  (h.2.1.recorded_iff a k).symm

theorem Keeps.get_fst (h : Keeps c s saved) (a : Bytes20) (k : SlotKey) :
    (c.get a k).1 = s.slots a k := by
  rw [StorageCache.get_fst, h.1]

theorem Keeps.clear (h : Keeps c s saved) {a : Bytes20} (hclear : c.MayClear a) :
    Keeps (c.clearStorage a) (s.clear a) saved := by
  obtain ⟨hslots, hlevels, hmapped⟩ := h
  have hrecorded := hlevels.recorded_iff
  obtain ⟨diffMap, diffs, hdiffs⟩ := hlevels.exists_cons
  refine ⟨?_, ?_, ?_⟩
  · funext a' k
    rw [clearStorage, slots, LruCache.orderedMap_holds_set, SlotView.clear_slots, ← hslots]
    split
    · rfl
    · rfl
  · change Levels c._diffCache _ _
    rw [hdiffs] at hlevels ⊢
    refine hlevels.clear a (hclear.imp (fun hground => ?_) fun hlast k hk hheld => ?_)
    · rw [_checkpoints, hdiffs, List.length_cons, Nat.add_sub_cancel] at hground
      exact List.eq_nil_of_length_eq_zero hground
    · rw [← hslots, ← StorageCache.get_fst] at hheld
      obtain ⟨diffMap', hmem, hk'⟩ := hlast k ((hrecorded a k).1 hk) hheld
      rw [hdiffs, List.head?_cons] at hmem
      obtain rfl := Option.some.inj hmem
      exact hk'
  · intro diffMap' hdiffMap' a' ha'
    rw [clearStorage, LruCache.orderedMap_holds_set]
    split
    · exact Option.some_ne_none _
    · exact hmapped diffMap' hdiffMap' a' ha'

theorem Keeps.checkpoint (h : Keeps c s saved) : Keeps c.checkpoint s (s :: saved) := by
  obtain ⟨hslots, hlevels, hmapped⟩ := h
  refine ⟨hslots, hlevels.checkpoint, ?_⟩
  intro diffMap hdiffMap a ha
  rcases List.mem_cons.1 hdiffMap with rfl | hlower
  · exact absurd ha (AList.notMem_empty a)
  · exact hmapped diffMap hlower a ha

theorem Keeps.commit (h : Keeps c s (t :: saved)) : Keeps c.commit s saved := by
  obtain ⟨hslots, hlevels, hmapped⟩ := h
  unfold StorageCache.commit
  rcases hdiffs : c._diffCache with _ | ⟨diffMap, _ | ⟨lower, diffs⟩⟩
  · rw [hdiffs] at hlevels
    cases hlevels
  · rw [hdiffs] at hlevels
    rcases hlevels with _ | ⟨hrest, -, -⟩
    cases hrest
  · rw [hdiffs] at hlevels
    refine ⟨hslots, hlevels.commit, ?_⟩
    have hmapped' : ∀ d ∈ diffMap :: lower :: diffs, ∀ a ∈ d,
        (LruCache.orderedMap Bytes20 StorageCacheMap).holds c.store a ≠ none := hdiffs ▸ hmapped
    intro d hd a ha
    rcases List.mem_cons.1 hd with rfl | hd
    · rcases mem_foldl_merge _ ha with hlower | hhigher
      · exact hmapped' lower (by simp) a hlower
      · refine hmapped' diffMap (by simp) a ?_
        rw [List.mem_keys] at hhigher
        obtain ⟨d', hd'⟩ := hhigher
        exact List.mem_keys_of_mem (List.mem_reverse.1 hd')
    · exact hmapped' d (by simp [hd]) a ha

theorem Keeps.revert (h : Keeps c s (t :: saved)) :
    ∃ s' : SlotView, s'.Drops t ∧ Keeps c.revert s' saved := by
  obtain ⟨hslots, hlevels, hmapped⟩ := h
  unfold StorageCache.revert
  rcases hdiffs : c._diffCache with _ | ⟨diffMap, diffs⟩
  · rw [hdiffs] at hlevels
    cases hlevels
  · rw [hdiffs] at hlevels
    rcases hlevels with _ | ⟨hrest, hundo, -⟩
    have hdrops : SlotView.Drops ⟨undo diffMap s.slots, t.recorded⟩ t := ⟨rfl, hundo⟩
    refine ⟨_, hdrops, ?_, hrest.drop hdrops, ?_⟩
    · funext a k
      dsimp only
      rw [slots_foldl_restore (nodupKeys_reverse diffMap), dlookup_reverse, hslots]
      rfl
    · intro d hd a ha
      exact holds_foldl_restore _ (hmapped d (hdiffs ▸ List.mem_cons_of_mem _ hd) a ha)

theorem collect_eq {l : List (Σ _ : Bytes20, DiffStorageCacheMap)}
    {store : (LruCache.orderedMap Bytes20 StorageCacheMap).State}
    (h : ∀ entry ∈ l, (LruCache.orderedMap Bytes20 StorageCacheMap).holds store entry.1 ≠ none) :
    collect (C := LruCache.orderedMap Bytes20 StorageCacheMap) l store =
      .ok (l.flatMap fun entry =>
        entry.2.keys.reverse.map fun k => (entry.1, k, slots store entry.1 k), store) := by
  induction l with
  | nil => rfl
  | cons entry l ih =>
    obtain ⟨a, d⟩ := entry
    have hrest := ih (List.forall_mem_cons.1 h).2
    obtain ⟨storageMap, hmap⟩ := Option.ne_none_iff_exists'.1 (h ⟨a, d⟩ List.mem_cons_self)
    have hslots (k : SlotKey) : slots store a k = storageMap k := by
      rw [slots, hmap, Option.bind_some]
    rw [collect, LruCache.orderedMap_get, hmap]
    dsimp only
    rw [hrest, List.flatMap_cons]
    simp only [hslots]
    rfl

/-- **A flush** where no checkpoint is open: it has slots that are recorded, each
with its value. -/
theorem Keeps.flush (h : Keeps c s []) :
    ∃ items c', c.flush = .ok (items, c') ∧ Keeps c' ⟨s.slots, fun _ _ => False⟩ [] ∧
      ∀ item ∈ items, s.recorded item.1 item.2.1 ∧ item.2.2 = s.slots item.1 item.2.1 := by
  obtain ⟨hslots, hlevels, hmapped⟩ := h
  obtain ⟨diffMap, diffs, hdiffs⟩ := hlevels.exists_cons
  rw [hdiffs] at hlevels
  rcases hlevels with ⟨hrecorded⟩
  have hheld : ∀ entry ∈ diffMap.entries.reverse,
      (LruCache.orderedMap Bytes20 StorageCacheMap).holds c.store entry.1 ≠ none := by
    intro entry hentry
    exact hmapped diffMap (hdiffs ▸ List.mem_cons_self) entry.1
      (List.mem_keys_of_mem (List.mem_reverse.1 hentry))
  rw [StorageCache.flush, hdiffs]
  dsimp only
  rw [collect_eq hheld]
  refine ⟨_, _, rfl, ⟨hslots, .ground fun a k => ?_, ?_⟩, ?_⟩
  · simp [StorageDiff.of_empty, AList.notMem_empty]
  · intro d hd a ha
    rw [List.mem_singleton.1 hd] at ha
    exact absurd ha (AList.notMem_empty a)
  · intro item hitem
    obtain ⟨⟨a, d⟩, hentry, hitem⟩ := List.mem_flatMap.1 hitem
    obtain ⟨k, hk, rfl⟩ := List.mem_map.1 hitem
    refine ⟨(hrecorded a k).2 ?_, by rw [hslots]⟩
    have hlookup : diffMap.lookup a = some d :=
      AList.mem_lookup_iff.2 (List.mem_reverse.1 hentry)
    rw [StorageDiff.of, hlookup, Option.getD_some]
    exact List.mem_reverse.1 hk

theorem keeps_new : Keeps new .empty [] := by
  refine ⟨rfl, .ground fun a k => ?_, ?_⟩
  · simp [StorageDiff.of_empty, AList.notMem_empty, SlotView.empty]
  · intro d hd a ha
    rw [List.mem_singleton.1 hd] at ha
    exact absurd ha (AList.notMem_empty a)

end StorageCache

end TsEthereum
