import TsEthereum.Common.LruCache
import TsEthereum.Common.Snapshots
import TsEthereum.State.Account
import Mathlib.Data.List.AList
import Mathlib.Data.Finset.Basic

/-!
# The account and code caches

`cache/account.ts` and `cache/code.ts`: the same class but for their elements,
here `Cache`. The elements are in an ordered map or an LRU cache, `C`, and
under it is a stack of diffs, one for each open checkpoint: what an entry was
before it was first written there, `none` if it was not in the cache. The
diffs are the undo log of `revert`, and what `flush` returns.

The keys are the addresses, which the source writes in hex. What is only
reported, the statistics and `size`, is left out.
-/

namespace TsEthereum

/-- A `Map` of `_diffCache`, the entry that was set last first. -/
abbrev DiffMap (κ ν : Type) : Type := AList fun _ : κ => Option ν

/-- **A cache**: its elements, and `_diffCache`, the map of the last checkpoint
first. -/
structure Cache {κ ν : Type} (C : LruCache κ ν) where
  store : C.State
  _diffCache : List (DiffMap κ ν)

namespace Cache

variable {κ ν α : Type} [DecidableEq κ] {C : LruCache κ ν}

/-- A new cache. -/
def new : Cache C := ⟨C.empty, [∅]⟩

variable (c : Cache C)

def _checkpoints : ℕ := c._diffCache.length - 1

/-- **`_saveCachePreState`**. There is always a map, where no more checkpoints
are closed than were opened. -/
def _saveCachePreState (cacheKeyHex : κ) : Cache C :=
  match c._diffCache with
  | [] => c
  | diffMap :: lower =>
    if cacheKeyHex ∈ diffMap then c
    else
      let (oldElem, store) := C.get c.store cacheKeyHex
      ⟨store, diffMap.insert cacheKeyHex oldElem :: lower⟩

/-- **`put`**, of an element. -/
def put (addressHex : κ) (elem : ν) : Cache C :=
  let saved := c._saveCachePreState addressHex
  { saved with store := C.set saved.store addressHex elem }

/-- **`get`**. -/
def get (addressHex : κ) : Option ν × Cache C :=
  let (elem, store) := C.get c.store addressHex
  (elem, { c with store := store })

/-- The elements of some keys, of those that have one. -/
def collect : List κ → C.State → List (κ × ν) × C.State
  | [], store => ([], store)
  | cacheKeyHex :: keys, store =>
    let (elem, store) := C.get store cacheKeyHex
    let (items, store) := collect keys store
    ((elem.map (cacheKeyHex, ·)).toList ++ items, store)

/-- **`flush`**: the elements the last map has keys of. -/
def flush : List (κ × ν) × Cache C :=
  match c._diffCache with
  | [] => ([], c)
  | diffMap :: lower =>
    let (items, store) := collect diffMap.keys.reverse c.store
    (items, ⟨store, ∅ :: lower⟩)

/-- An entry of a map is put back. -/
def restore (store : C.State) : (Σ _ : κ, Option ν) → C.State
  | ⟨addressHex, none⟩ => C.delete store addressHex
  | ⟨addressHex, some elem⟩ => C.set store addressHex elem

/-- **`revert`**. -/
def revert : Cache C :=
  match c._diffCache with
  | [] => c
  | diffMap :: lower => ⟨diffMap.entries.reverse.foldl restore c.store, lower⟩

/-- An entry of the last map goes to the map below, if that has none. -/
def merge (lower : DiffMap κ ν) (entry : Σ _ : κ, Option ν) : DiffMap κ ν :=
  if entry.1 ∈ lower then lower else lower.insert entry.1 entry.2

/-- **`commit`**. -/
def commit : Cache C :=
  match c._diffCache with
  | diffMap :: lower :: rest =>
    { c with _diffCache := diffMap.entries.reverse.foldl merge lower :: rest }
  | _ => { c with _diffCache := [] }

/-- **`checkpoint`**. -/
def checkpoint : Cache C := { c with _diffCache := ∅ :: c._diffCache }

end Cache

/-- A call on a cache, but for those on its checkpoints. -/
inductive CacheCall (κ α : Type) where
  | put (address : κ) (value : Option α)
  | del (address : κ)
  | get (address : κ)
  | flush

namespace Cache

variable {κ ν α : Type} [DecidableEq κ] {C : LruCache κ ν}

/-- What a call leaves. `element` is what a value is kept as: `del` keeps that of
`undefined`. -/
def call (element : Option α → ν) (c : Cache C) : CacheCall κ α → Cache C
  | .put address value => c.put address (element value)
  | .del address => c.put address (element none)
  | .get address => (c.get address).2
  | .flush => c.flush.2

/-- **What any call leaves.** -/
def step (element : Option α → ν) (c : Cache C) : SnapshotOp (CacheCall κ α) → Cache C
  | .write w => c.call element w
  | .checkpoint => c.checkpoint
  | .commit => c.commit
  | .revert => c.revert

end Cache

/-! ## The two caches -/

/-- The element of an account. -/
structure AccountCacheElement where
  accountRLP : Option Bytes
  deriving DecidableEq

/-- The element of a code. -/
structure CodeCacheElement where
  code : Option Bytes
  deriving DecidableEq

/-- What `put` makes of an account. -/
def AccountCacheElement.of (account : Option Account) : AccountCacheElement :=
  ⟨account.map Account.serialize⟩

/-- **The `AccountCache`.** -/
abbrev AccountCache (C : LruCache Bytes20 AccountCacheElement) : Type := Cache C

/-- **The `CodeCache`.** -/
abbrev CodeCache (C : LruCache Bytes20 CodeCacheElement) : Type := Cache C

namespace AccountCache

variable {C : LruCache Bytes20 AccountCacheElement} (c : AccountCache C)

def put (address : Bytes20) (account : Option Account) : AccountCache C :=
  Cache.put c address (.of account)

def del (address : Bytes20) : AccountCache C := Cache.put c address ⟨none⟩

/-- A call. -/
def step (c : AccountCache C) : SnapshotOp (CacheCall Bytes20 Account) → AccountCache C :=
  Cache.step AccountCacheElement.of c

end AccountCache

namespace CodeCache

variable {C : LruCache Bytes20 CodeCacheElement} (c : CodeCache C)

def put (address : Bytes20) (code : Option Bytes) : CodeCache C := Cache.put c address ⟨code⟩

def del (address : Bytes20) : CodeCache C := Cache.put c address ⟨none⟩

/-- A call. -/
def step (c : CodeCache C) : SnapshotOp (CacheCall Bytes20 Bytes) → CodeCache C :=
  Cache.step CodeCacheElement.mk c

end CodeCache

namespace Cache

variable {κ ν α : Type} [DecidableEq κ]

/-! ## What is flushed -/

section

variable {C : LruCache κ ν}

omit [DecidableEq κ] in
theorem collect_fst (keys : List κ) (store : C.State) :
    (collect (C := C) keys store).1 =
      keys.filterMap fun k => (C.holds store k).map (k, ·) := by
  induction keys generalizing store with
  | nil => rfl
  | cons k keys ih =>
    rw [collect]
    dsimp only
    rw [ih, C.get_fst, List.filterMap_cons]
    have hsame : ∀ k', C.holds (C.get store k).2 k' = C.holds store k' := C.holds_get store k
    simp only [hsame]
    rcases C.holds store k with _ | elem
    · rfl
    · rfl

omit [DecidableEq κ] in
theorem holds_collect (keys : List κ) (store : C.State) (k : κ) :
    C.holds (collect (C := C) keys store).2 k = C.holds store k := by
  induction keys generalizing store with
  | nil => rfl
  | cons k' keys ih =>
    rw [collect]
    dsimp only
    rw [ih, C.holds_get]

theorem mem_flush {c : Cache C} {diffMap : DiffMap κ ν} {lower : List (DiffMap κ ν)}
    (h : c._diffCache = diffMap :: lower) (k : κ) (elem : ν) :
    (k, elem) ∈ c.flush.1 ↔ k ∈ diffMap ∧ C.holds c.store k = some elem := by
  rw [flush, h]
  dsimp only
  rw [collect_fst, List.mem_filterMap]
  constructor
  · rintro ⟨k', hk', hmem⟩
    obtain ⟨elem', helem, heq⟩ := Option.map_eq_some_iff.1 hmem
    obtain ⟨rfl, rfl⟩ := Prod.mk.inj heq
    exact ⟨List.mem_reverse.1 hk', helem⟩
  · rintro ⟨hk, helem⟩
    exact ⟨k, List.mem_reverse.2 hk, by rw [helem]; rfl⟩

theorem nodup_flush {c : Cache C} : (c.flush.1.map Prod.fst).Nodup := by
  unfold flush
  split
  · exact List.nodup_nil
  · next diffMap lower h =>
    dsimp only
    rw [collect_fst]
    have hsub (keys : List κ) : ((keys.filterMap fun k =>
        (C.holds c.store k).map (k, ·)).map Prod.fst).Sublist keys := by
      induction keys with
      | nil => exact .slnil
      | cons k keys ih =>
        rw [List.filterMap_cons]
        rcases C.holds c.store k with _ | elem
        · exact ih.cons k
        · exact ih.cons_cons k
    exact (hsub _).nodup (List.nodup_reverse.2 diffMap.keys_nodup)

end

/-! ## The diffs as an undo log -/

/-- What an ordered map was before the writes of a diff. -/
def undo (diffMap : DiffMap κ ν) (elements : κ → Option ν) (k : κ) : Option ν :=
  (diffMap.lookup k).getD (elements k)

theorem undo_empty (elements : κ → Option ν) : undo ∅ elements = elements := by
  funext k
  rw [undo, AList.lookup_empty, Option.getD_none]

theorem undo_of_notMem {diffMap : DiffMap κ ν} {k : κ} (h : k ∉ diffMap)
    (elements : κ → Option ν) : undo diffMap elements k = elements k := by
  rw [undo, AList.lookup_eq_none.2 h, Option.getD_none]

theorem dlookup_reverse (diffMap : DiffMap κ ν) (k : κ) :
    diffMap.entries.reverse.dlookup k = diffMap.lookup k :=
  (List.perm_dlookup k diffMap.nodupKeys (List.reverse_perm _).symm).symm

omit [DecidableEq κ] in
theorem nodupKeys_reverse (diffMap : DiffMap κ ν) : diffMap.entries.reverse.NodupKeys :=
  (List.perm_nodupKeys (List.reverse_perm _)).2 diffMap.nodupKeys

/-- What an ordered map holds. -/
def elements (store : (LruCache.orderedMap κ ν).State) : κ → Option ν :=
  (LruCache.orderedMap κ ν).holds store

theorem elements_set (store : (LruCache.orderedMap κ ν).State) (k : κ) (elem : ν) :
    elements ((LruCache.orderedMap κ ν).set store k elem) =
      Function.update (elements store) k (some elem) := rfl

theorem elements_restore (store : (LruCache.orderedMap κ ν).State) (entry : Σ _ : κ, Option ν) :
    elements (restore store entry) = Function.update (elements store) entry.1 entry.2 := by
  obtain ⟨k, _ | elem⟩ := entry
  · rfl
  · rfl

theorem foldl_restore {l : List (Σ _ : κ, Option ν)} (hl : l.NodupKeys)
    (store : (LruCache.orderedMap κ ν).State) (k : κ) :
    elements (l.foldl restore store) k = (l.dlookup k).getD (elements store k) := by
  induction l generalizing store with
  | nil => rfl
  | cons entry l ih =>
    obtain ⟨a, old⟩ := entry
    obtain ⟨ha, hl⟩ := List.nodupKeys_cons.1 hl
    rw [List.foldl_cons, ih hl, elements_restore]
    rcases eq_or_ne k a with rfl | hne
    · rw [List.dlookup_eq_none.2 ha, List.dlookup_cons_eq, Function.update_self]
      rfl
    · rw [List.dlookup_cons_ne _ _ hne, Function.update_of_ne hne]

theorem foldl_merge {l : List (Σ _ : κ, Option ν)} (hl : l.NodupKeys) (lower : DiffMap κ ν)
    (k : κ) : (l.foldl merge lower).lookup k = (lower.lookup k).or (l.dlookup k) := by
  induction l generalizing lower with
  | nil => rw [List.foldl_nil, List.dlookup_nil, Option.or_none]
  | cons entry l ih =>
    obtain ⟨a, old⟩ := entry
    obtain ⟨ha, hl⟩ := List.nodupKeys_cons.1 hl
    rw [List.foldl_cons, ih hl]
    rcases eq_or_ne k a with rfl | hne
    · rw [List.dlookup_eq_none.2 ha, Option.or_none, List.dlookup_cons_eq, merge]
      split
      · next hmem =>
        obtain ⟨old', hold⟩ := Option.isSome_iff_exists.1 (AList.lookup_isSome.2 hmem)
        rw [hold, Option.some_or]
      · next hmem => rw [AList.lookup_insert, AList.lookup_eq_none.2 hmem, Option.none_or]
    · rw [List.dlookup_cons_ne _ _ hne, merge]
      split
      · rfl
      · rw [AList.lookup_insert_ne hne]

/-- A diff with the entry of a key. -/
def saved (diffMap : DiffMap κ ν) (k : κ) (elements : κ → Option ν) : DiffMap κ ν :=
  if k ∈ diffMap then diffMap else diffMap.insert k (elements k)

theorem mem_saved {diffMap : DiffMap κ ν} {k k' : κ} {elements : κ → Option ν} :
    k' ∈ saved diffMap k elements ↔ k' = k ∨ k' ∈ diffMap := by
  unfold saved
  split
  · next hmem =>
    refine ⟨.inr, ?_⟩
    rintro (rfl | h)
    · exact hmem
    · exact h
  · exact AList.mem_insert _

theorem undo_saved (diffMap : DiffMap κ ν) (k : κ) (elements : κ → Option ν) (new : Option ν) :
    undo (saved diffMap k elements) (Function.update elements k new) = undo diffMap elements := by
  funext k'
  rcases eq_or_ne k' k with rfl | hne
  · unfold saved
    split
    · next hmem =>
      obtain ⟨old, hold⟩ := Option.isSome_iff_exists.1 (AList.lookup_isSome.2 hmem)
      rw [undo, undo, hold, Option.getD_some, Option.getD_some]
    · next hmem =>
      rw [undo_of_notMem hmem, undo, AList.lookup_insert, Option.getD_some]
  · rw [undo, undo, Function.update_of_ne hne]
    unfold saved
    split
    · rfl
    · rw [AList.lookup_insert_ne hne]

end Cache

/-- **What a cache is for**: the elements, and the keys that were written since
the last flush. -/
structure CacheView (κ ν : Type) where
  elements : κ → Option ν
  written : Finset κ

/-- An element is written. -/
def CacheView.put {κ ν : Type} [DecidableEq κ] (s : CacheView κ ν) (address : κ) (elem : ν) :
    CacheView κ ν :=
  ⟨Function.update s.elements address (some elem), insert address s.written⟩

/-- A call. -/
def CacheView.call {κ ν α : Type} [DecidableEq κ] (element : Option α → ν) (s : CacheView κ ν) :
    CacheCall κ α → CacheView κ ν
  | .put address value => s.put address (element value)
  | .del address => s.put address (element none)
  | .get _ => s
  | .flush => { s with written := ∅ }

/-- No call was made. -/
def CacheView.empty {κ ν : Type} : CacheView κ ν := ⟨fun _ => none, ∅⟩

/-- **The elements, and the keys that were written since the last flush**, after
some calls: a revert takes back what was written since its checkpoint. -/
def CacheView.after {κ ν α : Type} [DecidableEq κ] (element : Option α → ν)
    (ops : List (SnapshotOp (CacheCall κ α))) : CacheView κ ν :=
  (ops.foldl (Snapshots.step fun s w => s.call element w) ⟨.empty, []⟩).current

namespace Cache

variable {κ ν α : Type} [DecidableEq κ]
variable {c : Cache (LruCache.orderedMap κ ν)} {diffMap lower : DiffMap κ ν}
variable {diffs : List (DiffMap κ ν)} {s t : CacheView κ ν} {saved : List (CacheView κ ν)}

/-- **The diffs are in levels**: undoing the last leads to what was saved, and
they have the keys that were written since then. -/
inductive Levels : List (DiffMap κ ν) → CacheView κ ν → List (CacheView κ ν) → Prop
  | ground {diffMap : DiffMap κ ν} {s : CacheView κ ν}
      (hwritten : ∀ k, k ∈ s.written ↔ k ∈ diffMap)
      (hheld : ∀ k ∈ diffMap, (s.elements k).isSome) : Levels [diffMap] s []
  | level {diffMap : DiffMap κ ν} {diffs : List (DiffMap κ ν)} {s t : CacheView κ ν}
      {saved : List (CacheView κ ν)} (hrest : Levels diffs t saved)
      (hundo : undo diffMap s.elements = t.elements)
      (hwritten : ∀ k, k ∈ s.written ↔ k ∈ t.written ∨ k ∈ diffMap)
      (hheld : ∀ k ∈ diffMap, (s.elements k).isSome) : Levels (diffMap :: diffs) s (t :: saved)

theorem isSome_put {k k' : κ} {elem : ν} (h : k' = k ∨ (s.elements k').isSome) :
    ((s.put k elem).elements k').isSome := by
  rcases eq_or_ne k' k with rfl | hne
  · simp [CacheView.put]
  · rw [CacheView.put]
    dsimp only
    rw [Function.update_of_ne hne]
    exact h.resolve_left hne

theorem Levels.put (h : Levels (diffMap :: diffs) s saved) (k : κ) (elem : ν) :
    Levels (Cache.saved diffMap k s.elements :: diffs) (s.put k elem) saved := by
  rcases h with ⟨hwritten, hheld⟩ | ⟨hrest, hundo, hwritten, hheld⟩
  · refine .ground (fun k' => ?_) fun k' hk' => isSome_put ((mem_saved.1 hk').imp_right (hheld k'))
    rw [CacheView.put, Finset.mem_insert, hwritten, mem_saved]
  · refine .level hrest ((undo_saved _ _ _ _).trans hundo) (fun k' => ?_)
      fun k' hk' => isSome_put ((mem_saved.1 hk').imp_right (hheld k'))
    rw [CacheView.put, Finset.mem_insert, hwritten, mem_saved, or_left_comm]

theorem Levels.checkpoint (h : Levels diffs s saved) : Levels (∅ :: diffs) s (s :: saved) :=
  .level h (undo_empty _) (fun k => by simp [AList.notMem_empty]) fun k hk =>
    absurd hk (AList.notMem_empty k)

theorem Levels.commit (h : Levels (diffMap :: lower :: diffs) s saved) :
    Levels (diffMap.entries.reverse.foldl merge lower :: diffs) s saved.tail := by
  have hlookup (k : κ) : (diffMap.entries.reverse.foldl merge lower).lookup k =
      (lower.lookup k).or (diffMap.lookup k) := by
    rw [foldl_merge (nodupKeys_reverse diffMap), dlookup_reverse]
  have hmem (k : κ) : k ∈ diffMap.entries.reverse.foldl merge lower ↔
      k ∈ lower ∨ k ∈ diffMap := by
    rw [← AList.lookup_isSome, hlookup, Option.isSome_or, Bool.or_eq_true, AList.lookup_isSome,
      AList.lookup_isSome]
  rcases h with _ | @⟨_, _, _, t, saved, hrest, hundo, hwritten, hheld⟩
  -- What the lower level holds is held, above it or not.
  have hlower (hheld' : ∀ k ∈ lower, (t.elements k).isSome) (k : κ)
      (hk : k ∈ diffMap.entries.reverse.foldl merge lower) : (s.elements k).isSome := by
    by_cases hd : k ∈ diffMap
    · exact hheld k hd
    · rw [← undo_of_notMem hd s.elements, hundo]
      exact hheld' k (((hmem k).1 hk).resolve_right hd)
  rcases hrest with ⟨hwritten', hheld'⟩ | @⟨_, _, _, t', saved, hrest', hundo', hwritten', hheld'⟩
  · refine .ground (fun k => ?_) (hlower hheld')
    rw [hwritten, hwritten', hmem]
  · refine .level hrest' ?_ (fun k => ?_) (hlower hheld')
    · rw [← hundo', ← hundo]
      funext k
      rw [undo, undo, undo, hlookup]
      rcases lower.lookup k with _ | old
      · rw [Option.none_or, Option.getD_none]
      · rw [Option.some_or, Option.getD_some, Option.getD_some]
    · rw [hwritten, hwritten', hmem, or_assoc]

/-! ## Every run -/

/-- **The cache stands for its elements**, and those that were saved. -/
def Stands (c : Cache (LruCache.orderedMap κ ν)) (s : Snapshots (CacheView κ ν)) : Prop :=
  elements c.store = s.current.elements ∧ Levels c._diffCache s.current s.saved

theorem Levels.exists_cons (h : Levels diffs s saved) : ∃ diffMap lower, diffs = diffMap :: lower := by
  rcases h with _ | _
  · exact ⟨_, _, rfl⟩
  · exact ⟨_, _, rfl⟩

theorem put_eq (hdiffs : c._diffCache = diffMap :: diffs) (k : κ) (elem : ν) :
    elements (c.put k elem).store = Function.update (elements c.store) k (some elem) ∧
      (c.put k elem)._diffCache = Cache.saved diffMap k (elements c.store) :: diffs := by
  unfold put _saveCachePreState Cache.saved
  rw [hdiffs]
  dsimp only
  split
  · exact ⟨elements_set _ _ _, hdiffs⟩
  · exact ⟨elements_set _ _ _, rfl⟩

theorem Stands.put {s : Snapshots (CacheView κ ν)} (h : Stands c s) (k : κ) (elem : ν) :
    Stands (c.put k elem) { s with current := s.current.put k elem } := by
  obtain ⟨helements, hlevels⟩ := h
  obtain ⟨diffMap, diffs, hdiffs⟩ := hlevels.exists_cons
  rw [hdiffs] at hlevels
  obtain ⟨hput, hdiffs'⟩ := put_eq hdiffs k elem
  rw [helements] at hput hdiffs'
  refine ⟨hput, ?_⟩
  rw [hdiffs']
  exact hlevels.put k elem

theorem Stands.checkpoint {s : Snapshots (CacheView κ ν)} (h : Stands c s) :
    Stands c.checkpoint { s with saved := s.current :: s.saved } :=
  ⟨h.1, h.2.checkpoint⟩

theorem Stands.commit {s : Snapshots (CacheView κ ν)} (h : Stands c s) (hne : s.saved ≠ []) :
    Stands c.commit { s with saved := s.saved.tail } := by
  obtain ⟨s, saved⟩ := s
  obtain ⟨helements, hlevels⟩ := h
  refine ⟨?_, ?_⟩
  · unfold Cache.commit
    split
    · exact helements
    · exact helements
  · change Levels c.commit._diffCache s saved.tail
    unfold Cache.commit
    dsimp only at hlevels hne
    rcases hdiffs : c._diffCache with _ | ⟨diffMap, _ | ⟨lower, diffs⟩⟩
    · rw [hdiffs] at hlevels
      cases hlevels
    · rw [hdiffs] at hlevels
      rcases hlevels with _ | @⟨_, _, _, _, _, hrest, _⟩
      · exact absurd rfl hne
      · cases hrest
    · rw [hdiffs] at hlevels
      exact hlevels.commit

theorem Stands.revert {s : Snapshots (CacheView κ ν)} (h : Stands c s) (hne : s.saved ≠ []) :
    Stands c.revert ⟨s.saved.head?.getD s.current, s.saved.tail⟩ := by
  obtain ⟨s, saved⟩ := s
  obtain ⟨helements, hlevels⟩ := h
  dsimp only at hne helements hlevels
  unfold Cache.revert
  generalize c._diffCache = diffs at hlevels
  rcases hlevels with _ | @⟨diffMap, diffs, _, t, saved, hrest, hundo, -, -⟩
  · exact absurd rfl hne
  · refine ⟨?_, hrest⟩
    funext k
    dsimp only
    rw [foldl_restore (nodupKeys_reverse diffMap), dlookup_reverse, helements, ← undo, hundo]
    rfl

theorem Stands.saved_eq_nil {s : Snapshots (CacheView κ ν)} (h : Stands c s)
    (hground : c._checkpoints = 0) : s.saved = [] := by
  obtain ⟨s, saved⟩ := s
  obtain ⟨-, hlevels⟩ := h
  dsimp only at hlevels ⊢
  rw [_checkpoints] at hground
  generalize c._diffCache = diffs at hlevels hground
  rcases hlevels with _ | ⟨hrest, -, -, -⟩
  · rfl
  · obtain ⟨lower, diffs, rfl⟩ := hrest.exists_cons
    rw [List.length_cons, List.length_cons] at hground
    omega

theorem Stands.flush (h : Stands c ⟨s, []⟩) : Stands c.flush.2 ⟨{ s with written := ∅ }, []⟩ := by
  obtain ⟨helements, hlevels⟩ := h
  dsimp only at helements hlevels
  unfold Cache.flush
  rcases hdiffs : c._diffCache with _ | ⟨diffMap, diffs⟩
  · rw [hdiffs] at hlevels
    cases hlevels
  · rw [hdiffs] at hlevels
    rcases hlevels with _ | _
    refine ⟨?_, .ground (fun k => ?_) fun k hk => absurd hk (AList.notMem_empty k)⟩
    · funext k
      exact (holds_collect _ _ k).trans (congrFun helements k)
    · exact iff_of_false (Finset.notMem_empty k) (AList.notMem_empty k)

theorem Stands.mem_flush (h : Stands c ⟨s, []⟩) (k : κ) (elem : ν) :
    (k, elem) ∈ c.flush.1 ↔ k ∈ s.written ∧ s.elements k = some elem := by
  obtain ⟨helements, hlevels⟩ := h
  dsimp only at helements hlevels
  obtain ⟨diffMap, lower, hdiffs⟩ := hlevels.exists_cons
  rw [Cache.mem_flush hdiffs]
  rw [hdiffs] at hlevels
  rcases hlevels with ⟨hwritten, -⟩
  rw [hwritten, ← helements]
  exact Iff.rfl

/-- A call is made where a flush may be: not above a checkpoint. -/
def FlushedBelow (c : Cache (LruCache.orderedMap κ ν)) (op : SnapshotOp (CacheCall κ α)) : Prop :=
  op = .write .flush → c._checkpoints = 0

theorem follows (element : Option α → ν) :
    FollowsSnapshots (fun (s : CacheView κ ν) w => s.call element w) (Cache.step element) Stands FlushedBelow where
  onWrite := by
    rintro c s (⟨k, value⟩ | k | k | _) h hfine
    · exact h.put k _
    · exact h.put k _
    · exact h
    · obtain ⟨s, saved⟩ := s
      obtain rfl : saved = [] := h.saved_eq_nil (hfine rfl)
      exact h.flush
  onCheckpoint := by
    rintro c s h -
    exact h.checkpoint
  onCommit := by
    rintro c s h - hne
    exact h.commit hne
  onRevert := by
    rintro c s h - hne
    exact h.revert hne

/-- An ordered-map cache after some calls. -/
def after (element : Option α → ν) (ops : List (SnapshotOp (CacheCall κ α))) :
    Cache (LruCache.orderedMap κ ν) :=
  ops.foldl (step element) new

theorem stands_new : Stands (new : Cache (LruCache.orderedMap κ ν)) ⟨.empty, []⟩ :=
  ⟨rfl, .ground (fun k => iff_of_false (Finset.notMem_empty k) (AList.notMem_empty k))
    fun k hk => absurd hk (AList.notMem_empty k)⟩

theorem get_fst (c : Cache (LruCache.orderedMap κ ν)) (k : κ) : (c.get k).1 = elements c.store k :=
  rfl

/-- **An ordered-map cache is right**, of accounts and of codes (`AccountCache.step`
and `CodeCache.step`): whatever is written, committed or reverted in between, a
revert restores what is read to what it was at its checkpoint; and a flush
without an open checkpoint returns the keys that were written since the last
one, each once with what is read of it, and of all these there is something to
read. -/
theorem revert_flush_correct (element : Option α → ν) :
    (∀ pre body : List (SnapshotOp (CacheCall κ α)), Nested pre → Matched body →
      AllFine (step element) FlushedBelow new (pre ++ reverted body) →
      ∀ k, ((after element (pre ++ reverted body)).get k).1 = ((after element pre).get k).1) ∧
    ∀ ops : List (SnapshotOp (CacheCall κ α)), Matched ops →
      AllFine (step element) FlushedBelow new ops →
      let c := after element ops
      (c.flush.1.map Prod.fst).Nodup ∧
        (∀ k elem, (k, elem) ∈ c.flush.1 ↔
          k ∈ (CacheView.after element ops).written ∧ (c.get k).1 = some elem) ∧
        ∀ k ∈ (CacheView.after element ops).written, ((c.get k).1).isSome := by
  constructor
  · intro pre body hpre hbody hfine k
    obtain ⟨s, hbefore, hafter⟩ := (follows element).exists_restored stands_new hpre hbody hfine
    rw [get_fst, get_fst, after, after, hbefore.1, hafter.1]
  · intro ops hmatched hfine c
    have hstands := (follows element).foldl stands_new hmatched hfine
    have hground := Snapshots.length_saved (fun s w => s.call element w)
      (⟨.empty, []⟩ : Snapshots (CacheView κ ν)) hmatched
    obtain ⟨helements, hlevels⟩ := hstands
    rw [List.eq_nil_of_length_eq_zero hground] at hlevels
    change elements c.store = (CacheView.after element ops).elements at helements
    change Levels c._diffCache (CacheView.after element ops) [] at hlevels
    generalize CacheView.after element ops = s at helements hlevels
    rcases hdiffs : c._diffCache with _ | ⟨diffMap, diffs⟩
    · rw [hdiffs] at hlevels
      cases hlevels
    · rw [hdiffs] at hlevels
      rcases hlevels with ⟨hwritten, hheld⟩
      refine ⟨nodup_flush, fun k elem => ?_, fun k hk => ?_⟩
      · rw [mem_flush hdiffs, hwritten]
        exact Iff.rfl
      · rw [get_fst, helements]
        exact hheld k ((hwritten k).1 hk)

/-- A flush, and a value that is written, then deleted above a checkpoint. -/
def flushedCalls {α : Type} (value : α) : List (SnapshotOp (CacheCall Bytes20 α)) :=
  [.write (.put (repeated 1) (some value)), .write .flush,
    .write (.put (repeated 2) (some value))]

/-- Above a checkpoint it is deleted. -/
def deletedCalls {α : Type} : List (SnapshotOp (CacheCall Bytes20 α)) :=
  [.write (.del (repeated 2)), .checkpoint,
    .write (.del (repeated 3)), .commit]

/-- A deleted account and a deleted code come back, and are flushed. -/
theorem revert_flush_correct_deleted :
    (((flushedCalls Account.new ++ reverted deletedCalls).foldl AccountCache.step new).get
        (C := LruCache.orderedMap _ _) (repeated 2)).1 =
        some (.of (some Account.new)) ∧
      ((((flushedCalls [0x60]).foldl CodeCache.step new).flush (C := LruCache.orderedMap _ _)).1.map
        Prod.fst).Nodup := by
  have hfine {α ν : Type} (element : Option α → ν) (value : α) :
      AllFine (step element) FlushedBelow new (flushedCalls value ++ reverted deletedCalls) := by
    refine allFine_cons.2 ⟨nofun, allFine_cons.2 ⟨fun _ => rfl, ?_⟩⟩
    repeat refine allFine_cons.2 ⟨nofun, ?_⟩
    exact allFine_nil
  constructor
  · have h := (revert_flush_correct AccountCacheElement.of).1 (flushedCalls Account.new)
      deletedCalls ⟨0, rfl⟩ rfl (hfine _ _) (repeated 2)
    exact h
  · exact ((revert_flush_correct CodeCacheElement.mk).2 (flushedCalls [0x60]) rfl
      (hfine _ _).of_append.1).1

end Cache

end TsEthereum
