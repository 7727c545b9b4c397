import TsEthereum.Db.Refinement

/-!
# When the read cache is unobservable

The cache is asked before the diff maps, filled by reads of the store, and
updated by `put` and `del` while no checkpoint is open. A write under an
open checkpoint and every batch go past it. `KeepsCached` says that such a
write leaves the value of every cached key as it is, and
`cache_unobservable_iff` that a run whose steps all do so is exactly one
in which no read can tell the cache is there.
-/

namespace TsEthereum

namespace CheckpointDB

variable {C : LruCache Bytes Bytes}

/-- What the cache holds under a key. -/
def cacheHolds (s : CheckpointDB C) (key : Bytes) : Option Bytes :=
  s._cache.bind fun cache => C.holds cache key

/-- The operations a call performs without telling the cache. -/
def writesPastCache (s : CheckpointDB C) : CheckpointOp → List BatchDBOp
  | .put key value => if s.hasCheckpoints then [.put key value] else []
  | .del key => if s.hasCheckpoints then [.del key] else []
  | .batch opStack => opStack
  | _ => []

/-- **The call leaves the value of every cached key as the cache has it.** -/
def KeepsCached (s : CheckpointDB C) (op : CheckpointOp) : Prop :=
  ∀ key value, s.cacheHolds key = some value →
    (s.writesPastCache op).foldl applyToMap s.abs.top key = some value

/-- **Coherence**: the store and every diff map that has a cached key agree
with the cache on it. -/
structure Coherent (s : CheckpointDB C) : Prop where
  db : ∀ key value, s.cacheHolds key = some value → s.db.get key = some value
  diffs : ∀ key value, s.cacheHolds key = some value → ∀ c ∈ s.checkpoints, ∀ w,
    c.keyValueMap.lookup key = some w → w = some value

theorem get_fst (s : CheckpointDB C) (key : Bytes) :
    (s.get key).1 = (s.cacheHolds key).or (s.abs.top key) := by
  obtain ⟨checkpoints, db, cache⟩ := s
  cases cache with
  | none => exact getUncached_fst _ key
  | some cache =>
    have hget := C.get_fst cache key
    change _ = (C.holds cache key).or _
    rw [get]
    simp only
    rw [← hget]
    rcases C.get cache key with ⟨_ | v, cache'⟩
    · exact getUncached_fst _ key
    · rfl

theorem Coherent.view_eq {checkpoints : List Checkpoint} {db : MapDB} {key value : Bytes}
    (hdb : db.get key = some value)
    (hdiffs : ∀ c ∈ checkpoints, ∀ w, c.keyValueMap.lookup key = some w → w = some value) :
    view checkpoints db key = some value := by
  induction checkpoints with
  | nil => exact hdb
  | cons c cs ih =>
    rw [view_cons, ih (List.forall_mem_cons.1 hdiffs).2]
    cases hl : c.keyValueMap.lookup key with
    | none => rfl
    | some w => exact hdiffs c List.mem_cons_self w hl

theorem Coherent.top_eq {s : CheckpointDB C} (hs : s.Coherent) {key value : Bytes}
    (h : s.cacheHolds key = some value) : s.abs.top key = some value :=
  view_eq (hs.db key value h) (hs.diffs key value h)

theorem Coherent.get_fst_eq {s : CheckpointDB C} (hs : s.Coherent) (key : Bytes) :
    (s.get key).1 = s.abs.top key := by
  rw [get_fst]
  cases h : s.cacheHolds key with
  | none => rfl
  | some value => exact (hs.top_eq h).symm

/-! ## Writes past the cache -/

theorem foldl_apply_of_open (opStack : List BatchDBOp) (c : Checkpoint) (cs : List Checkpoint)
    (db : MapDB) (cache : Option C.State) :
    ∃ c', opStack.foldl apply (⟨c :: cs, db, cache⟩ : CheckpointDB C) = ⟨c' :: cs, db, cache⟩ := by
  induction opStack generalizing c with
  | nil => exact ⟨c, rfl⟩
  | cons op opStack ih => cases op <;> exact ih _

/-- A batch changes nothing but the innermost diff map, or the store when
there is none; in particular not the cache. -/
theorem batch_eq (s : CheckpointDB C) (opStack : List BatchDBOp) :
    (∃ c c' cs, s.checkpoints = c :: cs ∧ s.batch opStack = ⟨c' :: cs, s.db, s._cache⟩) ∨
      s.checkpoints = [] ∧ s.batch opStack = ⟨[], s.db.batch opStack, s._cache⟩ := by
  obtain ⟨checkpoints, db, cache⟩ := s
  cases checkpoints with
  | nil => exact .inr ⟨rfl, rfl⟩
  | cons c cs =>
    obtain ⟨c', hc'⟩ := foldl_apply_of_open opStack c cs db cache
    exact .inl ⟨c, c', cs, rfl, hc'⟩

/-- **A batch that keeps what is cached keeps coherence.** The innermost
diff map decides what is seen of the keys it has, and what is seen after
the batch is what the condition speaks of. -/
theorem Coherent.batch {s : CheckpointDB C} (hs : s.Coherent) {opStack : List BatchDBOp}
    (hk : ∀ key value, s.cacheHolds key = some value →
      opStack.foldl applyToMap s.abs.top key = some value) : (s.batch opStack).Coherent := by
  have habs := abs_batch s opStack
  rcases batch_eq s opStack with ⟨c, c', cs, hcs, hb⟩ | ⟨hcs, hb⟩
  · rw [hb] at habs ⊢
    refine ⟨hs.db, fun key value h d hd w hw => ?_⟩
    rcases List.mem_cons.1 hd with rfl | hd
    · have htop : view (d :: cs) s.db key = some value := by
        rw [← hk key value h]
        exact congrFun (congrArg MapStack.top habs) key
      rwa [view_cons, hw, Option.getD_some] at htop
    · exact hs.diffs key value h d (hcs ▸ List.mem_cons_of_mem _ hd) w hw
  · rw [hb] at habs ⊢
    refine ⟨fun key value h => ?_, fun key value h d hd => absurd hd List.not_mem_nil⟩
    rw [← hk key value h]
    exact congrFun (congrArg MapStack.top habs) key

/-! ## Calls the cache is told of -/

/-- What the cache holds after an entry was set is that entry, or was held
before. -/
theorem cacheHolds_setCache {s : CheckpointDB C} {key k v : Bytes} {value : Option Bytes}
    (h : (s.setCache key value).cacheHolds k = some v) :
    k = key ∧ value = some v ∨ k ≠ key ∧ s.cacheHolds k = some v := by
  obtain ⟨checkpoints, db, _ | cache⟩ := s
  · cases h
  · cases value with
    | none => exact .inr (C.holds_delete cache key k v h)
    | some value =>
      rcases C.holds_set cache key value k v h with ⟨hk, hv⟩ | ⟨hk, hv⟩
      · exact .inl ⟨hk, congrArg some hv.symm⟩
      · exact .inr ⟨hk, hv⟩

theorem Coherent.write {s : CheckpointDB C} (hs : s.Coherent) (hnone : s.checkpoints = [])
    {db : MapDB} {key : Bytes} {value : Option Bytes}
    (hdb : db.get = Function.update s.db.get key value) :
    (({ s with db := db } : CheckpointDB C).setCache key value).Coherent := by
  refine ⟨fun k v h => ?_, fun k v _ c hc => ?_⟩
  · change db.get k = some v
    rw [hdb]
    rcases cacheHolds_setCache h with ⟨rfl, hv⟩ | ⟨hk, hv⟩
    · rw [Function.update_self, hv]
    · rw [Function.update_of_ne hk]
      exact hs.db k v hv
  · change c ∈ s.checkpoints at hc
    rw [hnone] at hc
    exact absurd hc List.not_mem_nil

/-- **A read of the store keeps coherence**: the cache and the innermost
diff map both take the store's answer, which no diff map contradicts. -/
theorem Coherent.getUncached {s : CheckpointDB C} (hs : s.Coherent) (key : Bytes) :
    (s.getUncached key).2.Coherent := by
  unfold CheckpointDB.getUncached
  cases hl : lookupDiffs s.checkpoints key with
  | some value => exact hs
  | none =>
    change ((s.setCache key (s.db.get key)).setDiff key (s.db.get key)).Coherent
    have hnone (c : Checkpoint) (hc : c ∈ s.checkpoints) : c.keyValueMap.lookup key = none :=
      List.findSome?_eq_none_iff.1 hl c hc
    have hcase {k v : Bytes}
        (h : ((s.setCache key (s.db.get key)).setDiff key (s.db.get key)).cacheHolds k = some v) :
        k = key ∧ s.db.get key = some v ∨ k ≠ key ∧ s.cacheHolds k = some v :=
      cacheHolds_setCache h
    obtain ⟨checkpoints, db, cache⟩ := s
    refine ⟨fun k v h => ?_, fun k v h c hc w hw => ?_⟩
    · rcases hcase h with ⟨rfl, hv⟩ | ⟨-, hv⟩
      · exact hv
      · exact hs.db k v hv
    · cases checkpoints with
      | nil => exact absurd hc List.not_mem_nil
      | cons d ds =>
        rcases List.mem_cons.1 hc with rfl | hc
        · rcases hcase h with ⟨rfl, hv⟩ | ⟨hk, hv⟩
          · rw [AList.lookup_insert] at hw
            rw [← Option.some.inj hw, hv]
          · rw [AList.lookup_insert_ne hk] at hw
            exact hs.diffs k v hv d List.mem_cons_self w hw
        · have hmem : c ∈ d :: ds := List.mem_cons_of_mem _ hc
          rcases hcase h with ⟨rfl, -⟩ | ⟨-, hv⟩
          · rw [hnone c hmem] at hw
            cases hw
          · exact hs.diffs k v hv c hmem w hw

theorem Coherent.get {s : CheckpointDB C} (hs : s.Coherent) (key : Bytes) :
    (s.get key).2.Coherent := by
  obtain ⟨checkpoints, db, _ | cache⟩ := s
  · exact hs.getUncached key
  · -- a read changes at most the order of eviction
    have hread : ({ checkpoints, db, _cache := some (C.get cache key).2 } :
        CheckpointDB C).Coherent := by
      refine ⟨fun k v h => hs.db k v ?_, fun k v h => hs.diffs k v ?_⟩ <;>
      · change C.holds (C.get cache key).2 k = some v at h
        rwa [C.holds_get] at h
    rw [CheckpointDB.get]
    simp only
    revert hread
    rcases C.get cache key with ⟨_ | v, cache'⟩ <;> intro hread
    · exact hread.getUncached key
    · exact hread

/-! ## Every call -/

theorem put_eq_batch {s : CheckpointDB C} (h : s.hasCheckpoints = true) (key value : Bytes) :
    s.put key value = s.batch [.put key value] := by
  rw [CheckpointDB.batch, if_pos h]
  rfl

theorem del_eq_batch {s : CheckpointDB C} (h : s.hasCheckpoints = true) (key : Bytes) :
    s.del key = s.batch [.del key] := by
  rw [CheckpointDB.batch, if_pos h]
  rfl

theorem checkpoints_of_not_open {s : CheckpointDB C} (h : s.hasCheckpoints = false) :
    s.checkpoints = [] := by
  simpa [hasCheckpoints] using h

theorem Coherent.commit {s s' : CheckpointDB C} (hs : s.Coherent) (h : s.commit = .ok s') :
    s'.Coherent := by
  obtain ⟨checkpoints, db, cache⟩ := s
  match checkpoints with
  | [] => cases h
  | [c] =>
    cases h
    refine ⟨fun key value hc => ?_, fun key value _ d hd => absurd hd List.not_mem_nil⟩
    change (db.batch (c.keyValueMap.entries.map toBatchOp)).get key = some value
    rw [get_flush]
    exact hs.top_eq hc
  | c :: c' :: cs =>
    cases h
    refine ⟨hs.db, fun key value hc d hd w hw => ?_⟩
    have hdiff (e : Checkpoint) (he : e ∈ c :: c' :: cs) := hs.diffs key value hc e he w
    rcases List.mem_cons.1 hd with rfl | hd
    · rw [lookup_foldl_insert c.keyValueMap.nodupKeys] at hw
      change (c.keyValueMap.lookup key).or (c'.keyValueMap.lookup key) = some w at hw
      rcases Option.or_eq_some_iff.1 hw with hw | ⟨-, hw⟩
      · exact hdiff c List.mem_cons_self hw
      · exact hdiff c' (List.mem_cons_of_mem _ List.mem_cons_self) hw
    · exact hdiff d (List.mem_cons_of_mem _ (List.mem_cons_of_mem _ hd)) hw

theorem Coherent.step {s s' : CheckpointDB C} {op : CheckpointOp} (hs : s.Coherent)
    (hk : s.KeepsCached op) (h : s.step op = .ok s') : s'.Coherent := by
  cases op with
  | get key =>
    cases h
    exact hs.get key
  | put key value =>
    cases h
    cases ho : s.hasCheckpoints with
    | true =>
      rw [put_eq_batch ho]
      exact hs.batch (by simpa only [KeepsCached, writesPastCache, if_pos ho] using hk)
    | false =>
      rw [CheckpointDB.put, if_neg (by rw [ho]; decide)]
      exact hs.write (checkpoints_of_not_open ho) (MapDB.get_put s.db key value)
  | del key =>
    cases h
    cases ho : s.hasCheckpoints with
    | true =>
      rw [del_eq_batch ho]
      exact hs.batch (by simpa only [KeepsCached, writesPastCache, if_pos ho] using hk)
    | false =>
      rw [CheckpointDB.del, if_neg (by rw [ho]; decide)]
      exact hs.write (checkpoints_of_not_open ho) (MapDB.get_del s.db key)
  | batch opStack =>
    cases h
    exact hs.batch hk
  | checkpoint root =>
    cases h
    refine ⟨hs.db, fun key value hc d hd w hw => ?_⟩
    rcases List.mem_cons.1 hd with rfl | hd
    · rw [AList.lookup_empty] at hw
      cases hw
    · exact hs.diffs key value hc d hd w hw
  | commit => exact hs.commit h
  | revert =>
    obtain ⟨checkpoints, db, cache⟩ := s
    cases checkpoints with
    | nil => cases h
    | cons c cs =>
      cases h
      exact ⟨hs.db, fun key value hc d hd => hs.diffs key value hc d (List.mem_cons_of_mem _ hd)⟩

/-- **A call that does not keep what is cached is found out by the next
read**: from a coherent state, if afterwards every read answers from the
map in force, the call kept what is cached. -/
theorem Coherent.keepsCached {s : CheckpointDB C} (hs : s.Coherent) {op : CheckpointOp}
    (h : ∀ s', s.step op = .ok s' → ∀ key, (s'.get key).1 = s'.abs.top key) :
    s.KeepsCached op := by
  -- a batch leaves the cache alone, so a stale entry answers the next read
  have hbatch {opStack : List BatchDBOp} (hget : ∀ key,
      ((s.batch opStack).get key).1 = (s.batch opStack).abs.top key) {key value : Bytes}
      (hc : s.cacheHolds key = some value) :
      opStack.foldl applyToMap s.abs.top key = some value := by
    have hsame : (s.batch opStack).cacheHolds key = some value := by
      rcases batch_eq s opStack with ⟨c, c', cs, -, hb⟩ | ⟨-, hb⟩ <;> rw [hb] <;> exact hc
    have hread := hget key
    rw [get_fst, hsame, abs_batch] at hread
    exact hread.symm
  intro key value hc
  cases op with
  | put k v =>
    cases ho : s.hasCheckpoints with
    | true =>
      rw [writesPastCache, if_pos ho]
      exact hbatch (put_eq_batch ho k v ▸ h _ rfl) hc
    | false =>
      rw [writesPastCache, if_neg (by rw [ho]; decide)]
      exact hs.top_eq hc
  | del k =>
    cases ho : s.hasCheckpoints with
    | true =>
      rw [writesPastCache, if_pos ho]
      exact hbatch (del_eq_batch ho k ▸ h _ rfl) hc
    | false =>
      rw [writesPastCache, if_neg (by rw [ho]; decide)]
      exact hs.top_eq hc
  | batch opStack => exact hbatch (h _ rfl) hc
  | get k => exact hs.top_eq hc
  | checkpoint root => exact hs.top_eq hc
  | commit => exact hs.top_eq hc
  | revert => exact hs.top_eq hc

/-! ## Whole runs -/

theorem coherent_cached (db : MapDB) : (cached db : CheckpointDB C).Coherent := by
  have hempty (key : Bytes) : (cached db : CheckpointDB C).cacheHolds key = none :=
    C.holds_empty key
  refine ⟨fun key value h => ?_, fun key value h => ?_⟩ <;>
  · rw [hempty] at h
    cases h

theorem no_cache_of_uncached {db : MapDB} {ops : List CheckpointOp} {s : CheckpointDB C}
    (h : run step (uncached db) ops = .ok s) : s._cache = none :=
  run_inv (fun _ _ _ => _cache_step) (show (uncached db : CheckpointDB C)._cache = none from rfl) h

theorem exists_uncached_of_cached {db : MapDB} {ops : List CheckpointOp} {s : CheckpointDB C}
    (h : run step (cached db) ops = .ok s) :
    ∃ s₀ : CheckpointDB C, run step (uncached db) ops = .ok s₀ ∧ s₀.abs = s.abs := by
  have hc := abs_run (cached db : CheckpointDB C) ops
  have hu := abs_run (uncached db : CheckpointDB C) ops
  rw [show (cached db : CheckpointDB C).abs = (uncached db : CheckpointDB C).abs from rfl, ← hu,
    h] at hc
  cases hr : run step (uncached db : CheckpointDB C) ops with
  | error e =>
    rw [hr] at hc
    cases hc
  | ok s₀ =>
    rw [hr] at hc
    exact ⟨s₀, rfl, (Except.ok.inj hc).symm⟩

/-- **When the cache is unobservable.** For every cache and every sequence
of calls: at every point of the run, every read returns what it would with
`cacheSize` 0, exactly when no call writes past the cache another value,
or a deletion, to a key the cache holds. -/
theorem cache_unobservable_iff (db : MapDB) (ops : List CheckpointOp) :
    (∀ pre, pre <+: ops → ∀ s s₀ : CheckpointDB C, run step (cached db) pre = .ok s →
        run step (uncached db) pre = .ok s₀ → ∀ key, (s.get key).1 = (s₀.get key).1) ↔
      ∀ pre op, pre ++ [op] <+: ops → ∀ s : CheckpointDB C, run step (cached db) pre = .ok s →
        s.KeepsCached op := by
  constructor
  · intro hobs
    -- coherence reaches the call in question because every earlier one was found clean
    have hread (pre : List CheckpointOp) (hpre : pre <+: ops) (s : CheckpointDB C)
        (hs : run step (cached db) pre = .ok s) (key : Bytes) : (s.get key).1 = s.abs.top key := by
      obtain ⟨s₀, hs₀, habs⟩ := exists_uncached_of_cached hs
      rw [hobs pre hpre s s₀ hs hs₀ key, get_fst_of_no_cache (no_cache_of_uncached hs₀), habs]
    have hcoh (pre : List CheckpointOp) :
        pre <+: ops → ∀ s : CheckpointDB C, run step (cached db) pre = .ok s → s.Coherent := by
      induction pre using List.reverseRecOn with
      | nil =>
        intro _ s hs
        cases hs
        exact coherent_cached db
      | append_singleton pre op ih =>
        intro hpre s hs
        have hpre' := (List.prefix_append pre [op]).trans hpre
        obtain ⟨u, hu, hop⟩ := bind_eq_ok.1 (run_concat _ pre op ▸ hs)
        refine (ih hpre' u hu).step ((ih hpre' u hu).keepsCached fun s' hs' => ?_) hop
        exact hread (pre ++ [op]) hpre s' (by rw [run_concat, hu]; exact hs')
    intro pre op hpre s hs
    refine (hcoh pre ((List.prefix_append pre [op]).trans hpre) s hs).keepsCached fun s' hs' => ?_
    exact hread (pre ++ [op]) hpre s' (by rw [run_concat, hs]; exact hs')
  · intro hkeep pre hpre s s₀ hs hs₀ key
    have hcoh : s.Coherent := by
      induction pre using List.reverseRecOn generalizing s s₀ with
      | nil =>
        cases hs
        exact coherent_cached db
      | append_singleton pre op ih =>
        obtain ⟨u, hu, hop⟩ := bind_eq_ok.1 (run_concat _ pre op ▸ hs)
        obtain ⟨u₀, hu₀, -⟩ := exists_uncached_of_cached hu
        exact (ih ((List.prefix_append pre [op]).trans hpre) u u₀ hu hu₀).step
          (hkeep pre op hpre u hu) hop
    obtain ⟨s₁, hs₁, habs⟩ := exists_uncached_of_cached hs
    cases hs₀.symm.trans hs₁
    rw [hcoh.get_fst_eq, get_fst_of_no_cache (no_cache_of_uncached hs₀), habs]

/-- **A stale read.** The cache of one entry takes the value put on disk,
the checkpoint's own write goes past it, and the read under the checkpoint
returns the old value: `cacheSize` 0 returns the new one. -/
theorem cache_stale_read :
    ∃ s s₀ : CheckpointDB (LruCache.lru Bytes Bytes 1),
      run step (cached MapDB.empty) [.put [7] [1], .checkpoint [], .put [7] [2]] = .ok s ∧
      run step (uncached MapDB.empty) [.put [7] [1], .checkpoint [], .put [7] [2]] = .ok s₀ ∧
      (s.get [7]).1 = some [1] ∧ (s₀.get [7]).1 = some [2] :=
  ⟨_, _, rfl, rfl, by decide, by decide⟩

end CheckpointDB

end TsEthereum
