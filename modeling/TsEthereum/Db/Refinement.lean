import TsEthereum.Common.MapStack
import TsEthereum.Db.CheckpointDb

/-!
# `CheckpointDB` refines a stack of maps

`abs` reads a stack of maps off a `CheckpointDB`: each open checkpoint sees
the diff maps from its own down to the store. Every call follows the
reference (`abs_step`), with or without a cache, because the cache holds
no state of the stack. Without one a read answers from the top of the
stack, and what it notes in the innermost diff map is what the stack
already says (`abs_getUncached`).
-/

namespace TsEthereum

namespace CheckpointDB

variable {C : LruCache Bytes Bytes}

/-- What a read finds past the cache. -/
def view (checkpoints : List Checkpoint) (db : MapDB) (key : Bytes) : Option Bytes :=
  (lookupDiffs checkpoints key).getD (db.get key)

/-- The maps the open checkpoints were made at. -/
def views : List Checkpoint → MapDB → List (Bytes → Option Bytes)
  | [], _ => []
  | _ :: cs, db => view cs db :: views cs db

/-- **The stack of maps a `CheckpointDB` stands for.** -/
def abs (s : CheckpointDB C) : MapStack Bytes Bytes :=
  ⟨view s.checkpoints s.db, views s.checkpoints s.db⟩

/-- One operation of a batch, on a map. -/
def applyToMap (m : Bytes → Option Bytes) : BatchDBOp → Bytes → Option Bytes
  | .put key value => Function.update m key (some value)
  | .del key => Function.update m key none

/-- **The reference**: the same calls on a stack of maps. -/
def refStep (m : MapStack Bytes Bytes) :
    CheckpointOp → Except CheckpointError (MapStack Bytes Bytes)
  | .get _ => .ok m
  | .put key value => .ok (m.modify fun f => Function.update f key (some value))
  | .del key => .ok (m.modify fun f => Function.update f key none)
  | .batch opStack => .ok (m.modify fun f => opStack.foldl applyToMap f)
  | .checkpoint _ => .ok m.checkpoint
  | .commit => m.commit .noCheckpoint
  | .revert => m.revert .noCheckpoint

/-! ## Reading through the diff maps -/

@[simp] theorem lookupDiffs_nil (key : Bytes) : lookupDiffs [] key = none := rfl

theorem lookupDiffs_cons (c : Checkpoint) (cs : List Checkpoint) (key : Bytes) :
    lookupDiffs (c :: cs) key = (c.keyValueMap.lookup key).or (lookupDiffs cs key) := by
  rw [lookupDiffs, List.findSome?_cons]
  cases c.keyValueMap.lookup key <;> rfl

@[simp] theorem view_nil (db : MapDB) : view [] db = db.get := rfl

theorem view_cons (c : Checkpoint) (cs : List Checkpoint) (db : MapDB) (key : Bytes) :
    view (c :: cs) db key = (c.keyValueMap.lookup key).getD (view cs db key) := by
  rw [view, lookupDiffs_cons, view]
  cases c.keyValueMap.lookup key <;> rfl

theorem view_checkpoint (root : Bytes) (cs : List Checkpoint) (db : MapDB) :
    view (⟨∅, root⟩ :: cs) db = view cs db := by
  funext key
  rw [view_cons, AList.lookup_empty, Option.getD_none]

theorem view_insert (c : Checkpoint) (cs : List Checkpoint) (db : MapDB) (key : Bytes)
    (value : Option Bytes) :
    view ({ c with keyValueMap := c.keyValueMap.insert key value } :: cs) db =
      Function.update (view (c :: cs) db) key value := by
  funext k
  by_cases h : k = key
  · subst h
    rw [view_cons, Function.update_self, AList.lookup_insert, Option.getD_some]
  · rw [view_cons, Function.update_of_ne h, AList.lookup_insert_ne h, ← view_cons]

theorem lookup_foldl_insert {l : List (Σ _ : Bytes, Option Bytes)} (hl : l.NodupKeys)
    (m : KeyValueMap) (key : Bytes) :
    (l.foldl (fun m e => m.insert e.1 e.2) m).lookup key =
      (l.dlookup key).or (m.lookup key) := by
  induction l generalizing m with
  | nil => rfl
  | cons e l ih =>
    obtain ⟨a, v⟩ := e
    obtain ⟨ha, hl⟩ := List.nodupKeys_cons.1 hl
    rw [List.foldl_cons, ih hl]
    by_cases h : key = a
    · subst h
      rw [List.dlookup_eq_none.2 ha, List.dlookup_cons_eq, AList.lookup_insert]
      rfl
    · rw [List.dlookup_cons_ne _ _ h, AList.lookup_insert_ne h]

theorem view_merge (c c' : Checkpoint) (cs : List Checkpoint) (db : MapDB) :
    view ({ c' with keyValueMap :=
        c.keyValueMap.entries.foldl (fun m e => m.insert e.1 e.2) c'.keyValueMap } :: cs) db =
      view (c :: c' :: cs) db := by
  funext key
  rw [view_cons, view_cons, view_cons, lookup_foldl_insert c.keyValueMap.nodupKeys]
  change ((c.keyValueMap.lookup key).or _).getD _ = _
  cases c.keyValueMap.lookup key <;> rfl

theorem get_batch (db : MapDB) (opStack : List BatchDBOp) :
    (db.batch opStack).get = opStack.foldl applyToMap db.get := by
  induction opStack generalizing db with
  | nil => rfl
  | cons op opStack ih =>
    rw [MapDB.batch, List.foldl_cons, List.foldl_cons]
    have hop : (db.apply op).get = applyToMap db.get op := by
      cases op with
      | put key value => exact MapDB.get_put db key value
      | del key => exact MapDB.get_del db key
    rw [← hop]
    exact ih (db.apply op)

theorem foldl_toBatchOp {l : List (Σ _ : Bytes, Option Bytes)} (hl : l.NodupKeys)
    (m : Bytes → Option Bytes) (key : Bytes) :
    (l.map toBatchOp).foldl applyToMap m key = (l.dlookup key).getD (m key) := by
  induction l generalizing m with
  | nil => rfl
  | cons e l ih =>
    obtain ⟨a, v⟩ := e
    obtain ⟨ha, hl⟩ := List.nodupKeys_cons.1 hl
    have hop : applyToMap m (toBatchOp ⟨a, v⟩) = Function.update m a v := by
      cases v <;> rfl
    rw [List.map_cons, List.foldl_cons, hop, ih hl]
    by_cases h : key = a
    · subst h
      rw [List.dlookup_eq_none.2 ha, List.dlookup_cons_eq, Function.update_self]
      rfl
    · rw [List.dlookup_cons_ne _ _ h, Function.update_of_ne h]

/-- **The last diff map, written to the store**, is what was seen through
it. -/
theorem get_flush (c : Checkpoint) (db : MapDB) :
    (db.batch (c.keyValueMap.entries.map toBatchOp)).get = view [c] db := by
  funext key
  rw [get_batch, foldl_toBatchOp c.keyValueMap.nodupKeys, view_cons, view_nil]
  rfl

/-! ## Every call follows the reference -/

@[simp] theorem abs_setCache (s : CheckpointDB C) (key : Bytes) (value : Option Bytes) :
    (s.setCache key value).abs = s.abs := rfl

theorem abs_setDiff {s : CheckpointDB C} (h : s.hasCheckpoints = true) (key : Bytes)
    (value : Option Bytes) :
    (s.setDiff key value).abs = s.abs.modify fun f => Function.update f key value := by
  obtain ⟨checkpoints, db, cache⟩ := s
  cases checkpoints with
  | nil => cases h
  | cons c cs => exact congrArg (MapStack.mk · _) (view_insert c cs db key value)

theorem abs_of_no_checkpoint {s : CheckpointDB C} (h : s.hasCheckpoints = false) :
    s.abs = ⟨s.db.get, []⟩ := by
  obtain ⟨checkpoints, db, cache⟩ := s
  cases checkpoints with
  | nil => rfl
  | cons c cs => cases h

theorem abs_write {s : CheckpointDB C} (h : s.hasCheckpoints = false) {db : MapDB}
    {f : (Bytes → Option Bytes) → Bytes → Option Bytes} (hdb : db.get = f s.db.get) :
    ({ s with db := db } : CheckpointDB C).abs = s.abs.modify f := by
  rw [abs_of_no_checkpoint h, abs_of_no_checkpoint
    (show ({ s with db := db } : CheckpointDB C).hasCheckpoints = false from h), hdb]
  rfl

theorem abs_put (s : CheckpointDB C) (key value : Bytes) :
    (s.put key value).abs = s.abs.modify fun f => Function.update f key (some value) := by
  unfold put
  cases h : s.hasCheckpoints with
  | true => exact abs_setDiff h key _
  | false =>
    rw [if_neg (by decide), abs_setCache]
    exact abs_write h (MapDB.get_put s.db key value)

theorem abs_del (s : CheckpointDB C) (key : Bytes) :
    (s.del key).abs = s.abs.modify fun f => Function.update f key none := by
  unfold del
  cases h : s.hasCheckpoints with
  | true => exact abs_setDiff h key _
  | false =>
    rw [if_neg (by decide), abs_setCache]
    exact abs_write h (MapDB.get_del s.db key)

theorem abs_apply (s : CheckpointDB C) (op : BatchDBOp) :
    (s.apply op).abs = s.abs.modify fun f => applyToMap f op := by
  cases op with
  | put key value => exact abs_put s key value
  | del key => exact abs_del s key

/-- **A batch changes the map in force by its operations**, whichever way
it takes. -/
theorem abs_batch (s : CheckpointDB C) (opStack : List BatchDBOp) :
    (s.batch opStack).abs = s.abs.modify fun f => opStack.foldl applyToMap f := by
  unfold batch
  cases h : s.hasCheckpoints with
  | true =>
    rw [if_pos rfl]
    clear h
    induction opStack generalizing s with
    | nil => rfl
    | cons op opStack ih =>
      rw [List.foldl_cons, ih, abs_apply]
      rfl
  | false =>
    rw [if_neg (by decide)]
    exact abs_write h (get_batch s.db opStack)

/-- **A read past the cache answers from the map in force.** -/
theorem getUncached_fst (s : CheckpointDB C) (key : Bytes) :
    (s.getUncached key).1 = s.abs.top key := by
  unfold getUncached
  change _ = (lookupDiffs s.checkpoints key).getD (s.db.get key)
  cases lookupDiffs s.checkpoints key <;> rfl

/-- **And leaves the stack as it was**: what it notes in the innermost diff
map is the value the map in force already has. -/
theorem abs_getUncached (s : CheckpointDB C) (key : Bytes) : (s.getUncached key).2.abs = s.abs := by
  unfold getUncached
  cases hl : lookupDiffs s.checkpoints key with
  | some value => rfl
  | none =>
    change ((s.setCache key (s.db.get key)).setDiff key (s.db.get key)).abs = s.abs
    cases h : s.hasCheckpoints with
    | false =>
      obtain ⟨checkpoints, db, cache⟩ := s
      cases checkpoints with
      | nil => rfl
      | cons c cs => cases h
    | true =>
      have hval : s.abs.top key = s.db.get key := by
        change (lookupDiffs s.checkpoints key).getD (s.db.get key) = _
        rw [hl, Option.getD_none]
      rw [abs_setDiff (show (s.setCache key (s.db.get key)).hasCheckpoints = true from h),
        abs_setCache, ← hval, MapStack.modify, Function.update_eq_self]

theorem abs_get (s : CheckpointDB C) (key : Bytes) : (s.get key).2.abs = s.abs := by
  unfold get
  split
  · exact abs_getUncached s key
  · split
    · rfl
    · exact abs_getUncached _ key

/-- A commit moves the innermost diff map down and changes nothing that is
seen. -/
theorem abs_commit (s : CheckpointDB C) :
    s.commit.map abs = s.abs.commit CheckpointError.noCheckpoint := by
  obtain ⟨checkpoints, db, cache⟩ := s
  match checkpoints with
  | [] => rfl
  | [c] =>
    change Except.ok (MapStack.mk (db.batch (c.keyValueMap.entries.map toBatchOp)).get []) = _
    rw [get_flush]
    rfl
  | c :: c' :: cs =>
    change Except.ok (MapStack.mk (view (_ :: cs) db) (views (c' :: cs) db)) = _
    rw [view_merge]
    rfl

theorem abs_step (s : CheckpointDB C) (op : CheckpointOp) :
    (s.step op).map abs = refStep s.abs op := by
  cases op with
  | get key => exact congrArg Except.ok (abs_get s key)
  | put key value => exact congrArg Except.ok (abs_put s key value)
  | del key => exact congrArg Except.ok (abs_del s key)
  | batch opStack => exact congrArg Except.ok (abs_batch s opStack)
  | checkpoint root =>
    exact congrArg (fun m => Except.ok (MapStack.mk m _)) (view_checkpoint root s.checkpoints s.db)
  | commit => exact abs_commit s
  | revert =>
    obtain ⟨checkpoints, db, cache⟩ := s
    cases checkpoints <;> rfl

theorem abs_run (s : CheckpointDB C) (ops : List CheckpointOp) :
    (run step s ops).map abs = run refStep s.abs ops :=
  run_sim abs_step s ops

/-! ## The store under open checkpoints -/

theorem apply_of_open {s : CheckpointDB C} (h : s.hasCheckpoints = true) (op : BatchDBOp) :
    (s.apply op).db = s.db ∧ (s.apply op).hasCheckpoints = true := by
  obtain ⟨checkpoints, db, cache⟩ := s
  cases checkpoints with
  | nil => cases h
  | cons c cs => cases op <;> exact ⟨rfl, rfl⟩

theorem db_foldl_apply {s : CheckpointDB C} (h : s.hasCheckpoints = true)
    (opStack : List BatchDBOp) : (opStack.foldl apply s).db = s.db := by
  induction opStack generalizing s with
  | nil => rfl
  | cons op opStack ih =>
    obtain ⟨hdb, hopen⟩ := apply_of_open h op
    rw [List.foldl_cons, ih hopen, hdb]

@[simp] theorem db_get (s : CheckpointDB C) (key : Bytes) : (s.get key).2.db = s.db := by
  have hun (t : CheckpointDB C) : (t.getUncached key).2.db = t.db := by
    unfold getUncached
    split <;> rfl
  unfold get
  split
  · exact hun s
  · split
    · rfl
    · exact hun _

/-- **Only a call made with no checkpoint open, or the commit of the last
one, writes to the store.** -/
theorem db_step {s s' : CheckpointDB C} {op : CheckpointOp} (h : s.step op = .ok s')
    (hdb : s'.db ≠ s.db) : s.checkpoints = [] ∨ op = .commit ∧ s'.checkpoints = [] := by
  by_contra hno
  obtain ⟨hopen, hlast⟩ := not_or.1 hno
  have hhas : s.hasCheckpoints = true := by
    obtain ⟨checkpoints, db, cache⟩ := s
    cases checkpoints with
    | nil => exact absurd rfl hopen
    | cons c cs => rfl
  refine hdb ?_
  cases op with
  | get key =>
    cases h
    exact db_get s key
  | put key value =>
    cases h
    exact (apply_of_open hhas (.put key value)).1
  | del key =>
    cases h
    exact (apply_of_open hhas (.del key)).1
  | batch opStack =>
    cases h
    rw [batch, if_pos hhas]
    exact db_foldl_apply hhas opStack
  | checkpoint root =>
    cases h
    rfl
  | commit =>
    obtain ⟨checkpoints, db, cache⟩ := s
    match checkpoints with
    | [] => exact absurd rfl hopen
    | [c] =>
      refine absurd ⟨rfl, ?_⟩ hlast
      cases h
      rfl
    | c :: c' :: cs =>
      cases h
      rfl
  | revert =>
    obtain ⟨checkpoints, db, cache⟩ := s
    match checkpoints with
    | [] => exact absurd rfl hopen
    | c :: cs =>
      cases h
      rfl

/-! ## Without a cache -/

theorem _cache_apply {s : CheckpointDB C} (hs : s._cache = none) (op : BatchDBOp) :
    (s.apply op)._cache = none := by
  obtain ⟨checkpoints, db, cache⟩ := s
  cases hs
  cases checkpoints <;> cases op <;> rfl

theorem _cache_batch {s : CheckpointDB C} (hs : s._cache = none) (opStack : List BatchDBOp) :
    (s.batch opStack)._cache = none := by
  unfold batch
  split
  · rename_i h
    clear h
    induction opStack generalizing s with
    | nil => exact hs
    | cons op opStack ih => exact ih (_cache_apply hs op)
  · exact hs

theorem _cache_step {s s' : CheckpointDB C} {op : CheckpointOp} (hs : s._cache = none)
    (h : s.step op = .ok s') : s'._cache = none := by
  cases op with
  | get key =>
    cases h
    obtain ⟨checkpoints, db, cache⟩ := s
    cases hs
    change (getUncached _ key).2._cache = none
    unfold getUncached
    split <;> rfl
  | put key value =>
    cases h
    exact _cache_apply hs (.put key value)
  | del key =>
    cases h
    exact _cache_apply hs (.del key)
  | batch opStack =>
    cases h
    exact _cache_batch hs opStack
  | checkpoint root =>
    cases h
    exact hs
  | commit =>
    obtain ⟨checkpoints, db, cache⟩ := s
    cases hs
    match checkpoints with
    | [] => cases h
    | [c] =>
      cases h
      exact _cache_batch rfl _
    | c :: c' :: cs =>
      cases h
      rfl
  | revert =>
    obtain ⟨checkpoints, db, cache⟩ := s
    match checkpoints with
    | [] => cases h
    | c :: cs =>
      cases h
      exact hs

theorem get_fst_of_no_cache {s : CheckpointDB C} (hs : s._cache = none) (key : Bytes) :
    (s.get key).1 = s.abs.top key := by
  rw [get, hs]
  exact getUncached_fst s key

/-- **`CheckpointDB` refines a stack of maps.** With `cacheSize` 0 and from
any store, a run throws exactly when the reference does, and otherwise
ends in a state that stands for the reference's: every read returns what
the top of the stack holds and changes no later result, the store equals
the map in force when no checkpoint is open, and the next call writes to
the store only then or as the commit of the last checkpoint. -/
theorem checkpointDb_refines (db : MapDB) (ops : List CheckpointOp) :
    (run step (uncached db : CheckpointDB C) ops).map abs = run refStep ⟨db.get, []⟩ ops ∧
      ∀ s, run step (uncached db : CheckpointDB C) ops = .ok s →
        (∀ key, (s.get key).1 = s.abs.top key) ∧
        (∀ key rest, (run step (s.get key).2 rest).map abs = (run step s rest).map abs) ∧
        (s.checkpoints = [] → s.db.get = s.abs.top) ∧
        ∀ op s', s.step op = .ok s' → s'.db ≠ s.db →
          s.checkpoints = [] ∨ op = .commit ∧ s'.checkpoints = [] := by
  refine ⟨abs_run _ ops, fun s hs => ?_⟩
  have hcache : s._cache = none :=
    run_inv (fun _ _ _ => _cache_step) (show (uncached db : CheckpointDB C)._cache = none from rfl)
      hs
  refine ⟨get_fst_of_no_cache hcache, fun key rest => ?_, fun hnone => ?_, fun op s' => db_step⟩
  · rw [abs_run, abs_run, abs_get]
  · rw [abs_of_no_checkpoint (by rw [hasCheckpoints, hnone]; rfl)]

end CheckpointDB

end TsEthereum
