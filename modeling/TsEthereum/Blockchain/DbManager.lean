import TsEthereum.Blockchain.Keys
import TsEthereum.Common.LruCache
import TsEthereum.Common.Runs
import Mathlib.Logic.Function.Basic

/-!
# The read caches of the block database

`db/manager.ts`: `get` asks a cache, awaits the database when it has no
entry, and fills the cache with the answer; `batch` updates the caches and
then awaits the database. Calls that overlap interleave at the awaits:
`step` is one of the moments a call goes on, or the database acts. An entry
is `Settled` when it is what the database will hold under its key once the
batches on their way are written, and a run that never makes an unsettled
entry ends with caches that agree with the database
(`caches_coherent_of_safe`).
-/

namespace TsEthereum.Blockchain

open TsEthereum

/-! ## Operations -/

/-- `DBTarget`, with the part of the `DatabaseKey` it reads. -/
inductive DBTarget where
  | heads
  | headHeader
  | headBlock
  | record (r : Record)
  deriving DecidableEq

/-- A key of the database: bytes, or a string as it is. -/
inductive DBKey where
  | bytes (b : Bytes)
  | string (s : String)
  deriving DecidableEq

/-- The names of the caches. -/
inductive CacheName where
  | td
  | header
  | body
  | numberToHash
  | hashToNumber
  deriving DecidableEq

def DBTarget.key : DBTarget → DBKey
  | .heads => .string HEADS_KEY
  | .headHeader => .string HEAD_HEADER_KEY
  | .headBlock => .string HEAD_BLOCK_KEY
  | .record r => .bytes r.key

def DBTarget.cacheString : DBTarget → Option CacheName
  | .record (.hashToNumber _) => some .hashToNumber
  | .record (.numberToHash _) => some .numberToHash
  | .record (.totalDifficulty _ _) => some .td
  | .record (.body _ _) => some .body
  | .record (.header _ _) => some .header
  | _ => none

/-- **`DBOp`**: `DBOp.set` with a value, and `DBOp.del` without. The heads are
the only value that is no `Uint8Array`, and they are not cached. -/
structure DBOp where
  target : DBTarget
  value : Option Bytes
  deriving DecidableEq

/-- What the batch leaves under a key, if it writes there. -/
def lastWrite (ops : List DBOp) (key : DBKey) : Option (Option Bytes) :=
  ops.foldl (fun last op => if op.target.key = key then some op.value else last) none

/-- `_db.batch`: the operations in their order. -/
def writeAll (db : DBKey → Option Bytes) (ops : List DBOp) : DBKey → Option Bytes :=
  ops.foldl (fun db op => Function.update db op.target.key op.value) db

theorem lastWrite_concat (ops : List DBOp) (op : DBOp) (key : DBKey) :
    lastWrite (ops ++ [op]) key =
      if op.target.key = key then some op.value else lastWrite ops key := by
  rw [lastWrite, List.foldl_append]
  rfl

theorem writeAll_concat (db : DBKey → Option Bytes) (ops : List DBOp) (op : DBOp) :
    writeAll db (ops ++ [op]) = Function.update (writeAll db ops) op.target.key op.value := by
  rw [writeAll, List.foldl_append]
  rfl

theorem writeAll_apply (db : DBKey → Option Bytes) (ops : List DBOp) (key : DBKey) :
    writeAll db ops key = (lastWrite ops key).getD (db key) := by
  induction ops using List.reverseRecOn with
  | nil => rfl
  | append_singleton ops op ih =>
    rw [writeAll_concat, lastWrite_concat]
    rcases eq_or_ne key op.target.key with rfl | hne
    · rw [Function.update_self, if_pos rfl, Option.getD_some]
    · rw [Function.update_of_ne hne, if_neg hne.symm, ih]

theorem lastWrite_eq_none {ops : List DBOp} {key : DBKey} :
    lastWrite ops key = none ↔ ∀ op ∈ ops, op.target.key ≠ key := by
  induction ops using List.reverseRecOn with
  | nil => simp [lastWrite]
  | append_singleton ops op ih =>
    rw [lastWrite_concat]
    by_cases hkey : op.target.key = key
    · simp [hkey]
    · rw [if_neg hkey, ih]
      simp only [List.mem_append, List.mem_singleton]
      constructor
      · rintro h o (ho | rfl)
        · exact h o ho
        · exact hkey
      · exact fun h o ho => h o (.inl ho)

/-! ## The manager and its calls -/

/-- `new Cache({ max })` of each name. -/
def cacheMax : CacheName → ℕ
  | .td => 1024
  | .header => 512
  | .body => 256
  | .numberToHash => 2048
  | .hashToNumber => 2048

variable {C : CacheName → LruCache DBKey Bytes}

/-- The caches of a manager. -/
abbrev CacheMap (C : CacheName → LruCache DBKey Bytes) : Type := (c : CacheName) → (C c).State

def DBOp.updateCache (op : DBOp) (cacheMap : CacheMap C) : CacheMap C :=
  match op.target.cacheString with
  | none => cacheMap
  | some cacheString =>
    Function.update cacheMap cacheString
      (match op.value with
      | some value => (C cacheString).set (cacheMap cacheString) op.target.key value
      | none => (C cacheString).delete (cacheMap cacheString) op.target.key)

/-- A call that awaits the database. -/
inductive Pending where
  /-- `get`, before the database has looked. -/
  | reading (target : DBTarget)
  /-- `get`, with the answer, before it goes on. -/
  | answered (target : DBTarget) (value : Option Bytes)
  /-- `batch`, before the database has written. -/
  | writing (ops : List DBOp)
  deriving DecidableEq

/-- A batch on its way. -/
def Pending.isWriting : Pending → Bool
  | .writing _ => true
  | _ => false

/-- **`DBManager`**, its database, and the calls under way. -/
structure DBManager (C : CacheName → LruCache DBKey Bytes) where
  _cache : CacheMap C
  _db : DBKey → Option Bytes
  pending : List Pending

/-- What can happen next: a call is made, the database acts for one that
waits, or one that has its answer goes on. -/
inductive Event where
  | get (target : DBTarget)
  | batch (ops : List DBOp)
  | look (target : DBTarget)
  | resume (target : DBTarget) (value : Option Bytes)
  | write (ops : List DBOp)
  deriving DecidableEq

namespace DBManager

/-- A manager without cached entries, over a database. -/
def create (C : CacheName → LruCache DBKey Bytes) (db : DBKey → Option Bytes) : DBManager C :=
  ⟨fun c => (C c).empty, db, []⟩

/-- What a cache holds under a key. -/
def held (m : DBManager C) (cacheString : CacheName) (key : DBKey) : Option Bytes :=
  (C cacheString).holds (m._cache cacheString) key

/-- **One event.** -/
def step (m : DBManager C) : Event → Except Unit (DBManager C)
  | .get target =>
    match target.cacheString with
    | none => .ok { m with pending := .reading target :: m.pending }
    | some cacheString =>
      match (C cacheString).get (m._cache cacheString) target.key with
      | (some _, cache) => .ok { m with _cache := Function.update m._cache cacheString cache }
      | (none, cache) => .ok { m with
          _cache := Function.update m._cache cacheString cache
          pending := .reading target :: m.pending }
  | .batch ops => .ok { m with
      _cache := ops.foldl (fun cacheMap op => op.updateCache cacheMap) m._cache
      pending := .writing ops :: m.pending }
  | .look target =>
    if .reading target ∈ m.pending then .ok { m with
      pending := .answered target (m._db target.key) :: m.pending.erase (.reading target) }
    else .error ()
  | .resume target value =>
    if .answered target value ∈ m.pending then .ok { m with
      _cache :=
        match target.cacheString, value with
        | some cacheString, some value => Function.update m._cache cacheString
            ((C cacheString).set (m._cache cacheString) target.key value)
        | _, _ => m._cache
      pending := m.pending.erase (.answered target value) }
    else .error ()
  | .write ops =>
    if .writing ops ∈ m.pending then .ok { m with
      _db := writeAll m._db ops
      pending := m.pending.erase (.writing ops) }
    else .error ()

/-- **Coherence**: every entry is what the database holds. -/
def Coherent (m : DBManager C) : Prop :=
  ∀ cacheString key value, m.held cacheString key = some value → m._db key = some value

/-- **The value is what the database will hold** under the key: whatever batch
on its way writes there writes it, and without one it is there. -/
def Settled (m : DBManager C) (key : DBKey) (value : Bytes) : Prop :=
  (∀ ops, .writing ops ∈ m.pending → ∀ w, lastWrite ops key = some w → w = some value) ∧
    ((∀ ops, .writing ops ∈ m.pending → lastWrite ops key = none) → m._db key = some value)

/-- **The event leaves no entry behind**: a `get` goes on with a value that is
settled; a `batch` meets none on its way that writes something else under
one of its keys, and no entry of another cache under one. -/
def Safe (m : DBManager C) : Event → Prop
  | .resume target (some value) => target.cacheString ≠ none → m.Settled target.key value
  | .batch ops =>
    (∀ ops', .writing ops' ∈ m.pending → ∀ op ∈ ops, ∀ w, lastWrite ops' op.target.key = some w →
      lastWrite ops op.target.key = some w) ∧
    (∀ op ∈ ops, ∀ cacheString, op.target.cacheString ≠ some cacheString → ∀ value,
      m.held cacheString op.target.key = some value →
        lastWrite ops op.target.key = some (some value)) ∧
    ∀ op ∈ ops, ∀ op' ∈ ops, op.target.key = op'.target.key →
      op.target.cacheString = op'.target.cacheString
  | _ => True

/-! ## What the caches hold after an event -/

theorem holds_updateCache {op : DBOp} {cacheMap : CacheMap C} {cacheString : CacheName}
    {key : DBKey} {value : Bytes}
    (h : (C cacheString).holds (op.updateCache cacheMap cacheString) key = some value) :
    (op.target.cacheString = some cacheString ∧ op.target.key = key ∧ op.value = some value) ∨
      (¬ (op.target.cacheString = some cacheString ∧ op.target.key = key) ∧
        (C cacheString).holds (cacheMap cacheString) key = some value) := by
  unfold DBOp.updateCache at h
  cases hc : op.target.cacheString with
  | none =>
    rw [hc] at h
    exact .inr ⟨by simp, h⟩
  | some c =>
    rw [hc] at h
    simp only at h
    rcases eq_or_ne cacheString c with rfl | hne
    · rw [Function.update_self] at h
      cases hv : op.value with
      | some v =>
        rw [hv] at h
        rcases (C _).holds_set _ _ _ _ _ h with ⟨rfl, rfl⟩ | ⟨hkey, h⟩
        · exact .inl ⟨rfl, rfl, rfl⟩
        · exact .inr ⟨fun hand => hkey hand.2.symm, h⟩
      | none =>
        rw [hv] at h
        obtain ⟨hkey, h⟩ := (C _).holds_delete _ _ _ _ h
        exact .inr ⟨fun hand => hkey hand.2.symm, h⟩
    · rw [Function.update_of_ne hne] at h
      exact .inr ⟨fun hand => hne (Option.some.inj hand.1).symm, h⟩

/-- **After a batch's updates an entry is what the batch writes, or was held
before** in a cache the batch does not use for its key. -/
theorem holds_updateCaches {ops : List DBOp} {cacheMap : CacheMap C}
    (hkeys : ∀ op ∈ ops, ∀ op' ∈ ops, op.target.key = op'.target.key →
      op.target.cacheString = op'.target.cacheString)
    {cacheString : CacheName} {key : DBKey} {value : Bytes}
    (h : (C cacheString).holds (ops.foldl (fun cacheMap op => op.updateCache cacheMap) cacheMap
      cacheString) key = some value) :
    ((∃ op ∈ ops, op.target.key = key ∧ op.target.cacheString = some cacheString) ∧
        lastWrite ops key = some (some value)) ∨
      ((∀ op ∈ ops, op.target.key = key → op.target.cacheString ≠ some cacheString) ∧
        (C cacheString).holds (cacheMap cacheString) key = some value) := by
  induction ops using List.reverseRecOn with
  | nil => exact .inr ⟨by simp, h⟩
  | append_singleton ops op ih =>
    rw [List.foldl_append] at h
    have hop : op ∈ ops ++ [op] := List.mem_append_right _ (List.mem_singleton_self op)
    have hmem {o : DBOp} (ho : o ∈ ops) : o ∈ ops ++ [op] := List.mem_append_left _ ho
    rw [lastWrite_concat]
    rcases holds_updateCache h with ⟨hc, hkey, hv⟩ | ⟨hnot, h⟩
    · exact .inl ⟨⟨op, hop, hkey, hc⟩, by rw [if_pos hkey, hv]⟩
    · rcases ih (fun o ho o' ho' => hkeys o (hmem ho) o' (hmem ho')) h with
        ⟨⟨o, ho, hkey, hc⟩, hlast⟩ | ⟨hnone, hbefore⟩
      · have hne : op.target.key ≠ key := by
          rintro rfl
          exact hnot ⟨(hkeys o (hmem ho) op hop hkey).symm.trans hc, rfl⟩
        exact .inl ⟨⟨o, hmem ho, hkey, hc⟩, by rw [if_neg hne, hlast]⟩
      · refine .inr ⟨fun o ho hkey => ?_, hbefore⟩
        rcases List.mem_append.1 ho with ho | ho
        · exact hnone o ho hkey
        · rw [List.mem_singleton.1 ho] at hkey ⊢
          exact fun hc => hnot ⟨hc, hkey⟩

/-! ## What a step keeps -/

/-- Every entry is settled. -/
def AllSettled (m : DBManager C) : Prop :=
  ∀ cacheString key value, m.held cacheString key = some value → m.Settled key value

/-- Whether a value is settled depends on the database and on the batches on
their way. -/
theorem Settled.of_same {m m' : DBManager C} {key : DBKey} {value : Bytes}
    (h : m.Settled key value) (hdb : m'._db = m._db)
    (hpending : ∀ ops, .writing ops ∈ m'.pending ↔ .writing ops ∈ m.pending) :
    m'.Settled key value := by
  unfold Settled at h ⊢
  simp only [hpending, hdb]
  exact h

theorem writing_mem_erase (pending : List Pending) {p : Pending}
    (hp : ∀ ops, p ≠ .writing ops) (ops : List DBOp) :
    .writing ops ∈ pending.erase p ↔ .writing ops ∈ pending :=
  List.mem_erase_of_ne (hp ops).symm

theorem AllSettled.get {m m' : DBManager C} (hm : m.AllSettled) {target : DBTarget}
    (h : m.step (.get target) = .ok m') : m'.AllSettled := by
  simp only [DBManager.step] at h
  cases hc : target.cacheString with
  | none =>
    rw [hc] at h
    cases h
    exact fun c k v hheld => (hm c k v hheld).of_same rfl fun ops => by simp
  | some cacheString =>
    rw [hc] at h
    simp only at h
    have hcache (c : CacheName) (k : DBKey) : (C c).holds (Function.update m._cache cacheString
        ((C cacheString).get (m._cache cacheString) target.key).2 c) k = m.held c k := by
      rcases eq_or_ne c cacheString with rfl | hne
      · rw [Function.update_self, (C _).holds_get]
        rfl
      · rw [Function.update_of_ne hne]
        rfl
    generalize (C cacheString).get (m._cache cacheString) target.key = found at h hcache
    obtain ⟨_ | v, cache⟩ := found
    · cases h
      intro c k v hheld
      exact (hm c k v ((hcache c k).symm.trans hheld)).of_same rfl fun ops => by simp
    · cases h
      intro c k v hheld
      exact (hm c k v ((hcache c k).symm.trans hheld)).of_same rfl fun ops => Iff.rfl

/-- **A `batch` that meets nothing else under its keys** leaves every entry as
it will write it, or as it was. -/
theorem AllSettled.batch {m m' : DBManager C} (hm : m.AllSettled) {ops : List DBOp}
    (hsafe : m.Safe (.batch ops)) (h : m.step (.batch ops) = .ok m') : m'.AllSettled := by
  cases h
  obtain ⟨hother, hcaches, hkeys⟩ := hsafe
  -- an entry the batch writes is settled, since those before it write the same
  have hwritten {key : DBKey} {value : Bytes} (hlast : lastWrite ops key = some (some value)) :
      ∀ ops', .writing ops' ∈ m.pending → ∀ w, lastWrite ops' key = some w → w = some value := by
    intro ops' hops' w hw
    obtain ⟨op, hop, rfl⟩ : ∃ op ∈ ops, op.target.key = key := by
      by_contra hnone
      rw [lastWrite_eq_none.2 fun op hop hkey => hnone ⟨op, hop, hkey⟩] at hlast
      cases hlast
    have hw' := hother ops' hops' op hop w hw
    exact Option.some.inj (hw'.symm.trans hlast)
  have hnew {key : DBKey} {value : Bytes} (hlast : lastWrite ops key = some (some value)) :
      Settled { m with
        _cache := ops.foldl (fun cacheMap op => op.updateCache cacheMap) m._cache
        pending := .writing ops :: m.pending } key value := by
    refine ⟨fun ops' hops' w hw => ?_, fun hnone => ?_⟩
    · rcases List.mem_cons.1 hops' with heq | hops'
      · cases heq
        exact Option.some.inj (hw.symm.trans hlast)
      · exact hwritten hlast ops' hops' w hw
    · rw [hnone ops List.mem_cons_self] at hlast
      cases hlast
  intro c key value hheld
  rcases holds_updateCaches hkeys hheld with ⟨-, hlast⟩ | ⟨hunused, hbefore⟩
  · exact hnew hlast
  · by_cases htouch : ∃ op ∈ ops, op.target.key = key
    · obtain ⟨op, hop, rfl⟩ := htouch
      exact hnew (hcaches op hop c (hunused op hop rfl) value hbefore)
    · have hlast : lastWrite ops key = none :=
        lastWrite_eq_none.2 fun op hop hkey => htouch ⟨op, hop, hkey⟩
      obtain ⟨hwriting, hdb⟩ := hm c key value hbefore
      refine ⟨fun ops' hops' w hw => ?_, fun hnone => hdb fun ops' hops' =>
        hnone ops' (List.mem_cons_of_mem _ hops')⟩
      rcases List.mem_cons.1 hops' with heq | hops'
      · cases heq
        rw [hlast] at hw
        cases hw
      · exact hwriting ops' hops' w hw

theorem AllSettled.resume {m m' : DBManager C} (hm : m.AllSettled) {target : DBTarget}
    {value : Option Bytes} (hsafe : m.Safe (.resume target value))
    (h : m.step (.resume target value) = .ok m') : m'.AllSettled := by
  simp only [DBManager.step] at h
  split at h
  · cases h
    have hpending := writing_mem_erase m.pending
      (p := .answered target value) (fun _ h => by cases h)
    intro c key v hheld
    cases hc : target.cacheString with
    | none =>
      simp only [held, hc] at hheld
      exact (hm c key v hheld).of_same rfl hpending
    | some cacheString =>
      cases value with
      | none =>
        simp only [held, hc] at hheld
        exact (hm c key v hheld).of_same rfl hpending
      | some w =>
        simp only [held, hc] at hheld
        rcases eq_or_ne c cacheString with rfl | hne
        · rw [Function.update_self] at hheld
          rcases (C _).holds_set _ _ _ _ _ hheld with ⟨rfl, rfl⟩ | ⟨-, hbefore⟩
          · exact (hsafe (by simp [hc])).of_same rfl hpending
          · exact (hm c key v hbefore).of_same rfl hpending
        · rw [Function.update_of_ne hne] at hheld
          exact (hm c key v hheld).of_same rfl hpending
  · cases h

theorem AllSettled.write {m m' : DBManager C} (hm : m.AllSettled) {ops : List DBOp}
    (h : m.step (.write ops) = .ok m') : m'.AllSettled := by
  simp only [DBManager.step] at h
  split at h
  · next hmem =>
    cases h
    intro c key value hheld
    obtain ⟨hwriting, hdb⟩ := hm c key value hheld
    refine ⟨fun ops' hops' w hw => hwriting ops' (List.mem_of_mem_erase hops') w hw,
      fun hnone => ?_⟩
    change writeAll m._db ops key = some value
    rw [writeAll_apply]
    cases hlast : lastWrite ops key with
    | some w => exact hwriting ops hmem w hlast
    | none =>
      refine hdb fun ops' hops' => ?_
      -- a batch on its way is this one, or still on its way
      rcases List.mem_cons.1 ((List.perm_cons_erase hmem).mem_iff.1 hops') with heq | hops'
      · cases heq
        exact hlast
      · exact hnone ops' hops'
  · cases h

theorem AllSettled.step {m m' : DBManager C} (hm : m.AllSettled) {e : Event} (hsafe : m.Safe e)
    (h : m.step e = .ok m') : m'.AllSettled := by
  cases e with
  | get target => exact hm.get h
  | batch ops => exact hm.batch hsafe h
  | resume target value => exact hm.resume hsafe h
  | write ops => exact hm.write h
  | look target =>
    simp only [DBManager.step] at h
    split at h
    · cases h
      have hpending := writing_mem_erase m.pending (p := .reading target)
        (fun _ h => by cases h)
      exact fun c key value hheld => (hm c key value hheld).of_same rfl fun ops => by
        simp [hpending]
    · cases h

theorem AllSettled.coherent {m : DBManager C} (hm : m.AllSettled) (hdone : m.pending = []) :
    m.Coherent := by
  intro c key value hheld
  refine (hm c key value hheld).2 fun ops hops => ?_
  rw [hdone] at hops
  cases hops

/-- **The caches agree with the database once all calls have completed**, in
every run whose events are all safe: whatever calls overlap and in whatever
order they go on, for caches of any size. -/
theorem caches_coherent_of_safe (db : DBKey → Option Bytes) (events : List Event) (m : DBManager C)
    (hsafe : ∀ pre e u, pre ++ [e] <+: events → run step (create C db) pre = .ok u → u.Safe e)
    (hm : run step (create C db) events = .ok m) (hdone : m.pending = []) : m.Coherent := by
  have hsettled : m.AllSettled := by
    clear hdone
    induction events using List.reverseRecOn generalizing m with
    | nil =>
      cases hm
      intro c key value hheld
      rw [held, create, (C _).holds_empty] at hheld
      cases hheld
    | append_singleton events e ih =>
      obtain ⟨u, hu, he⟩ := bind_eq_ok.1 (run_concat _ events e ▸ hm)
      have hbefore := ih u (fun pre e' u' hpre => hsafe pre e' u'
        (hpre.trans (List.prefix_append events [e]))) hu
      exact hbefore.step (hsafe events e u List.prefix_rfl hu) he
  exact hsettled.coherent hdone

/-! ## One call at a time -/

/-- A `get` that no batch overtakes is safe: it goes on with what the
database holds. -/
theorem safe_resume_of_alone {m : DBManager C} {target : DBTarget} {value : Option Bytes}
    (halone : ∀ p ∈ m.pending, p.isWriting = false) (hvalue : m._db target.key = value) :
    m.Safe (.resume target value) := by
  cases value with
  | none => trivial
  | some value =>
    intro _
    exact ⟨fun ops hops => absurd (halone _ hops) (by simp [Pending.isWriting]), fun _ => hvalue⟩

theorem safe_batch_of_alone {m : DBManager C} {ops : List DBOp}
    (halone : ∀ p ∈ m.pending, p.isWriting = false)
    (hcaches : ∀ op ∈ ops, ∀ cacheString, op.target.cacheString ≠ some cacheString →
      m.held cacheString op.target.key = none)
    (hkeys : ∀ op ∈ ops, ∀ op' ∈ ops, op.target.key = op'.target.key →
      op.target.cacheString = op'.target.cacheString) : m.Safe (.batch ops) := by
  refine ⟨fun ops' hops' => absurd (halone _ hops') (by simp [Pending.isWriting]),
    fun op hop c hc value hheld => ?_, hkeys⟩
  rw [hcaches op hop c hc] at hheld
  cases hheld

/-! ## A `get` overtaken by a `batch` -/

/-- The caches of `db/manager.ts`. -/
def lruCaches (c : CacheName) : LruCache DBKey Bytes := .lru DBKey Bytes (cacheMax c)

/-- A database with the hash of block 1. -/
def oneHashDb (key : DBKey) : Option Bytes :=
  if key = (DBTarget.record (.numberToHash 1)).key then some [1] else none

/-- The hash of block 1 is replaced. -/
def replaceHash : List DBOp := [⟨.record (.numberToHash 1), some [2]⟩]

/-- A `get` of the hash that completes, then the `batch`, which completes. -/
def inTurn : List Event :=
  [.get (.record (.numberToHash 1)), .look (.record (.numberToHash 1)),
    .resume (.record (.numberToHash 1)) (some [1]), .batch replaceHash, .write replaceHash]

/-- The same calls, with the `batch` between the answer and the fill. -/
def overtaken : List Event :=
  [.get (.record (.numberToHash 1)), .look (.record (.numberToHash 1)), .batch replaceHash,
    .write replaceHash, .resume (.record (.numberToHash 1)) (some [1])]

theorem inTurn_safe (pre : List Event) (e : Event) (u : DBManager lruCaches)
    (hpre : pre ++ [e] <+: inTurn) (hu : run step (create lruCaches oneHashDb) pre = .ok u) :
    u.Safe e := by
  simp only [inTurn, concat_prefix_cons, List.prefix_nil, List.append_eq_nil_iff,
    List.cons_ne_self, and_false, exists_false, or_false] at hpre
  rcases hpre with ⟨rfl, rfl⟩ | ⟨_, rfl, ⟨rfl, rfl⟩ | ⟨_, rfl, ⟨rfl, rfl⟩ | ⟨_, rfl, ⟨rfl, rfl⟩ |
    ⟨_, rfl, rfl, rfl⟩⟩⟩⟩
  · trivial
  · trivial
  · cases hu
    exact safe_resume_of_alone (by decide) (by decide +kernel)
  · cases hu
    refine safe_batch_of_alone (by decide) (fun op hop c hc => ?_) (by decide)
    obtain rfl := List.mem_singleton.1 hop
    cases c with
    | numberToHash => exact absurd rfl hc
    | _ => rfl
  · trivial

/-- Coherence after a `get` and a `batch` in turn. -/
theorem caches_coherent_of_safe_inTurn :
    ∃ m, run step (create lruCaches oneHashDb) inTurn = .ok m ∧ m.Coherent :=
  ⟨_, rfl, caches_coherent_of_safe oneHashDb inTurn _ inTurn_safe rfl rfl⟩

/-- **A cached hash that is no longer stored**: the `get` fills the cache with
the answer it had before the batch. -/
theorem cache_keeps_old_hash :
    ¬ ∀ (db : DBKey → Option Bytes) (events : List Event) (m : DBManager lruCaches),
      run step (create lruCaches db) events = .ok m → m.pending = [] → m.Coherent := by
  intro h
  have hfinal : ∃ m, run step (create lruCaches oneHashDb) overtaken = .ok m ∧ m.pending = [] ∧
      m.held .numberToHash (DBTarget.record (.numberToHash 1)).key = some [1] ∧
      m._db (DBTarget.record (.numberToHash 1)).key = some [2] := ⟨_, rfl, by decide, by decide, by decide⟩
  obtain ⟨m, hm, hdone, hheld, hdb⟩ := hfinal
  have hclaim := h oneHashDb overtaken m hm hdone _ _ _ hheld
  rw [hdb] at hclaim
  cases hclaim

end DBManager

end TsEthereum.Blockchain
