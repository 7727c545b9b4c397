import Mathlib.Algebra.BigOperators.Group.Multiset.Basic
import Mathlib.Data.List.Sort
import Mathlib.Tactic.Abel
import TsEthereum.Mpt.Missing

/-!
# The walk over a trie

`newWalk` looks nodes up in a pool of tasks. A child found while the pool
is full is queued by priority, and a lookup that ends makes room for the next
one; a lookup that is rejected keeps its place. The lookups end in any order.
Whatever it is, each node of the tree waits, or is looked up, or was visited,
exactly once (`Walk.Inv`), so the walk is over when all were visited and not
before.
-/

namespace TsEthereum

variable {α β : Type}

/-! ## The executor -/

/-- `Task`. -/
structure Task (α : Type) where
  priority : ℕ
  fn : α

/-- **`PrioritizedTaskExecutor`.** -/
structure PrioritizedTaskExecutor (α : Type) where
  maxPoolSize : ℕ
  currentPoolSize : ℕ
  queue : List (Task α)

namespace PrioritizedTaskExecutor

/-- `executeOrQueue`, with the `fn` it calls. -/
def executeOrQueue (e : PrioritizedTaskExecutor α) (task : Task α) :
    PrioritizedTaskExecutor α × List α :=
  if e.currentPoolSize < e.maxPoolSize then
    ({ e with currentPoolSize := e.currentPoolSize + 1 }, [task.fn])
  else ({ e with queue := e.queue ++ [task] }, [])

/-- `a.priority` before `b.priority`: the higher one is first. -/
def before (a b : Task α) : Bool := b.priority ≤ a.priority

/-- The callback that `fn` is called with. -/
def taskFinished (e : PrioritizedTaskExecutor α) : PrioritizedTaskExecutor α × List α :=
  match e.queue.mergeSort before with
  | [] => ({ e with currentPoolSize := e.currentPoolSize - 1 }, [])
  | item :: queue =>
    { e with currentPoolSize := e.currentPoolSize - 1, queue := queue }.executeOrQueue item

/-- `finished`. -/
def finished (e : PrioritizedTaskExecutor α) : Bool := e.currentPoolSize == 0

/-- **Tasks wait only while the pool is full.** -/
structure Inv (e : PrioritizedTaskExecutor α) : Prop where
  le : e.currentPoolSize ≤ e.maxPoolSize
  full : e.queue ≠ [] → e.currentPoolSize = e.maxPoolSize

/-- The tasks that wait. -/
def waiting (e : PrioritizedTaskExecutor α) : Multiset α := ↑(e.queue.map Task.fn)

/-- What an operation on the pool does: `n` of its places are taken before,
and `fns` are given to it or wait in it. -/
structure Starts (e : PrioritizedTaskExecutor α) (n : ℕ) (fns : Multiset α)
    (r : PrioritizedTaskExecutor α × List α) : Prop where
  inv : r.1.Inv
  maxPoolSize : r.1.maxPoolSize = e.maxPoolSize
  currentPoolSize : r.1.currentPoolSize = n + r.2.length
  fns : (r.2 : Multiset α) + r.1.waiting = fns

variable {e : PrioritizedTaskExecutor α}

theorem starts_executeOrQueue (h : e.Inv) (task : Task α) :
    e.Starts e.currentPoolSize (task.fn ::ₘ e.waiting) (e.executeOrQueue task) := by
  unfold executeOrQueue
  split
  · next hlt =>
    have hnil : e.queue = [] := by
      by_contra hne
      exact absurd (h.full hne) hlt.ne
    exact ⟨⟨hlt, fun hne => absurd hnil hne⟩, rfl, rfl, Multiset.singleton_add _ _⟩
  · next hlt =>
    refine ⟨⟨h.le, fun _ => le_antisymm h.le (not_lt.1 hlt)⟩, rfl, rfl, ?_⟩
    simp only [waiting, List.map_append, List.map_singleton]
    rw [← Multiset.coe_add, Multiset.coe_nil, zero_add, add_comm]
    exact Multiset.singleton_add _ _

/-- **A place that is given back goes to a task that waits.** -/
theorem starts_taskFinished (h : e.Inv) (hpos : 0 < e.currentPoolSize) :
    e.Starts (e.currentPoolSize - 1) e.waiting e.taskFinished := by
  have hperm := List.mergeSort_perm e.queue before
  have hle := h.le
  unfold taskFinished
  cases hqueue : e.queue.mergeSort before with
  | nil =>
    rw [hqueue] at hperm
    have hnil : e.queue = [] := hperm.nil_eq.symm
    exact ⟨⟨by dsimp only; omega, fun hne => absurd hnil hne⟩, rfl, rfl, zero_add _⟩
  | cons item queue =>
    -- a task that waited takes the place
    rw [hqueue] at hperm
    dsimp only [executeOrQueue]
    rw [if_pos (by omega)]
    have hfull : e.currentPoolSize = e.maxPoolSize := by
      refine h.full fun hnil => ?_
      rw [hnil] at hperm
      exact List.cons_ne_nil _ _ hperm.eq_nil
    refine ⟨⟨by dsimp only; omega, fun _ => by dsimp only; omega⟩, rfl, rfl, ?_⟩
    rw [Multiset.coe_singleton, Multiset.singleton_add]
    exact Multiset.coe_eq_coe.2 (hperm.map Task.fn)

end PrioritizedTaskExecutor

open PrioritizedTaskExecutor

/-! ## The walk -/

/-- **A walk**: its executor, the lookups under way, those that were rejected,
what `onNode` was called for, and how often `resolve` was called. -/
structure Walk (α : Type) where
  taskExecutor : PrioritizedTaskExecutor α
  running : List α
  failed : List α
  visited : List α
  resolved : ℕ

namespace Walk

/-- `pushNodeToQueue`. -/
def pushNodeToQueue (w : Walk α) (task : Task α) : Walk α :=
  { w with
    taskExecutor := (w.taskExecutor.executeOrQueue task).1
    running := w.running ++ (w.taskExecutor.executeOrQueue task).2 }

/-- `processNode`, for an `onNode` that pushes tasks. -/
def processNode (w : Walk α) (a : α) (tasks : List (Task α)) : Walk α :=
  let w := tasks.foldl pushNodeToQueue { w with visited := w.visited ++ [a] }
  if w.taskExecutor.finished then { w with resolved := w.resolved + 1 } else w

/-- A walk whose root was looked up. -/
def startWalk (poolSize : ℕ) (root : α) (tasks : List (Task α)) : Walk α :=
  processNode ⟨⟨poolSize, 0, []⟩, [], [], [], 0⟩ root tasks

/-- **A lookup ends**, the one at a place of those under way. `onNode` has the
tasks that are pushed for the node found, if one is; the database may reject
the request, too. -/
def step (onNode : α → Option (List (Task α))) (w : Walk α) (ended : ℕ × Bool) : Walk α :=
  match w.running[ended.1]? with
  | none => w
  | some a =>
    let w := { w with running := w.running.eraseIdx ended.1 }
    match (if ended.2 then none else onNode a) with
    | none => { w with failed := w.failed ++ [a] }
    | some tasks =>
      processNode { w with
        taskExecutor := w.taskExecutor.taskFinished.1
        running := w.running ++ w.taskExecutor.taskFinished.2 } a tasks

/-- What was found and not visited yet. -/
def pending (w : Walk α) : Multiset α := w.running + w.failed + w.taskExecutor.waiting

variable {poolSize : ℕ} {w w' : Walk α}

/-- Each place of the pool is taken by a lookup. -/
structure Pooled (poolSize : ℕ) (w : Walk α) : Prop where
  inv : w.taskExecutor.Inv
  maxPoolSize : w.taskExecutor.maxPoolSize = poolSize
  currentPoolSize : w.taskExecutor.currentPoolSize = w.running.length + w.failed.length

theorem Pooled.push (h : w.Pooled poolSize) (task : Task α) :
    (w.pushNodeToQueue task).Pooled poolSize ∧
      (w.pushNodeToQueue task).pending = task.fn ::ₘ w.pending := by
  have hstarts := starts_executeOrQueue h.inv task
  refine ⟨⟨hstarts.inv, hstarts.maxPoolSize.trans h.maxPoolSize, ?_⟩, ?_⟩
  · have hsize := hstarts.currentPoolSize
    have hsize' := h.currentPoolSize
    simp only [pushNodeToQueue, List.length_append]
    omega
  · have hfns := hstarts.fns
    simp only [pending, pushNodeToQueue]
    rw [← Multiset.coe_add, ← Multiset.add_cons, ← hfns]
    abel

/-- `tasks` were pushed on a walk, and nothing else was done. -/
structure Pushed (poolSize : ℕ) (w : Walk α) (tasks : List (Task α)) (w' : Walk α) : Prop where
  pooled : w'.Pooled poolSize
  pending : w'.pending = (tasks.map Task.fn : List α) + w.pending
  visited : w'.visited = w.visited
  failed : w'.failed = w.failed
  resolved : w'.resolved = w.resolved

theorem Pooled.pushed (h : w.Pooled poolSize) (tasks : List (Task α)) :
    Pushed poolSize w tasks (tasks.foldl pushNodeToQueue w) := by
  induction tasks generalizing w with
  | nil => exact ⟨h, (zero_add _).symm, rfl, rfl, rfl⟩
  | cons task tasks ih =>
    obtain ⟨hpooled, hpending⟩ := h.push task
    have hrest := ih hpooled
    refine ⟨hrest.pooled, ?_, hrest.visited, hrest.failed, hrest.resolved⟩
    rw [List.foldl_cons, hrest.pending, hpending, List.map_cons, ← Multiset.cons_coe,
      Multiset.cons_add, Multiset.add_cons]

/-- **Where a walk is.** What is pending stands for parts of what is walked,
each with the nodes in it, and with those visited they make up the whole. -/
structure Inv (poolSize : ℕ) (item : β → α) (part : β → Prop) (nodes : β → Multiset α)
    (all : Multiset α) (w : Walk α) : Prop where
  pooled : w.Pooled poolSize
  covers : ∃ parts : Multiset β, parts.map item = w.pending ∧ (∀ b ∈ parts, part b) ∧
    (w.visited : Multiset α) + (parts.map nodes).sum = all
  resolved : w.resolved = if w.taskExecutor.currentPoolSize = 0 then 1 else 0

/-- The nodes of a part are that of its item, and those of the parts that are
pushed for it. -/
def Unfolds (onNode : α → Option (List (Task α))) (item : β → α) (part : β → Prop)
    (nodes : β → Multiset α) : Prop :=
  ∀ b, part b → item b ∈ nodes b ∧ ∀ tasks, onNode (item b) = some tasks →
    ∃ parts : List β, tasks.map Task.fn = parts.map item ∧ (∀ b' ∈ parts, part b') ∧
      nodes b = item b ::ₘ (parts.map nodes).sum

variable {onNode : α → Option (List (Task α))} {item : β → α} {part : β → Prop}
variable {nodes : β → Multiset α} {all : Multiset α}

theorem Inv.processNode (hpooled : w.Pooled poolSize) (hresolved : w.resolved = 0) {a : α}
    {tasks : List (Task α)} {parts : List β} {rest : Multiset β}
    (hparts : tasks.map Task.fn = parts.map item) (hrest : rest.map item = w.pending)
    (hpart : ∀ b ∈ (parts : Multiset β) + rest, part b)
    (hall : (w.visited : Multiset α) + a ::ₘ (((parts : Multiset β) + rest).map nodes).sum = all) :
    Inv poolSize item part nodes all (w.processNode a tasks) := by
  have hpushed := Pooled.pushed (w := { w with visited := w.visited ++ [a] })
    ⟨hpooled.inv, hpooled.maxPoolSize, hpooled.currentPoolSize⟩ tasks
  unfold Walk.processNode
  dsimp only
  generalize tasks.foldl pushNodeToQueue { w with visited := w.visited ++ [a] } = w' at *
  have hcovers : ∃ parts : Multiset β, parts.map item = w'.pending ∧ (∀ b ∈ parts, part b) ∧
      (w'.visited : Multiset α) + (parts.map nodes).sum = all := by
    refine ⟨parts + rest, ?_, hpart, ?_⟩
    · rw [hpushed.pending, Multiset.map_add, hrest, Multiset.map_coe, hparts]
      rfl
    · rw [hpushed.visited, ← hall, ← Multiset.coe_add, add_assoc, Multiset.coe_singleton,
        Multiset.singleton_add]
  split
  · next hfinished =>
    refine ⟨⟨hpushed.pooled.inv, hpushed.pooled.maxPoolSize, hpushed.pooled.currentPoolSize⟩,
      hcovers, ?_⟩
    dsimp only
    rw [if_pos (beq_iff_eq.1 hfinished), hpushed.resolved, hresolved]
  · next hfinished =>
    refine ⟨hpushed.pooled, hcovers, ?_⟩
    rw [if_neg (fun h => hfinished (beq_iff_eq.2 h)), hpushed.resolved, hresolved]

/-- **A lookup that ends keeps it**, whichever it is. -/
theorem Inv.step (hunfolds : Unfolds onNode item part nodes)
    (h : Inv poolSize item part nodes all w) (ended : ℕ × Bool) :
    Inv poolSize item part nodes all (w.step onNode ended) := by
  unfold Walk.step
  cases hget : w.running[ended.1]? with
  | none => exact h
  | some a =>
    obtain ⟨hlt, ha⟩ := List.getElem?_eq_some_iff.1 hget
    have hlength := List.length_eraseIdx_of_lt hlt
    have hsize := h.pooled.currentPoolSize
    have hrunning : (w.running : Multiset α) = a ::ₘ (w.running.eraseIdx ended.1 : List α) := by
      rw [Multiset.cons_coe, Multiset.coe_eq_coe, ← ha]
      exact (List.getElem_cons_eraseIdx_perm hlt).symm
    obtain ⟨parts, hitems, hpart, hall⟩ := h.covers
    have hbusy : w.taskExecutor.currentPoolSize ≠ 0 := by omega
    dsimp only
    cases hfound : (if ended.2 then none else onNode a) with
    | none =>
      -- its place stays taken
      refine ⟨⟨h.pooled.inv, h.pooled.maxPoolSize, ?_⟩, ⟨parts, ?_, hpart, hall⟩, h.resolved⟩
      · simp only [List.length_append, List.length_singleton]
        omega
      · rw [hitems, pending, pending, hrunning, ← Multiset.coe_add, Multiset.coe_singleton,
          ← Multiset.singleton_add]
        dsimp only
        abel
    | some tasks =>
      -- the part that was pending is now its node, visited, and its children
      have hnode : onNode a = some tasks := by
        split at hfound
        · cases hfound
        · exact hfound
      have hstarts := starts_taskFinished h.pooled.inv (Nat.pos_of_ne_zero hbusy)
      have hpending : w.pending = a ::ₘ ((w.running.eraseIdx ended.1 ++
          w.taskExecutor.taskFinished.2 : List α) + w.failed +
          w.taskExecutor.taskFinished.1.waiting) := by
        rw [pending, hrunning, ← hstarts.fns, ← Multiset.coe_add, ← Multiset.singleton_add,
          ← Multiset.singleton_add]
        abel
      classical
      obtain ⟨b, hb, rfl, hrest⟩ := (Multiset.map_eq_cons _ _ _ _).2 (hitems.trans hpending)
      obtain ⟨kids, hkids, hkid, hnodes⟩ := (hunfolds b (hpart b hb)).2 tasks hnode
      refine Inv.processNode ⟨hstarts.inv, hstarts.maxPoolSize.trans h.pooled.maxPoolSize, ?_⟩ ?_
        hkids hrest ?_ ?_
      · rw [hstarts.currentPoolSize]
        simp only [List.length_append]
        omega
      · exact h.resolved.trans (if_neg hbusy)
      · intro b' hb'
        rcases Multiset.mem_add.1 hb' with hb' | hb'
        · exact hkid b' hb'
        · exact hpart b' (Multiset.mem_of_mem_erase hb')
      · rw [← hall, ← Multiset.cons_erase hb, Multiset.map_cons, Multiset.sum_cons, hnodes,
          Multiset.map_add, Multiset.sum_add, Multiset.cons_erase hb, Multiset.map_coe,
          Multiset.sum_coe, Multiset.cons_add]

theorem Inv.steps (hunfolds : Unfolds onNode item part nodes)
    (h : Inv poolSize item part nodes all w) (ends : List (ℕ × Bool)) :
    Inv poolSize item part nodes all (ends.foldl (Walk.step onNode) w) := by
  induction ends generalizing w with
  | nil => exact h
  | cons ended ends ih => exact ih (h.step hunfolds ended)

/-- **`resolve` is called when all was visited**, and once. -/
theorem Inv.resolved_iff (hunfolds : Unfolds onNode item part nodes)
    (h : Inv poolSize item part nodes all w) (hpool : 0 < poolSize) :
    w.resolved ≤ 1 ∧ (w.resolved = 1 ↔ (w.visited : Multiset α) = all) := by
  have hsize := h.pooled.currentPoolSize
  obtain ⟨parts, hitems, hpart, hall⟩ := h.covers
  rw [h.resolved]
  by_cases hzero : w.taskExecutor.currentPoolSize = 0
  · rw [if_pos hzero]
    refine ⟨le_rfl, fun _ => ?_, fun _ => rfl⟩
    -- an empty pool is not full, so nothing waits either
    have hqueue : w.taskExecutor.queue = [] := by
      by_contra hne
      have hfull := h.pooled.inv.full hne
      rw [h.pooled.maxPoolSize] at hfull
      omega
    have hrunning : w.running = [] := List.length_eq_zero_iff.1 (by omega)
    have hfailed : w.failed = [] := List.length_eq_zero_iff.1 (by omega)
    rw [pending, waiting, hrunning, hfailed, hqueue] at hitems
    obtain rfl : parts = 0 := Multiset.map_eq_zero.1 hitems
    rw [← hall, Multiset.map_zero, Multiset.sum_zero, add_zero]
  · rw [if_neg hzero]
    refine ⟨zero_le_one, fun hone => absurd hone zero_ne_one, fun hvisited => ?_⟩
    rw [← hvisited, add_eq_left] at hall
    -- a pending part would have its own node to be visited
    have hparts : parts = 0 := by
      refine Multiset.eq_zero_of_forall_notMem fun b hb => ?_
      have hin : item b ∈ (parts.map nodes).join :=
        Multiset.mem_join.2 ⟨_, Multiset.mem_map_of_mem nodes hb, (hunfolds b (hpart b hb)).1⟩
      rw [Multiset.join, hall] at hin
      exact Multiset.notMem_zero _ hin
    rw [hparts, Multiset.map_zero, pending] at hitems
    have hcard := congrArg Multiset.card hitems
    rw [Multiset.card_add, Multiset.card_add, Multiset.coe_card, Multiset.coe_card,
      Multiset.card_zero] at hcard
    omega

end Walk

/-! ## Walks over a trie -/

/-- What is looked up: the reference of a node, and the key on the way to it. -/
abbrev NodeAt := NestedUint8Array × Nibbles

/-- `allChildren`, the tasks it pushes: of longer keys first. -/
def MPTNode.allChildren (node : MPTNode) (key : Nibbles) : List (Task NodeAt) :=
  let children : List (Nibbles × NestedUint8Array) :=
    match node with
    | .leaf _ _ => []
    | .extension nibbles value => [(nibbles, value)]
    | .branch branches _ => (getChildren branches).map fun b => ([b.1], b.2)
  children.map fun child => ⟨(key ++ child.1).length, child.2, key ++ child.1⟩

namespace MerklePatriciaTrie

/-- The lookup of a node, for an `onNode` that calls `allChildren`. -/
def onNode (o : MPTOpts) (t : MerklePatriciaTrie) (a : NodeAt) : Option (List (Task NodeAt)) :=
  match t.lookupNode o a.1 with
  | .ok node => some (node.allChildren a.2)
  | .error _ => none

/-- `newWalk` from the root, after these lookups ended; none if that of the
root is rejected. -/
def newWalk (o : MPTOpts) (t : MerklePatriciaTrie) (poolSize : ℕ) (ends : List (ℕ × Bool)) :
    Option (Walk NodeAt) :=
  (t.onNode o (.bytes t._root, [])).map fun tasks =>
    ends.foldl (Walk.step (t.onNode o)) (.startWalk poolSize (.bytes t._root, []) tasks)

end MerklePatriciaTrie

/-- **The nodes of a tree**, each with the key on the way to it. -/
def MPTOpts.nodesAt (o : MPTOpts) : Tree → Nibbles → List NodeAt
  | .empty, _ => []
  | .leaf p v, key => [(o.ref (.leaf p v), key)]
  | .extension p c, key => (o.ref (.extension p c), key) :: o.nodesAt c (key ++ p)
  | .branch cs v, key =>
    (o.ref (.branch cs v), key) :: (List.finRange 16).flatMap fun i => o.nodesAt (cs i) (key ++ [i])

/-- The subtrees under a node, with their keys. -/
def childrenAt : Tree → Nibbles → List (Tree × Nibbles)
  | .empty, _ => []
  | .leaf _ _, _ => []
  | .extension p c, key => [(c, key ++ p)]
  | .branch cs _, key =>
    (List.finRange 16).filterMap fun i => if cs i = .empty then none else some (cs i, key ++ [i])

variable {o : MPTOpts} {t : MerklePatriciaTrie} {T s : Tree} {key : Nibbles} {poolSize : ℕ}

theorem nodesAt_eq (hs : s ≠ .empty) :
    o.nodesAt s key =
      (o.ref s, key) :: (childrenAt s key).flatMap fun b => o.nodesAt b.1 b.2 := by
  cases s with
  | empty => exact absurd rfl hs
  | leaf p v => rfl
  | extension p c => simp only [MPTOpts.nodesAt, childrenAt, List.flatMap_singleton]
  | branch cs v =>
    rw [MPTOpts.nodesAt, childrenAt]
    congr 1
    induction List.finRange 16 with
    | nil => rfl
    | cons i is ih =>
      rw [List.flatMap_cons, ih, List.filterMap_cons]
      by_cases hi : cs i = .empty
      · rw [if_pos hi, hi]
        rfl
      · rw [if_neg hi, List.flatMap_cons]

/-- **A node pushes its children.** -/
theorem allChildren_node (hs : s ≠ .empty) :
    ((o.node s).allChildren key).map Task.fn =
      (childrenAt s key).map fun b => (o.ref b.1, b.2) := by
  cases s with
  | empty => exact absurd rfl hs
  | leaf p v => rfl
  | extension p c => rfl
  | branch cs v =>
    simp only [MPTOpts.node, MPTNode.allChildren, MPTNode.getChildren, childrenAt,
      List.map_filterMap]
    refine List.filterMap_congr fun i _ => ?_
    rw [MPTOpts.getBranch_ref]
    by_cases hi : cs i = .empty
    · rw [if_pos hi, if_pos hi]
      rfl
    · rw [if_neg hi, if_neg hi]
      rfl

/-- A subtree whose nodes are read back, or missing. -/
def WalkableAt (o : MPTOpts) (t : MerklePatriciaTrie) (b : Tree × Nibbles) : Prop :=
  b.1 ≠ .empty ∧ b.1.WellFormed ∧ Readable o t b.1 ∧ b.1.Below (Readable o t)

theorem walkableAt_children (hwf : s.WellFormed) (hbelow : s.Below (Readable o t)) :
    ∀ b ∈ childrenAt s key, WalkableAt o t b := by
  intro b hb
  cases s with
  | empty => cases hb
  | leaf p v => cases hb
  | extension p c =>
    obtain rfl := List.mem_singleton.1 hb
    refine ⟨?_, hwf.2.2, hbelow⟩
    rintro rfl
    cases hwf.2.1
  | branch cs v =>
    obtain ⟨i, -, hi⟩ := List.mem_filterMap.1 hb
    split at hi
    · cases hi
    · next hne =>
      cases hi
      exact ⟨hne, hwf.2 i, hbelow i⟩

theorem unfolds_onNode :
    Walk.Unfolds (t.onNode o) (fun b : Tree × Nibbles => (o.ref b.1, b.2)) (WalkableAt o t)
      fun b => (o.nodesAt b.1 b.2 : Multiset NodeAt) := by
  rintro b ⟨hne, hwf, hread, hbelow⟩
  dsimp only
  rw [nodesAt_eq hne]
  refine ⟨List.mem_cons_self, fun tasks htasks => ?_⟩
  have hnode : t.lookupNode o (o.ref b.1) = .ok (o.node b.1) := by
    rcases hread hne with hok | hmissing
    · exact hok
    · rw [MerklePatriciaTrie.onNode, hmissing] at htasks
      cases htasks
  rw [MerklePatriciaTrie.onNode, hnode] at htasks
  cases htasks
  refine ⟨childrenAt b.1 b.2, allChildren_node hne, walkableAt_children hwf hbelow, ?_⟩
  rw [← Multiset.cons_coe, ← Multiset.coe_bind]
  rfl

/-- **A walk finds each node of a tree once**: in every order in which its
lookups end, and whichever the database rejects. -/
structure WalksOver (o : MPTOpts) (T : Tree) (poolSize : ℕ) (w : Walk NodeAt) : Prop where
  /-- A rejected lookup keeps its place in the pool. -/
  busy : w.running.length + w.failed.length ≤ poolSize
  once : (w.visited : Multiset NodeAt) ≤
    (.bytes (o.rootHash T), []) ::ₘ ((o.nodesAt T []).tail : Multiset NodeAt)
  resolved_le : w.resolved ≤ 1
  resolved : w.resolved = 1 ↔
    w.visited.Perm ((.bytes (o.rootHash T), []) :: (o.nodesAt T []).tail)
  goesOn : w.resolved = 0 → w.failed = [] → w.running ≠ []

/-- **`newWalk` visits every node exactly once**, with at most `poolSize`
lookups at a time, and resolves then. It is rejected at once where the root
is missing. -/
theorem newWalk_visits (h : Represents o t T) (hfree : CollisionFree o t._db) (hT : T ≠ .empty)
    (hpool : 0 < poolSize) (ends : List (ℕ × Bool)) :
    (t.newWalk o poolSize ends = none ↔
      t.lookupNode o (.bytes t._root) = .error .missingNode) ∧
    ∀ w, t.newWalk o poolSize ends = some w → WalksOver o T poolSize w := by
  have hroot : t.lookupNode o (.bytes t._root) = .ok (o.node T) ∨
      t.lookupNode o (.bytes t._root) = .error .missingNode := by
    rw [h.root, lookupNode_rootHash h.addressed hfree hT (.inr (.inr (h.rootLogged hT)))]
    split
    · exact .inr rfl
    · exact .inl rfl
  rcases hroot with hok | hmissing
  · have hfound : t.onNode o (.bytes t._root, []) = some ((o.node T).allChildren []) := by
      rw [MerklePatriciaTrie.onNode, hok]
    unfold MerklePatriciaTrie.newWalk
    rw [hfound, hok]
    refine ⟨⟨fun hnone => (by cases hnone), fun herror => (by cases herror)⟩, ?_⟩
    rintro w ⟨⟩
    have hwf := h.live.wellFormed
    have hstart : Walk.Inv poolSize (fun b : Tree × Nibbles => (o.ref b.1, b.2)) (WalkableAt o t)
        (fun b => (o.nodesAt b.1 b.2 : Multiset NodeAt))
        ((.bytes (o.rootHash T), []) ::ₘ ((o.nodesAt T []).tail : Multiset NodeAt))
        (.startWalk poolSize (.bytes t._root, []) ((o.node T).allChildren [])) := by
      have hpooled : Walk.Pooled poolSize (⟨⟨poolSize, 0, []⟩, [], [], [], 0⟩ : Walk NodeAt) :=
        ⟨⟨Nat.zero_le _, fun hne => absurd rfl hne⟩, rfl, rfl⟩
      have hnone : Multiset.map (fun b : Tree × Nibbles => (o.ref b.1, b.2)) 0 = 0 := rfl
      refine Walk.Inv.processNode hpooled rfl (allChildren_node hT) hnone ?_ ?_
      · rw [add_zero]
        exact walkableAt_children hwf (h.readable hfree)
      · rw [nodesAt_eq hT, List.tail_cons, ← Multiset.coe_bind, h.root, add_zero]
        exact zero_add _
    have hinv := hstart.steps unfolds_onNode ends
    obtain ⟨hle, hiff⟩ := hinv.resolved_iff unfolds_onNode hpool
    have hsize := hinv.pooled.currentPoolSize
    refine ⟨?_, ?_, hle, hiff.trans (by rw [Multiset.cons_coe, Multiset.coe_eq_coe]), ?_⟩
    · rw [← hsize]
      exact hinv.pooled.inv.le.trans hinv.pooled.maxPoolSize.le
    · obtain ⟨parts, -, -, hall⟩ := hinv.covers
      rw [← hall]
      exact Multiset.le_add_right _ _
    · intro hzero hfailed hrunning
      have hbusy := hinv.resolved
      rw [hsize, hrunning, hfailed, hzero] at hbusy
      cases hbusy
  · unfold MerklePatriciaTrie.newWalk MerklePatriciaTrie.onNode
    rw [hmissing]
    exact ⟨⟨fun _ => rfl, fun _ => rfl⟩, fun w hw => (by cases hw)⟩

/-- What `prefixKeys` leaves: an extension to a branch of two leaves. -/
def prefixKeysTrie : MerklePatriciaTrie :=
  match run (MerklePatriciaTrie.step prefixKeysOpts) (.create prefixKeysOpts) prefixKeys with
  | .ok t => t
  | .error _ => .create prefixKeysOpts

theorem run_prefixKeys :
    run (MerklePatriciaTrie.step prefixKeysOpts) (.create prefixKeysOpts) prefixKeys =
      .ok prefixKeysTrie := by
  decide +kernel

theorem newWalk_visits_prefixKeys :
    ∃ T, Represents prefixKeysOpts prefixKeysTrie T ∧
      ∃ w, prefixKeysTrie.newWalk prefixKeysOpts 1 [(0, false), (0, true)] = some w ∧
        WalksOver prefixKeysOpts T 1 w := by
  obtain ⟨T, hT⟩ := exists_represents_of_run prefixKeys_free run_prefixKeys
  have hne : T ≠ .empty := by
    rintro rfl
    have hroot : prefixKeysTrie._root ≠ prefixKeysOpts.EMPTY_TRIE_ROOT := by decide +kernel
    exact hroot (hT.root.trans MPTOpts.rootHash_empty)
  obtain ⟨w, hw⟩ : ∃ w, prefixKeysTrie.newWalk prefixKeysOpts 1 [(0, false), (0, true)] = some w :=
    Option.isSome_iff_exists.1 (by decide +kernel)
  exact ⟨T, hT, w, hw, (newWalk_visits hT (prefixKeys_free _ _ List.prefix_rfl run_prefixKeys) hne
    Nat.one_pos _).2 w hw⟩

end TsEthereum
