import TsEthereum.Common.BinaryHeap

/-!
# `Fetcher`

The base class of the fetchers (`fetcher.ts`). A task becomes a job with the next
index; jobs go from the heap `in` to a request, from its reply to the heap `out`,
and from there, in the order of their indices, to the stream and to the writer.
Wherever one does not go on, a copy of it is put back into `in`.

What a subclass brings is a `Subclass`; whether there is an idle peer, and how much
room the stream has, is told where it is asked. Errors of the store are those that
are not fatal, so that `syncErrored` stays unset.
-/

namespace TsEthereum

namespace Sync

inductive JobState
  | idle
  | expired
  | active
  deriving DecidableEq

/-- **`Job`.** -/
structure Job (τ σ : Type) where
  task : τ
  index : ℕ
  result : Option σ
  partialResult : Option σ
  state : JobState

variable {τ ρ σ χ : Type}

/-- **`comparBefore`**, of both heaps. -/
def comparBefore (a b : Job τ σ) : Bool := decide (a.index < b.index)

theorem comparBefore_eq_false {a b : Job τ σ} : comparBefore a b = false ↔ b.index ≤ a.index := by
  rw [comparBefore, decide_eq_false_iff_not, Nat.not_lt]

instance : Ranking (@comparBefore τ σ) where
  asymm := by
    intro a b h
    have hlt : a.index < b.index := of_decide_eq_true h
    exact comparBefore_eq_false.2 hlt.le
  trans := by
    intro a b c hab hbc
    rw [comparBefore_eq_false] at hab hbc ⊢
    exact hab.trans hbc

/-- **`Fetcher`**, with the requests that were made, the jobs in the stream and those the writer
has, and logs of the tasks that were enqueued and of what was stored; `fetchPromise` says whether
there is one, and `ended` that the stream was ended or destroyed. -/
structure Fetcher (τ σ χ : Type) where
  in_ : Heap (@comparBefore τ σ)
  out : Heap (@comparBefore τ σ)
  total : ℕ
  processed : ℕ
  finished : ℕ
  running : Bool
  fetchPromise : Bool
  maxQueue : ℕ
  destroyWhenDone : Bool
  requests : List (Job τ σ)
  stream : List (Job τ σ)
  writing : List (Job τ σ)
  enqueued : List τ
  stored : List (Job τ σ)
  ended : Bool
  sub : χ

/-- **What a subclass brings**: whether a result is empty, `process` with what it leaves for the
next reply and the result, `nextTasks`, and what a store error makes of the first task. -/
structure Subclass (τ ρ σ χ : Type) where
  isEmpty : ρ → Bool
  process : Job τ σ → ρ → Option σ × Option σ
  nextTasks : Fetcher τ σ χ → Fetcher τ σ χ
  steppedBack : τ → τ

namespace Fetcher

variable (S : Subclass τ ρ σ χ) (s : Fetcher τ σ χ)

/-- A new one. -/
def new (maxQueue : ℕ) (destroyWhenDone : Bool) (sub : χ) : Fetcher τ σ χ where
  in_ := Heap.new comparBefore
  out := Heap.new comparBefore
  total := 0
  processed := 0
  finished := 0
  running := false
  fetchPromise := false
  maxQueue := maxQueue
  destroyWhenDone := destroyWhenDone
  requests := []
  stream := []
  writing := []
  enqueued := []
  stored := []
  ended := false
  sub := sub

/-! ## The heaps -/

/-- **`enqueue`.** -/
def enqueue (job : Job τ σ) (dequeued : Bool) : Fetcher τ σ χ :=
  if s.running then
    { s with
      processed := if dequeued then s.processed - 1 else s.processed
      in_ := s.in_.insert { job with state := .idle } }
  else s

/-- `push`: what is pushed behind the end is lost. -/
def push (job : Job τ σ) : Fetcher τ σ χ :=
  if s.ended then s else { s with stream := s.stream ++ [job] }

/-- So many turns of the loop of `dequeue`. -/
def dequeueTurns : ℕ → Fetcher τ σ χ → Fetcher τ σ χ
  | 0, s => s
  | n + 1, s =>
    match s.out.peek with
    | none => s
    | some job =>
      if job.index ≤ s.processed then
        dequeueTurns n ({ s with processed := s.processed + 1, out := s.out.remove }.push job)
      else s

/-- **`dequeue`**, where the stream has room for so many jobs before it is full. -/
def dequeue (room : ℕ) : Fetcher τ σ χ := s.dequeueTurns (room + 1)

/-- The part of `enqueueTask` that makes a job. -/
def insertTask (task : τ) : Fetcher τ σ χ :=
  { s with
    total := s.total + 1
    in_ := s.in_.insert ⟨task, s.total, none, none, .idle⟩
    enqueued := s.enqueued ++ [task] }

/-! ## Requests -/

/-- **`next`**, with what it returns; a job it returns is `true`. -/
def next (streamFull idlePeer : Bool) : Bool × Fetcher τ σ χ :=
  let s := S.nextTasks s
  match s.in_.peek with
  | none => (false, if s.finished = s.total then { s with running := false } else s)
  | some job =>
    if streamFull then (false, s)
    else if s.finished + s.maxQueue < job.index then (false, s)
    else if s.processed = s.total then (false, s)
    else if idlePeer then
      (true, { s with
        in_ := s.in_.remove
        requests := s.requests ++ [{ job with state := .active }] })
    else (false, s)

/-- **The loop of `_fetch`** up to its wait, with what it is told at each call of `next`. -/
def loop : List (Bool × Bool) → Fetcher τ σ χ → Fetcher τ σ χ
  | [], s => s
  | (streamFull, idlePeer) :: asks, s =>
    if s.running then
      match s.next S streamFull idlePeer with
      | (true, s) => loop asks s
      | (false, s) =>
        if s.finished = s.total ∧ s.destroyWhenDone = true then { s with ended := true } else s
    else s

/-- **`fetch`**: what runs, or has a promise, is not started. -/
def fetch (asks : List (Bool × Bool)) : Fetcher τ σ χ :=
  if s.running || s.fetchPromise then s
  else loop S asks (S.nextTasks { s with running := true, fetchPromise := true })

/-- **`enqueueTask`.** -/
def enqueueTask (task : τ) (autoRestart : Bool) (asks : List (Bool × Bool)) : Fetcher τ σ χ :=
  if s.running then s.insertTask task
  else if autoRestart then (s.insertTask task).fetch S asks
  else s

/-- What `success` does with a result that is not empty. -/
def complete (job : Job τ σ) (result : ρ) (room : ℕ) : Fetcher τ σ χ :=
  let processed := S.process job result
  let job := { job with partialResult := processed.1, result := processed.2 }
  if processed.2.isSome then { s with out := s.out.insert job }.dequeue room
  else s.enqueue job false

/-- What it does with a result. -/
def received (job : Job τ σ) (result : Option ρ) (room : ℕ) : Fetcher τ σ χ :=
  match result with
  | none => s.enqueue job false
  | some result => if S.isEmpty result then s.enqueue job false else s.complete S job result room

/-- **`success`.** -/
def success (job : Job τ σ) (result : Option ρ) (room : ℕ) (streamFull idlePeer : Bool) :
    Fetcher τ σ χ :=
  if job.state = .active then ((s.received S job result room).next S streamFull idlePeer).2 else s

/-- **`failure`**, of an error that is not fatal. -/
def failure (jobs : List (Job τ σ)) (dequeued streamFull idlePeer : Bool) : Fetcher τ σ χ :=
  let s := (jobs.filter fun job => job.state = .active).foldl
    (fun s job => s.enqueue job dequeued) s
  (s.next S streamFull idlePeer).2

/-- **`expire`**, of the request at a place. -/
def expire (i : ℕ) (job : Job τ σ) : Fetcher τ σ χ :=
  { s with requests := s.requests.set i { job with state := .expired } }.enqueue job false

/-! ## The writer -/

/-- The writer takes a job, or with `writev` all that wait for it. -/
def write (more : ℕ) : Fetcher τ σ χ :=
  { s with writing := s.stream.take (more + 1), stream := s.stream.drop (more + 1) }

/-- `_write`, where every store succeeds. -/
def written : Fetcher τ σ χ :=
  { s with
    stored := s.stored ++ s.writing
    finished := s.finished + s.writing.length
    writing := [] }

/-- The first task is stepped back. -/
def steppedBack : List (Job τ σ) → List (Job τ σ)
  | [] => []
  | job :: jobs => { job with task := S.steppedBack job.task } :: jobs

/-- **`_write`**, where the store fails after some jobs. -/
def storeError (some_ : ℕ) (streamFull idlePeer : Bool) : Fetcher τ σ χ :=
  { s with stored := s.stored ++ s.writing.take some_, writing := [] }.failure S
    (steppedBack S s.writing) true streamFull idlePeer

/-- **What comes after the wait of the loop**: the loop again, or what is behind it. -/
def turn (asks : List (Bool × Bool)) : Fetcher τ σ χ :=
  if s.running then loop S asks s
  else { s with fetchPromise := false, ended := s.ended || s.destroyWhenDone }

end Fetcher

/-- **What happens to a fetcher.** A place is that of a request. -/
inductive FetcherEvent (τ ρ : Type)
  | enqueueTask (task : τ) (autoRestart : Bool) (asks : List (Bool × Bool))
  | fetch (asks : List (Bool × Bool))
  | turn (asks : List (Bool × Bool))
  | reply (i : ℕ) (result : Option ρ) (room : ℕ) (streamFull idlePeer : Bool)
  | requestError (i : ℕ) (streamFull idlePeer : Bool)
  | expire (i : ℕ)
  | read (room : ℕ)
  | write (more : ℕ)
  | stored
  | storeError (some_ : ℕ) (streamFull idlePeer : Bool)
  | closed

namespace Fetcher

/-- **One of these events**: a reply and an error are of a request that was made, and a timeout of
one that has not expired; the loop turns while there is a promise; the writer takes jobs when it
has none. -/
def step (S : Subclass τ ρ σ χ) (s : Fetcher τ σ χ) : FetcherEvent τ ρ → Fetcher τ σ χ
  | .enqueueTask task autoRestart asks => s.enqueueTask S task autoRestart asks
  | .fetch asks => s.fetch S asks
  | .turn asks => if s.fetchPromise then s.turn S asks else s
  | .reply i result room streamFull idlePeer =>
    match s.requests[i]? with
    | none => s
    | some job =>
      { s with requests := s.requests.eraseIdx i }.success S job result room streamFull idlePeer
  | .requestError i streamFull idlePeer =>
    match s.requests[i]? with
    | none => s
    | some job =>
      { s with requests := s.requests.eraseIdx i }.failure S [job] false streamFull idlePeer
  | .expire i =>
    match s.requests[i]? with
    | none => s
    | some job => if job.state = .active then s.expire i job else s
  | .read room => s.dequeue room
  | .write more => if s.writing = [] then s.write more else s
  | .stored => s.written
  | .storeError some_ streamFull idlePeer =>
    if some_ < s.writing.length then s.storeError S some_ streamFull idlePeer else s
  | .closed => if s.ended then { s with running := false } else s

end Fetcher

end Sync

end TsEthereum
