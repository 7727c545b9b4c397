import TsEthereum.Common.Runs
import TsEthereum.Fetcher.Fetcher

/-!
# What a fetcher stores

Every job that is not finished is in one place: in a heap, in a request that has not
expired, in the stream, or in the writer (`live`). So its index is one below `total`,
and there is one job for each that is not done (`Sound`); at rest all are. As long as
no store fails, what was stored, is written and waits in the stream are the first jobs
in their order (`InOrder`).

A fetcher stops in two steps: `running` is false as soon as all is finished, and the
promise is dropped after a last wait. What is enqueued in between to restart it is
left in `in`, where nothing takes it: `fetch` returns the old promise. Where this
does not happen nothing is lost (`nothing_lost`).
-/

namespace TsEthereum

namespace Sync

variable {τ ρ σ χ : Type}

/-- The index and the task of a job. -/
def Job.key (job : Job τ σ) : ℕ × τ := (job.index, job.task)

namespace Fetcher

variable {S : Subclass τ ρ σ χ} {ok : τ → Prop} {ordered : Prop} {s s' : Fetcher τ σ χ} {job : Job τ σ} {jobs : List (Job τ σ)}
  {done : List ℕ}

/-! ## Where jobs are -/

/-- The requests that have not expired. -/
def active (s : Fetcher τ σ χ) : List (Job τ σ) := s.requests.filter fun job => job.state = .active

/-- **The copies of jobs that are live.** -/
def live (s : Fetcher τ σ χ) : List (Job τ σ) :=
  s.in_.list ++ s.active ++ s.out.list ++ s.stream ++ s.writing

/-- Their keys. -/
def keys (s : Fetcher τ σ χ) : List (ℕ × τ) := s.live.map Job.key

theorem keys_insert (job : Job τ σ) {in_ : Heap (@comparBefore τ σ)}
    (h : in_.list.Perm (job :: s.in_.list)) :
    ({ s with in_ := in_ }.keys).Perm (job.key :: s.keys) := by
  have hlive : ({ s with in_ := in_ }.live).Perm (job :: s.live) :=
    (((h.append_right _).append_right _).append_right _).append_right _
  exact hlive.map Job.key

theorem keys_enqueue (hrunning : s.running = true) (job : Job τ σ) (dequeued : Bool) :
    (s.enqueue job dequeued).keys.Perm (job.key :: s.keys) := by
  rw [enqueue, if_pos hrunning]
  exact keys_insert { job with state := .idle } Heap.insert_perm

theorem keys_insertTask (task : τ) : (s.insertTask task).keys.Perm ((s.total, task) :: s.keys) :=
  keys_insert ⟨task, s.total, none, none, .idle⟩ Heap.insert_perm

theorem keys_out_insert (job : Job τ σ) :
    ({ s with out := s.out.insert job }.keys).Perm (job.key :: s.keys) := by
  have hlive : ({ s with out := s.out.insert job }.live).Perm (job :: s.live) := by
    refine (((Heap.insert_perm.append_left _).append_right _).append_right _).trans ?_
    simp only [live, List.append_assoc, List.cons_append]
    rw [← List.append_assoc]
    refine List.perm_middle.trans ?_
    rw [List.append_assoc]
    exact List.Perm.refl _
  exact hlive.map Job.key

theorem keys_push (hended : s.ended = false) (hpeek : s.out.peek = some job) :
    ({ s with processed := s.processed + 1, out := s.out.remove }.push job).keys.Perm s.keys := by
  rw [push, if_neg (by simp only [hended, Bool.false_eq_true, not_false_eq_true])]
  have hlive : ({ s with
      processed := s.processed + 1
      out := s.out.remove
      stream := s.stream ++ [job] }.live).Perm s.live := by
    simp only [live, List.append_assoc]
    refine List.Perm.append_left _ (List.Perm.append_left _ ?_)
    have hmove : (s.out.remove.list ++ (s.stream ++ ([job] ++ s.writing))).Perm
        ((job :: s.out.remove.list) ++ (s.stream ++ s.writing)) := by
      rw [List.cons_append]
      refine List.Perm.trans ?_ List.perm_middle
      exact List.Perm.append_left _ List.perm_middle
    exact hmove.trans ((Heap.remove_perm hpeek).append_right _)
  exact hlive.map Job.key

theorem keys_request (hpeek : s.in_.peek = some job) :
    ({ s with
      in_ := s.in_.remove
      requests := s.requests ++ [{ job with state := .active }] }.keys).Perm s.keys := by
  have hkeys : ∀ s : Fetcher τ σ χ, s.keys = s.in_.list.map Job.key ++ (s.active.map Job.key ++
      (s.out.list ++ s.stream ++ s.writing).map Job.key) := by
    intro s
    simp only [keys, live, List.map_append, List.append_assoc]
  rw [hkeys, hkeys s]
  have hactive : ({ s with
      in_ := s.in_.remove
      requests := s.requests ++ [{ job with state := .active }] }.active).map Job.key =
      s.active.map Job.key ++ [job.key] := by
    simp only [active, List.filter_append, List.map_append]
    rfl
  rw [hactive, List.append_assoc, List.singleton_append]
  have hroot : (job.key :: s.in_.remove.list.map Job.key).Perm (s.in_.list.map Job.key) :=
    (Heap.remove_perm hpeek).map Job.key
  refine List.Perm.trans ?_ (hroot.append_right _)
  rw [List.cons_append]
  refine List.Perm.trans ?_ List.perm_middle
  exact List.Perm.append_left _ List.perm_middle

theorem keys_eraseIdx {i : ℕ} (hget : s.requests[i]? = some job) (hactive : job.state = .active) :
    s.keys.Perm (job.key :: { s with requests := s.requests.eraseIdx i }.keys) := by
  obtain ⟨hlt, hjob⟩ := List.getElem?_eq_some_iff.1 hget
  have hperm : s.requests.Perm (job :: s.requests.eraseIdx i) := by
    rw [← hjob]
    exact (List.getElem_cons_eraseIdx_perm hlt).symm
  have hfilter : s.active.Perm (job :: { s with requests := s.requests.eraseIdx i }.active) := by
    refine (hperm.filter _).trans ?_
    rw [List.filter_cons_of_pos (by simp only [hactive, decide_true])]
    exact List.Perm.refl _
  have hlive : s.live.Perm (job :: { s with requests := s.requests.eraseIdx i }.live) := by
    simp only [live, List.append_assoc]
    refine ((hfilter.append_right _).append_left _).trans ?_
    exact List.perm_middle
  exact hlive.map Job.key

theorem keys_eraseIdx_expired {i : ℕ} (hget : s.requests[i]? = some job)
    (hexpired : job.state ≠ .active) :
    s.keys.Perm { s with requests := s.requests.eraseIdx i }.keys := by
  obtain ⟨hlt, hjob⟩ := List.getElem?_eq_some_iff.1 hget
  have hperm : s.requests.Perm (job :: s.requests.eraseIdx i) := by
    rw [← hjob]
    exact (List.getElem_cons_eraseIdx_perm hlt).symm
  have hfilter : s.active.Perm { s with requests := s.requests.eraseIdx i }.active := by
    refine (hperm.filter _).trans ?_
    rw [List.filter_cons_of_neg (by simp only [hexpired, decide_false, Bool.false_eq_true,
      not_false_eq_true])]
    exact List.Perm.refl _
  have hlive : s.live.Perm { s with requests := s.requests.eraseIdx i }.live := by
    simp only [live, List.append_assoc]
    exact (hfilter.append_right _).append_left _
  exact hlive.map Job.key

/-! ## Every job is in one place -/

/-- A key is that of a task that was enqueued, as store errors left it; `ok` is said of each task
that was stepped back. -/
def Derived (S : Subclass τ ρ σ χ) (ok : τ → Prop) (tasks : List τ) (key : ℕ × τ) : Prop :=
  ∃ n task, tasks[key.1]? = some task ∧ key.2 = S.steppedBack^[n] task ∧
    ∀ m < n, ok (S.steppedBack^[m] task)

theorem Derived.concat {tasks : List τ} {key : ℕ × τ} (h : Derived S ok tasks key) (task : τ) :
    Derived S ok (tasks ++ [task]) key := by
  obtain ⟨n, t, hget, hkey⟩ := h
  refine ⟨n, t, ?_, hkey⟩
  rw [List.getElem?_append_left (List.getElem?_eq_some_iff.1 hget).1, hget]

theorem Derived.succ {tasks : List τ} {index : ℕ} {task : τ}
    (h : Derived S ok tasks (index, task)) (hok : ok task) :
    Derived S ok tasks (index, S.steppedBack task) := by
  obtain ⟨n, t, hget, htask, hall⟩ := h
  refine ⟨n + 1, t, hget, ?_, fun m hm => ?_⟩
  · rw [Function.iterate_succ_apply', ← htask]
  · rcases Nat.lt_succ_iff_lt_or_eq.1 hm with hm | rfl
    · exact hall m hm
    · exact htask ▸ hok

/-- **What was stored, is written and waits in the stream** are the first jobs in order, with the
tasks that were enqueued. -/
structure InOrder (s : Fetcher τ σ χ) (hand : List (ℕ × τ)) (done : List ℕ) : Prop where
  order : (s.stored ++ s.writing ++ s.stream).map Job.index = List.range s.processed
  done : done = s.stored.map Job.index
  task : ∀ key ∈ s.keys ++ hand ++ s.stored.map Job.key, s.enqueued[key.1]? = some key.2

/-- **The books of a fetcher**, where some jobs are in hand, so many of them dequeued, and `done`
are finished: the indices are those below `total`, each once, the counters count, what is not
running is finished, and what has ended does not run; `ordered` is that no store failed. -/
structure Sound (S : Subclass τ ρ σ χ) (ok : τ → Prop) (ordered : Prop) (s : Fetcher τ σ χ)
    (hand : List (ℕ × τ)) (dequeued : ℕ) (done : List ℕ) : Prop where
  perm : ((s.keys ++ hand).map Prod.fst ++ done).Perm (List.range s.total)
  tasks : s.enqueued.length = s.total
  derived : ∀ key ∈ s.keys ++ hand, Derived S ok s.enqueued key
  finished : s.finished = done.length
  processed : s.processed = s.finished + s.stream.length + s.writing.length + dequeued
  stored : ∀ i ∈ done, ∃ job ∈ s.stored, job.index = i ∧ Derived S ok s.enqueued job.key
  ready : ∀ job ∈ s.out.list ++ s.stream ++ s.writing, job.state = .active ∧ job.result.isSome
  results : ∀ job ∈ s.stored, job.result.isSome
  promise : s.running = true → s.fetchPromise = true
  idle : s.running = false → s.finished = s.total
  ended : s.ended = true → s.running = false
  inOrder : ordered → InOrder s hand done

namespace Sound

variable {hand : List (ℕ × τ)} {dequeued : ℕ} {key : ℕ × τ}

theorem length (h : Sound S ok ordered s hand dequeued done) :
    s.keys.length + hand.length + s.finished = s.total := by
  have hlength := h.perm.length_eq
  rw [List.length_append, List.length_map, List.length_append, List.length_range] at hlength
  rw [h.finished, hlength]

theorem running (h : Sound S ok ordered s hand dequeued done) (hkey : key ∈ s.keys ++ hand) :
    s.running = true := by
  by_contra hstopped
  have hidle := h.idle (Bool.eq_false_iff.2 hstopped)
  have hlength := h.length
  have hpos := List.length_pos_of_mem hkey
  rw [List.length_append] at hpos
  omega

theorem not_ended (h : Sound S ok ordered s hand dequeued done) (hrunning : s.running = true) :
    s.ended = false := by
  by_contra hended
  have hstopped := h.ended (by rwa [Bool.not_eq_false] at hended)
  rw [hrunning] at hstopped
  cases hstopped

theorem of_keys (h : Sound S ok ordered s hand dequeued done) {hand' : List (ℕ × τ)} {dequeued' : ℕ}
    (hkeys : (s'.keys ++ hand').Perm (s.keys ++ hand)) (htotal : s'.total = s.total)
    (htasks : s'.enqueued = s.enqueued) (hfinished : s'.finished = s.finished)
    (hstored : s'.stored = s.stored) (hrunning : s'.running = s.running)
    (hpromise : s'.fetchPromise = s.fetchPromise) (hended : s'.ended = s.ended)
    (hprocessed : s'.processed = s.finished + s'.stream.length + s'.writing.length + dequeued')
    (hready : ∀ job ∈ s'.out.list ++ s'.stream ++ s'.writing,
      job.state = .active ∧ job.result.isSome)
    (horder : ordered →
      (s'.stored ++ s'.writing ++ s'.stream).map Job.index = List.range s'.processed) :
    Sound S ok ordered s' hand' dequeued' done where
  perm := by
    rw [htotal]
    exact ((hkeys.map Prod.fst).append_right done).trans h.perm
  tasks := by rw [htasks, htotal, h.tasks]
  derived := by
    intro key hkey
    rw [htasks]
    exact h.derived key (hkeys.mem_iff.1 hkey)
  finished := by rw [hfinished, h.finished]
  processed := by rw [hprocessed, hfinished]
  stored := by
    intro i hi
    rw [hstored, htasks]
    exact h.stored i hi
  ready := hready
  results := by
    rw [hstored]
    exact h.results
  promise := by
    rw [hrunning, hpromise]
    exact h.promise
  idle := by
    rw [hrunning, hfinished, htotal]
    exact h.idle
  ended := by
    rw [hended, hrunning]
    exact h.ended
  inOrder := by
    intro ho
    refine ⟨horder ho, by rw [hstored]; exact (h.inOrder ho).done, fun key hkey => ?_⟩
    rw [hstored, ((hkeys.append_right _).mem_iff)] at hkey
    rw [htasks]
    exact (h.inOrder ho).task key hkey

theorem insertTask (h : Sound S ok ordered s hand dequeued done) (hrunning : s.running = true) (task : τ) :
    Sound S ok ordered (s.insertTask task) hand dequeued done where
  perm := by
    have hkeys := ((keys_insertTask (s := s) task).append_right hand).map Prod.fst
    refine (hkeys.append_right done).trans ?_
    have hrange : List.range (s.insertTask task).total = List.range s.total ++ [s.total] :=
      List.range_succ
    rw [hrange]
    exact (h.perm.cons s.total).trans (List.perm_append_singleton _ _).symm
  tasks := by
    have htasks := h.tasks
    change (s.enqueued ++ [task]).length = s.total + 1
    rw [List.length_append, List.length_singleton, htasks]
  derived := by
    intro key hkey
    rcases List.mem_cons.1
      (((keys_insertTask (s := s) task).append_right hand).mem_iff.1 hkey) with rfl | hkey
    · refine ⟨0, task, ?_, rfl, fun m hm => absurd hm (Nat.not_lt_zero m)⟩
      change (s.enqueued ++ [task])[s.total]? = some task
      rw [← h.tasks, List.getElem?_concat_length]
    · exact (h.derived key hkey).concat task
  finished := h.finished
  processed := h.processed
  stored := by
    intro i hi
    obtain ⟨job, hjob, hindex, hderived⟩ := h.stored i hi
    exact ⟨job, hjob, hindex, hderived.concat task⟩
  ready := h.ready
  results := h.results
  promise := h.promise
  idle := by
    intro hstopped
    rw [show s.running = false from hstopped] at hrunning
    cases hrunning
  ended := h.ended
  inOrder := by
    intro ho
    obtain ⟨horder, hdone, htask⟩ := h.inOrder ho
    refine ⟨horder, hdone, fun key hkey => ?_⟩
    rcases List.mem_cons.1
      ((((keys_insertTask (s := s) task).append_right hand).append_right _).mem_iff.1 hkey) with
      rfl | hkey
    · change (s.enqueued ++ [task])[s.total]? = some task
      rw [← h.tasks, List.getElem?_concat_length]
    · have hget := htask key hkey
      change (s.enqueued ++ [task])[key.1]? = some key.2
      rw [List.getElem?_append_left (List.getElem?_eq_some_iff.1 hget).1, hget]

theorem enqueue (h : Sound S ok ordered s (job.key :: hand) dequeued done) :
    Sound S ok ordered (s.enqueue job false) hand dequeued done := by
  have hrunning : s.running = true := h.running (List.mem_append_right _ List.mem_cons_self)
  have hkeys : ((s.enqueue job false).keys ++ hand).Perm (s.keys ++ job.key :: hand) :=
    ((keys_enqueue hrunning job false).append_right hand).trans List.perm_middle.symm
  rw [Fetcher.enqueue, if_pos hrunning] at hkeys ⊢
  exact h.of_keys hkeys rfl rfl rfl rfl rfl rfl rfl h.processed h.ready
    fun ho => (h.inOrder ho).order

theorem enqueue_dequeued (h : Sound S ok ordered s (job.key :: hand) (dequeued + 1) done)
    (hfail : ¬ ordered) :
    Sound S ok ordered (s.enqueue job true) hand dequeued done := by
  have hrunning : s.running = true := h.running (List.mem_append_right _ List.mem_cons_self)
  have hkeys : ((s.enqueue job true).keys ++ hand).Perm (s.keys ++ job.key :: hand) :=
    ((keys_enqueue hrunning job true).append_right hand).trans List.perm_middle.symm
  have hprocessed := h.processed
  rw [Fetcher.enqueue, if_pos hrunning] at hkeys ⊢
  refine h.of_keys hkeys rfl rfl rfl rfl rfl rfl rfl ?_ h.ready fun ho => absurd ho hfail
  change s.processed - 1 = s.finished + s.stream.length + s.writing.length + dequeued
  omega

theorem out_insert (h : Sound S ok ordered s (job.key :: hand) dequeued done) (hactive : job.state = .active)
    (hresult : job.result.isSome) :
    Sound S ok ordered { s with out := s.out.insert job } hand dequeued done := by
  refine h.of_keys (((keys_out_insert job).append_right hand).trans List.perm_middle.symm) rfl rfl
    rfl rfl rfl rfl rfl h.processed (fun j hj => ?_) fun ho => (h.inOrder ho).order
  rw [List.append_assoc, List.mem_append, Heap.insert_perm.mem_iff, List.mem_cons] at hj
  rcases hj with (rfl | hj) | hj
  · exact ⟨hactive, hresult⟩
  · exact h.ready j (by rw [List.append_assoc]; exact List.mem_append_left _ hj)
  · exact h.ready j (by rw [List.append_assoc]; exact List.mem_append_right _ hj)

theorem index_eq (h : Sound S ok ordered s hand dequeued done) (ho : ordered)
    (hroot : job ∈ s.out.list) (hle : job.index ≤ s.processed) : job.index = s.processed := by
  obtain ⟨horder, hdone, -⟩ := h.inOrder ho
  by_contra hne
  -- else it is the index of a job that is further, or stored
  have hmem : job.index ∈ (s.stored ++ s.writing ++ s.stream).map Job.index := by
    rw [horder, List.mem_range]
    omega
  have hnodup := h.perm.nodup_iff.2 List.nodup_range
  rw [List.map_append, List.append_assoc, List.nodup_append] at hnodup
  obtain ⟨hkeys, -, hapart⟩ := hnodup
  have hindex : s.keys.map Prod.fst = s.live.map Job.index := by
    rw [keys, List.map_map]
    rfl
  rw [hindex] at hkeys hapart
  rw [List.append_assoc, List.map_append, List.mem_append] at hmem
  rcases hmem with hmem | hmem
  · refine hapart job.index ?_ job.index (List.mem_append_right _ (hdone ▸ hmem)) rfl
    refine List.mem_map_of_mem ?_
    simp only [live, List.mem_append]
    exact .inl (.inl (.inr hroot))
  · rw [live, List.append_assoc _ s.stream, List.map_append, List.nodup_append] at hkeys
    refine hkeys.2.2 job.index ?_ job.index ?_ rfl
    · refine List.mem_map_of_mem ?_
      simp only [List.mem_append]
      exact .inr hroot
    · simp only [List.map_append, List.mem_append] at hmem ⊢
      exact hmem.symm

theorem push (h : Sound S ok ordered s hand dequeued done) (hpeek : s.out.peek = some job)
    (hle : job.index ≤ s.processed) :
    Sound S ok ordered ({ s with processed := s.processed + 1, out := s.out.remove }.push job) hand dequeued
      done := by
  have hroot : job ∈ s.out.list := List.mem_of_mem_head? hpeek
  have hkey : job.key ∈ s.keys := by
    refine List.mem_map_of_mem ?_
    simp only [live, List.mem_append]
    exact .inl (.inl (.inr hroot))
  have hended := h.not_ended (h.running (List.mem_append_left _ hkey))
  have hkeys := (keys_push hended hpeek).append_right hand
  have hready := h.ready
  have hprocessed := h.processed
  rw [Fetcher.push, if_neg (by simp only [hended, Bool.false_eq_true, not_false_eq_true])] at hkeys ⊢
  refine h.of_keys hkeys rfl rfl rfl rfl rfl rfl rfl ?_ (fun j hj => hready j ?_) fun ho => ?_
  · simp only [List.length_append, List.length_singleton]
    omega
  · simp only [List.mem_append, List.mem_singleton] at hj ⊢
    rcases hj with (hj | hj | rfl) | hj
    · exact .inl (.inl ((Heap.remove_perm hpeek).mem_iff.1 (List.mem_cons_of_mem _ hj)))
    · exact .inl (.inr hj)
    · exact .inl (.inl hroot)
    · exact .inr hj
  · change (s.stored ++ s.writing ++ (s.stream ++ [job])).map Job.index =
      List.range (s.processed + 1)
    rw [← List.append_assoc, List.map_append, (h.inOrder ho).order, List.range_succ,
      ← h.index_eq ho hroot hle]
    rfl

theorem dequeueTurns (h : Sound S ok ordered s hand dequeued done) (turns : ℕ) :
    Sound S ok ordered (s.dequeueTurns turns) hand dequeued done := by
  induction turns generalizing s with
  | zero => exact h
  | succ turns ih =>
    rw [Fetcher.dequeueTurns]
    cases hpeek : s.out.peek with
    | none => exact h
    | some job =>
      dsimp only
      split
      · rename_i hle
        exact ih (h.push hpeek hle)
      · exact h

end Sound

/-! ## What is called -/

/-- **`nextTasks` of a subclass enqueues tasks**, and changes what is the subclass's. -/
def Enqueues (S : Subclass τ ρ σ χ) : Prop :=
  ∀ s : Fetcher τ σ χ, ∃ (tasks : List τ) (sub : χ), S.nextTasks s =
    { tasks.foldl (fun s task => s.enqueueTask S task false []) s with sub := sub }

namespace Sound

variable {hand : List (ℕ × τ)} {dequeued : ℕ}

theorem with_sub (h : Sound S ok ordered s hand dequeued done) (sub : χ) :
    Sound S ok ordered { s with sub := sub } hand dequeued done :=
  ⟨h.perm, h.tasks, h.derived, h.finished, h.processed, h.stored, h.ready, h.results, h.promise,
    h.idle, h.ended, fun ho => ⟨(h.inOrder ho).order, (h.inOrder ho).done, (h.inOrder ho).task⟩⟩

theorem enqueueTask (h : Sound S ok ordered s hand dequeued done) (task : τ)
    (asks : List (Bool × Bool)) :
    Sound S ok ordered (s.enqueueTask S task false asks) hand dequeued done := by
  rw [Fetcher.enqueueTask]
  by_cases hrunning : s.running = true
  · rw [if_pos hrunning]
    exact h.insertTask hrunning task
  · rw [if_neg hrunning, if_neg Bool.false_ne_true]
    exact h

theorem nextTasks (hS : Enqueues S) (h : Sound S ok ordered s hand dequeued done) :
    Sound S ok ordered (S.nextTasks s) hand dequeued done := by
  obtain ⟨tasks, sub, hnext⟩ := hS s
  rw [hnext]
  have hfold : Sound S ok ordered (tasks.foldl (fun s task => s.enqueueTask S task false []) s) hand
      dequeued done := by
    refine foldl_keeps (P := fun s => Sound S ok ordered s hand dequeued done) (fun s task hs => ?_) tasks h
    exact hs.enqueueTask task []
  exact hfold.with_sub sub

theorem next (hS : Enqueues S) (h : Sound S ok ordered s hand dequeued done) (streamFull idlePeer : Bool) :
    Sound S ok ordered (s.next S streamFull idlePeer).2 hand dequeued done := by
  have hnext := h.nextTasks hS
  rw [Fetcher.next]
  generalize S.nextTasks s = s at hnext
  cases hpeek : s.in_.peek with
  | none =>
    dsimp only
    split
    · rename_i hall
      exact ⟨hnext.perm, hnext.tasks, hnext.derived, hnext.finished, hnext.processed, hnext.stored,
        hnext.ready, hnext.results, fun hc => absurd hc Bool.false_ne_true, fun _ => hall,
        fun _ => rfl, fun ho =>
          ⟨(hnext.inOrder ho).order, (hnext.inOrder ho).done, (hnext.inOrder ho).task⟩⟩
    · exact hnext
  | some job =>
    dsimp only
    split
    · exact hnext
    split
    · exact hnext
    split
    · exact hnext
    split
    · exact hnext.of_keys ((keys_request hpeek).append_right hand) rfl rfl rfl rfl rfl rfl rfl
        hnext.processed hnext.ready fun ho => (hnext.inOrder ho).order
    · exact hnext

theorem received (h : Sound S ok ordered s (job.key :: hand) dequeued done) (hactive : job.state = .active)
    (result : Option ρ) (room : ℕ) : Sound S ok ordered (s.received S job result room) hand dequeued done := by
  cases result with
  | none => exact h.enqueue
  | some result =>
    rw [Fetcher.received]
    split
    · exact h.enqueue
    · rw [complete]
      split
      · rename_i hsome
        refine Sound.dequeueTurns (Sound.out_insert ?_ ?_ ?_) _
        · exact h
        · exact hactive
        · exact hsome
      · have hhand : Sound S ok ordered s (({ job with
            partialResult := (S.process job result).1
            result := (S.process job result).2 } : Job τ σ).key :: hand) dequeued done := h
        exact hhand.enqueue

theorem enqueues {jobs : List (Job τ σ)} (hactive : ∀ job ∈ jobs, job.state = .active)
    (h : Sound S ok ordered s (jobs.map Job.key) 0 done) :
    Sound S ok ordered ((jobs.filter fun job => job.state = .active).foldl
      (fun s job => s.enqueue job false) s) [] 0 done := by
  rw [List.filter_eq_self.2 fun job hjob => by rw [hactive job hjob]; rfl]
  induction jobs generalizing s with
  | nil => exact h
  | cons job jobs ih =>
    exact ih (List.forall_mem_cons.1 hactive).2 h.enqueue

theorem enqueues_dequeued {jobs : List (Job τ σ)} (hactive : ∀ job ∈ jobs, job.state = .active)
    (h : Sound S ok ordered s (jobs.map Job.key) jobs.length done) (hfail : ¬ ordered) :
    Sound S ok ordered ((jobs.filter fun job => job.state = .active).foldl
      (fun s job => s.enqueue job true) s) [] 0 done := by
  rw [List.filter_eq_self.2 fun job hjob => by rw [hactive job hjob]; rfl]
  induction jobs generalizing s with
  | nil => exact h
  | cons job jobs ih =>
    exact ih (List.forall_mem_cons.1 hactive).2 (h.enqueue_dequeued hfail)

theorem take_request {i : ℕ} (h : Sound S ok ordered s [] 0 done) (hget : s.requests[i]? = some job)
    (hactive : job.state = .active) :
    Sound S ok ordered { s with requests := s.requests.eraseIdx i } [job.key] 0 done := by
  refine h.of_keys ?_ rfl rfl rfl rfl rfl rfl rfl h.processed h.ready fun ho => (h.inOrder ho).order
  rw [List.append_nil]
  exact (List.perm_append_singleton _ _).trans (keys_eraseIdx hget hactive).symm

theorem take_expired {i : ℕ} (h : Sound S ok ordered s [] 0 done) (hget : s.requests[i]? = some job)
    (hexpired : job.state ≠ .active) :
    Sound S ok ordered { s with requests := s.requests.eraseIdx i } [] 0 done :=
  h.of_keys ((keys_eraseIdx_expired hget hexpired).symm.append_right []) rfl rfl rfl rfl rfl rfl rfl
    h.processed h.ready fun ho => (h.inOrder ho).order

theorem reply {i : ℕ} (hS : Enqueues S) (h : Sound S ok ordered s [] 0 done)
    (hget : s.requests[i]? = some job) (result : Option ρ) (room : ℕ)
    (streamFull idlePeer : Bool) :
    Sound S ok ordered ({ s with requests := s.requests.eraseIdx i }.success S job result room streamFull
      idlePeer) [] 0 done := by
  rw [success]
  split
  · rename_i hactive
    exact ((h.take_request hget hactive).received hactive result room).next hS streamFull idlePeer
  · rename_i hexpired
    exact h.take_expired hget hexpired

theorem requestError {i : ℕ} (hS : Enqueues S) (h : Sound S ok ordered s [] 0 done)
    (hget : s.requests[i]? = some job) (streamFull idlePeer : Bool) :
    Sound S ok ordered ({ s with requests := s.requests.eraseIdx i }.failure S [job] false streamFull
      idlePeer) [] 0 done := by
  rw [failure]
  by_cases hactive : job.state = .active
  · refine Sound.next hS (Sound.enqueues (fun j hj => ?_) (h.take_request hget hactive)) _ _
    rwa [List.mem_singleton.1 hj]
  · rw [List.filter_cons_of_neg (by simp only [hactive, decide_false, Bool.false_eq_true,
      not_false_eq_true])]
    exact Sound.next hS (h.take_expired hget hactive) _ _

theorem expire {i : ℕ} (h : Sound S ok ordered s [] 0 done) (hget : s.requests[i]? = some job)
    (hactive : job.state = .active) : Sound S ok ordered (s.expire i job) [] 0 done := by
  have htaken := h.take_request hget hactive
  obtain ⟨hlt, hjob⟩ := List.getElem?_eq_some_iff.1 hget
  have hset : (s.requests.set i { job with state := .expired }).Perm
      ({ job with state := .expired } :: s.requests.eraseIdx i) :=
    List.set_perm_cons_eraseIdx hlt _
  have hfilter : { s with requests := s.requests.set i { job with state := .expired } }.active.Perm
      { s with requests := s.requests.eraseIdx i }.active := by
    refine (hset.filter _).trans ?_
    rw [List.filter_cons_of_neg (by simp only [reduceCtorEq, decide_false, Bool.false_eq_true,
      not_false_eq_true])]
    exact List.Perm.refl _
  have hlive : { s with requests := s.requests.set i { job with state := .expired } }.live.Perm
      { s with requests := s.requests.eraseIdx i }.live := by
    simp only [live, List.append_assoc]
    exact (hfilter.append_right _).append_left _
  have hhand : Sound S ok ordered
      { s with requests := s.requests.set i { job with state := .expired } } [job.key] 0 done :=
    htaken.of_keys ((hlive.map Job.key).append_right _) rfl rfl rfl rfl rfl rfl rfl
      htaken.processed htaken.ready fun ho => (htaken.inOrder ho).order
  exact hhand.enqueue

theorem write (h : Sound S ok ordered s [] 0 done) (hnone : s.writing = []) (more : ℕ) :
    Sound S ok ordered (s.write more) [] 0 done := by
  have hsplit := List.take_append_drop (more + 1) s.stream
  have hlive : (s.write more).live.Perm s.live := by
    simp only [live, active, Fetcher.write, List.append_assoc, hnone, List.append_nil]
    refine List.Perm.append_left _ (List.Perm.append_left _ (List.Perm.append_left _ ?_))
    exact List.perm_append_comm.trans (List.Perm.of_eq hsplit)
  refine h.of_keys ((hlive.map Job.key).append_right []) rfl rfl rfl rfl rfl rfl rfl ?_
    (fun job hjob => h.ready job ?_) fun ho => ?_
  · have hlength := congrArg List.length hsplit
    rw [List.length_append] at hlength
    have hprocessed := h.processed
    rw [hnone, List.length_nil] at hprocessed
    change s.processed = s.finished + (s.stream.drop (more + 1)).length +
      (s.stream.take (more + 1)).length + 0
    omega
  · simp only [Fetcher.write, List.mem_append] at hjob ⊢
    rcases hjob with (hjob | hjob) | hjob
    · exact .inl (.inl hjob)
    · exact .inl (.inr (List.mem_of_mem_drop hjob))
    · exact .inl (.inr (List.mem_of_mem_take hjob))
  · have horder := (h.inOrder ho).order
    rw [hnone, List.append_nil] at horder
    change (s.stored ++ s.stream.take (more + 1) ++ s.stream.drop (more + 1)).map Job.index = _
    rw [List.append_assoc, hsplit, horder]
    rfl

theorem written (h : Sound S ok ordered s [] 0 done) :
    Sound S ok ordered s.written [] 0 (done ++ s.writing.map Job.index) where
  perm := by
    have hlive : s.live = s.written.live ++ s.writing := by
      simp only [live, active, Fetcher.written, List.append_nil]
    have hperm := h.perm
    rw [List.append_nil, keys, hlive, List.map_append, List.map_append] at hperm
    rw [List.append_nil]
    refine List.Perm.trans ?_ hperm
    rw [List.append_assoc]
    refine List.Perm.append_left _ ?_
    have hkeys : (s.writing.map Job.key).map Prod.fst = s.writing.map Job.index := by
      rw [List.map_map]
      rfl
    rw [hkeys]
    exact List.perm_append_comm
  tasks := h.tasks
  derived := by
    intro key hkey
    refine h.derived key ?_
    rw [List.append_nil] at hkey ⊢
    refine List.map_subset _ ?_ hkey
    simp only [live, active, Fetcher.written, List.append_nil]
    exact List.subset_append_left _ _
  finished := by
    change s.finished + s.writing.length = _
    rw [h.finished, List.length_append, List.length_map]
  processed := by
    have hprocessed := h.processed
    change s.processed = s.finished + s.writing.length + s.stream.length + 0 + 0
    omega
  stored := by
    intro i hi
    rcases List.mem_append.1 hi with hi | hi
    · obtain ⟨job, hjob, hindex, hderived⟩ := h.stored i hi
      exact ⟨job, List.mem_append_left _ hjob, hindex, hderived⟩
    · obtain ⟨job, hjob, hindex⟩ := List.mem_map.1 hi
      refine ⟨job, List.mem_append_right _ hjob, hindex, h.derived job.key ?_⟩
      rw [List.append_nil]
      exact List.mem_map_of_mem (List.mem_append_right _ hjob)
  ready := by
    intro job hjob
    refine h.ready job ?_
    simp only [Fetcher.written, List.append_nil] at hjob
    exact List.mem_append_left _ hjob
  results := by
    intro job hjob
    rcases List.mem_append.1 hjob with hjob | hjob
    · exact h.results job hjob
    · exact (h.ready job (List.mem_append_right _ hjob)).2
  promise := h.promise
  idle := by
    intro hstopped
    have hfinished := h.idle hstopped
    have hlength := h.length
    have hwriting : s.writing.length ≤ s.keys.length := by
      rw [keys, live, List.length_map, List.length_append]
      exact Nat.le_add_left _ _
    change s.finished + s.writing.length = s.total
    omega
  ended := h.ended
  inOrder := by
    intro ho
    obtain ⟨horder, hdone, htask⟩ := h.inOrder ho
    refine ⟨?_, ?_, fun key hkey => htask key ?_⟩
    · change (s.stored ++ s.writing ++ [] ++ s.stream).map Job.index = _
      rw [List.append_nil, horder]
      rfl
    · change done ++ s.writing.map Job.index = (s.stored ++ s.writing).map Job.index
      rw [hdone, List.map_append]
    · simp only [keys, live, active, Fetcher.written, List.append_nil, List.map_append,
        List.mem_append] at hkey ⊢
      tauto

theorem storeError (hS : Enqueues S) (h : Sound S ok ordered s [] 0 done) (hfail : ¬ ordered)
    (hok : ∀ job, s.writing.head? = some job → ok job.task) (some_ : ℕ) (streamFull idlePeer : Bool) :
    Sound S ok ordered (s.storeError S some_ streamFull idlePeer) [] 0 done := by
  have hready : ∀ job ∈ s.writing, job.state = .active ∧ job.result.isSome := fun job hjob =>
    h.ready job (List.mem_append_right _ hjob)
  have hderived : ∀ job ∈ s.writing, Derived S ok s.enqueued job.key := by
    intro job hjob
    refine h.derived job.key ?_
    rw [List.append_nil]
    exact List.mem_map_of_mem (List.mem_append_right _ hjob)
  have hlive : s.live = { s with
      stored := s.stored ++ s.writing.take some_
      writing := [] }.live ++ s.writing := by
    simp only [live, active, List.append_nil]
  have hindex : (Fetcher.steppedBack S s.writing).map Job.index = s.writing.map Job.index := by
    cases s.writing with
    | nil => rfl
    | cons job jobs => rfl
  have hlength : (Fetcher.steppedBack S s.writing).length = s.writing.length := by
    have hlength := congrArg List.length hindex
    rwa [List.length_map, List.length_map] at hlength
  have hfst : ∀ jobs : List (Job τ σ), (jobs.map Job.key).map Prod.fst = jobs.map Job.index := by
    intro jobs
    rw [List.map_map]
    rfl
  have hhand : Sound S ok ordered { s with stored := s.stored ++ s.writing.take some_, writing := [] }
      ((Fetcher.steppedBack S s.writing).map Job.key) (Fetcher.steppedBack S s.writing).length
      done := by
    refine ⟨?_, h.tasks, ?_, h.finished, ?_, ?_, ?_, ?_, h.promise, h.idle, h.ended,
      fun ho => absurd ho hfail⟩
    · have hperm := h.perm
      rw [List.append_nil, keys, hlive, List.map_append, List.map_append, hfst s.writing] at hperm
      rw [List.map_append, hfst, hindex]
      exact hperm
    · intro key hkey
      rcases List.mem_append.1 hkey with hkey | hkey
      · refine h.derived key ?_
        rw [List.append_nil]
        refine List.map_subset _ ?_ hkey
        rw [hlive]
        exact List.subset_append_left _ _
      · -- the first task is stepped back once more
        cases hwriting : s.writing with
        | nil =>
          rw [hwriting] at hkey
          cases hkey
        | cons job jobs =>
          rw [hwriting] at hkey hderived
          rcases List.mem_cons.1 hkey with rfl | hkey
          · exact (hderived job List.mem_cons_self).succ (hok job (by rw [hwriting]; rfl))
          · obtain ⟨j, hj, rfl⟩ := List.mem_map.1 hkey
            exact hderived j (List.mem_cons_of_mem _ hj)
    · have hprocessed := h.processed
      change s.processed = s.finished + s.stream.length + 0 +
        (Fetcher.steppedBack S s.writing).length
      omega
    · intro i hi
      obtain ⟨job, hjob, hstored⟩ := h.stored i hi
      exact ⟨job, List.mem_append_left _ hjob, hstored⟩
    · intro job hjob
      refine h.ready job (List.mem_append_left _ ?_)
      rwa [List.append_nil] at hjob
    · intro job hjob
      rcases List.mem_append.1 hjob with hjob | hjob
      · exact h.results job hjob
      · exact (hready job (List.mem_of_mem_take hjob)).2
  rw [Fetcher.storeError, failure]
  refine Sound.next hS (Sound.enqueues_dequeued (fun job hjob => ?_) hhand hfail) _ _
  cases hwriting : s.writing with
  | nil =>
    rw [hwriting] at hjob
    cases hjob
  | cons first jobs =>
    rw [hwriting] at hjob hready
    rcases List.mem_cons.1 hjob with rfl | hjob
    · exact (hready first List.mem_cons_self).1
    · exact (hready job (List.mem_cons_of_mem _ hjob)).1

theorem start (h : Sound S ok ordered s [] 0 done) (hended : s.ended = false) :
    Sound S ok ordered { s with running := true, fetchPromise := true } [] 0 done :=
  ⟨h.perm, h.tasks, h.derived, h.finished, h.processed, h.stored, h.ready, h.results, fun _ => rfl,
    fun hc => absurd hc.symm Bool.false_ne_true,
    fun hc => absurd (hended.symm.trans hc) Bool.false_ne_true, fun ho =>
      ⟨(h.inOrder ho).order, (h.inOrder ho).done, (h.inOrder ho).task⟩⟩

theorem stopped (hlast : Sound S ok ordered s' [] 0 done) {streamFull idlePeer : Bool}
    (hnext : s.next S streamFull idlePeer = (false, s')) (hfinished : s'.finished = s'.total) :
    s'.running = false := by
  have hnone : s'.in_.list = [] := by
    have hlength := hlast.length
    rw [List.length_nil, keys, List.length_map, live] at hlength
    simp only [List.length_append] at hlength
    exact List.length_eq_zero_iff.1 (by omega)
  rw [Fetcher.next] at hnext
  generalize S.nextTasks s = s at hnext
  cases hpeek : s.in_.peek with
  | none =>
    simp only [hpeek, Prod.mk.injEq, true_and] at hnext
    split at hnext
    · rw [← hnext]
    · rename_i hmore
      rw [hnext] at hmore
      exact absurd hfinished hmore
  | some job =>
    have hsame : s = s' := by
      simp only [hpeek] at hnext
      split at hnext
      · exact (Prod.mk.inj hnext).2
      split at hnext
      · exact (Prod.mk.inj hnext).2
      split at hnext
      · exact (Prod.mk.inj hnext).2
      split at hnext
      · exact absurd (Prod.mk.inj hnext).1.symm Bool.false_ne_true
      · exact (Prod.mk.inj hnext).2
    rw [hsame, Heap.peek_eq_none.2 hnone] at hpeek
    cases hpeek

theorem loop (hS : Enqueues S) (h : Sound S ok ordered s [] 0 done) (asks : List (Bool × Bool)) :
    Sound S ok ordered (Fetcher.loop S asks s) [] 0 done := by
  induction asks generalizing s with
  | nil => exact h
  | cons ask asks ih =>
    obtain ⟨streamFull, idlePeer⟩ := ask
    rw [Fetcher.loop]
    split
    · have hnext := h.next hS streamFull idlePeer
      cases hresult : s.next S streamFull idlePeer with
      | mk started last =>
        rw [hresult] at hnext
        cases started with
        | true => exact ih hnext
        | false =>
          dsimp only
          split
          · rename_i hall
            have hstopped := hnext.stopped hresult hall.1
            exact ⟨hnext.perm, hnext.tasks, hnext.derived, hnext.finished, hnext.processed,
              hnext.stored, hnext.ready, hnext.results, hnext.promise, hnext.idle,
              fun _ => hstopped, fun ho =>
                ⟨(hnext.inOrder ho).order, (hnext.inOrder ho).done, (hnext.inOrder ho).task⟩⟩
          · exact hnext
    · exact h

theorem turn (hS : Enqueues S) (h : Sound S ok ordered s [] 0 done) (asks : List (Bool × Bool)) :
    Sound S ok ordered (s.turn S asks) [] 0 done := by
  rw [Fetcher.turn]
  split
  · exact h.loop hS asks
  · rename_i hstopped
    exact ⟨h.perm, h.tasks, h.derived, h.finished, h.processed, h.stored, h.ready, h.results,
      fun hc => absurd hc hstopped, h.idle, fun _ => Bool.eq_false_iff.2 hstopped, fun ho =>
        ⟨(h.inOrder ho).order, (h.inOrder ho).done, (h.inOrder ho).task⟩⟩

theorem fetch (hS : Enqueues S) (h : Sound S ok ordered s [] 0 done) (hended : s.ended = false)
    (asks : List (Bool × Bool)) : Sound S ok ordered (s.fetch S asks) [] 0 done := by
  rw [Fetcher.fetch]
  split
  · exact h
  · exact ((h.start hended).nextTasks hS).loop hS asks

theorem restart (hS : Enqueues S) (h : Sound S ok ordered s [] 0 done) (hstopped : s.running = false)
    (hrest : s.fetchPromise = false) (hended : s.ended = false) (task : τ)
    (asks : List (Bool × Bool)) :
    Sound S ok ordered (s.enqueueTask S task true asks) [] 0 done := by
  have hfree : ¬ ((s.insertTask task).running || (s.insertTask task).fetchPromise) = true := by
    rw [show (s.insertTask task).running = false from hstopped,
      show (s.insertTask task).fetchPromise = false from hrest]
    exact Bool.false_ne_true
  rw [Fetcher.enqueueTask, if_neg (by rw [hstopped]; exact Bool.false_ne_true), if_pos rfl,
    Fetcher.fetch, if_neg hfree]
  exact (((h.start hended).insertTask rfl task).nextTasks hS).loop hS asks

end Sound

/-! ## Runs -/

/-- **An event as it should be**: what is enqueued to restart a fetcher that has stopped is enqueued
at rest, and a fetcher that has ended is not started again. -/
def Timely (s : Fetcher τ σ χ) : FetcherEvent τ ρ → Prop
  | .enqueueTask _ autoRestart _ =>
    s.running = true ∨ autoRestart = false ∨ s.fetchPromise = false ∧ s.ended = false
  | .fetch _ => s.ended = false
  | _ => True

instance (s : Fetcher τ σ χ) (event : FetcherEvent τ ρ) : Decidable (s.Timely event) :=
  match event with
  | .enqueueTask _ autoRestart _ => inferInstanceAs (Decidable (s.running = true ∨
      autoRestart = false ∨ s.fetchPromise = false ∧ s.ended = false))
  | .fetch _ => inferInstanceAs (Decidable (s.ended = false))
  | .turn _ | .reply .. | .requestError .. | .expire _ | .read _ | .write _ | .stored
  | .storeError .. | .closed => .isTrue trivial

theorem sound_new (maxQueue : ℕ) (destroyWhenDone : Bool) (sub : χ) :
    Sound S ok ordered (new maxQueue destroyWhenDone sub) [] 0 [] where
  perm := List.Perm.refl _
  tasks := rfl
  derived := fun _ hkey => absurd hkey List.not_mem_nil
  finished := rfl
  processed := rfl
  stored := fun _ hi => absurd hi List.not_mem_nil
  ready := fun _ hjob => absurd hjob List.not_mem_nil
  results := fun _ hjob => absurd hjob List.not_mem_nil
  promise := fun hc => absurd hc Bool.false_ne_true
  idle := fun _ => rfl
  ended := fun hc => absurd hc Bool.false_ne_true
  inOrder := fun _ => ⟨rfl, rfl, fun _ hkey => absurd hkey List.not_mem_nil⟩

/-- Where a store fails, `ok` holds of the task that is stepped back. -/
def Fine (ok : τ → Prop) (s : Fetcher τ σ χ) : FetcherEvent τ ρ → Prop
  | .storeError .. => ∀ job, s.writing.head? = some job → ok job.task
  | _ => True

/-- A store fails. -/
def IsStoreError : FetcherEvent τ ρ → Bool
  | .storeError .. => true
  | _ => false

theorem Sound.exists_step (hS : Enqueues S) (h : Sound S ok ordered s [] 0 done)
    {event : FetcherEvent τ ρ} (htimely : s.Timely event) (hfine : s.Fine ok event)
    (hfail : ordered → IsStoreError event = false) :
    ∃ done', Sound S ok ordered (s.step S event) [] 0 done' := by
  cases event with
  | enqueueTask task autoRestart asks =>
    refine ⟨done, ?_⟩
    by_cases hrunning : s.running = true
    · rw [step, Fetcher.enqueueTask, if_pos hrunning]
      exact h.insertTask hrunning task
    · cases autoRestart with
      | false => exact h.enqueueTask task asks
      | true =>
        obtain ⟨hrest, hended⟩ :=
          (htimely.resolve_left hrunning).resolve_left Bool.noConfusion
        exact h.restart hS (Bool.eq_false_iff.2 hrunning) hrest hended task asks
  | fetch asks => exact ⟨done, h.fetch hS htimely asks⟩
  | turn asks =>
    refine ⟨done, ?_⟩
    rw [step]
    split
    · exact h.turn hS asks
    · exact h
  | reply i result room streamFull idlePeer =>
    refine ⟨done, ?_⟩
    rw [step]
    cases hget : s.requests[i]? with
    | none => exact h
    | some job => exact h.reply hS hget result room streamFull idlePeer
  | requestError i streamFull idlePeer =>
    refine ⟨done, ?_⟩
    rw [step]
    cases hget : s.requests[i]? with
    | none => exact h
    | some job => exact h.requestError hS hget streamFull idlePeer
  | expire i =>
    refine ⟨done, ?_⟩
    rw [step]
    cases hget : s.requests[i]? with
    | none => exact h
    | some job =>
      dsimp only
      split
      · rename_i hactive
        exact h.expire hget hactive
      · exact h
  | read room => exact ⟨done, h.dequeueTurns (room + 1)⟩
  | write more =>
    refine ⟨done, ?_⟩
    rw [step]
    split
    · rename_i hnone
      exact h.write hnone more
    · exact h
  | stored => exact ⟨_, h.written⟩
  | storeError some_ streamFull idlePeer =>
    refine ⟨done, ?_⟩
    rw [step]
    split
    · exact h.storeError hS (fun ho => Bool.noConfusion (hfail ho)) hfine some_ streamFull idlePeer
    · exact h
  | closed =>
    refine ⟨done, ?_⟩
    rw [step]
    split
    · rename_i hended
      have hstopped := h.ended hended
      exact ⟨h.perm, h.tasks, h.derived, h.finished, h.processed, h.stored, h.ready, h.results,
        fun hc => absurd hc Bool.false_ne_true, fun _ => h.idle hstopped, fun _ => rfl, fun ho =>
          ⟨(h.inOrder ho).order, (h.inOrder ho).done, (h.inOrder ho).task⟩⟩
    · exact h

theorem Sound.exists_run (hS : Enqueues S) (h : Sound S (fun _ => True) ordered s [] 0 done)
    {events : List (FetcherEvent τ ρ)} (htimely : AlongRun (step S) Timely s events)
    (hfail : ordered → ∀ event ∈ events, IsStoreError event = false) :
    ∃ done', Sound S (fun _ => True) ordered (events.foldl (step S) s) [] 0 done' := by
  refine AlongRun.inv (P := fun s => ∃ done, Sound S (fun _ => True) ordered s [] 0 done) ?_
    ⟨done, h⟩ (htimely.and_mem fun event hevent => hevent)
  rintro s event ⟨done, hs⟩ ⟨hevent, hmem⟩
  refine hs.exists_step hS hevent ?_ fun ho => hfail ho event hmem
  cases event with
  | storeError => exact fun _ _ => trivial
  | _ => trivial

/-- **Nothing is lost** after these events: no job has two live copies, the counters are in order,
and at rest every task was stored, as store errors left it; if there were none, the tasks were
stored once each, in order. -/
structure NothingLost (S : Subclass τ ρ σ χ) (s : Fetcher τ σ χ)
    (events : List (FetcherEvent τ ρ)) : Prop where
  nodup : (s.live.map Job.index).Nodup
  finished_le : s.finished ≤ s.processed
  processed_le : s.processed ≤ s.total
  stored : s.running = false → s.fetchPromise = false → ∀ i task, s.enqueued[i]? = some task →
    ∃ job ∈ s.stored, job.index = i ∧ job.result.isSome ∧ ∃ n, job.task = S.steppedBack^[n] task
  inOrder : (∀ event ∈ events, IsStoreError event = false) → s.running = false →
    s.fetchPromise = false → s.stored.map Job.index = List.range s.total ∧
      s.stored.map Job.task = s.enqueued ∧ ∀ job ∈ s.stored, job.result.isSome

namespace Sound

theorem nodup_live (h : Sound S ok ordered s [] 0 done) : (s.live.map Job.index).Nodup := by
  have hnodup := h.perm.nodup_iff.2 List.nodup_range
  rw [List.append_nil, keys, List.map_map, List.nodup_append] at hnodup
  exact hnodup.1

theorem processed_le_total (h : Sound S ok ordered s [] 0 done) : s.processed ≤ s.total := by
  have hlength := h.length
  have hprocessed := h.processed
  simp only [keys, live, List.length_map, List.length_append, List.length_nil] at hlength
  omega

theorem live_eq_nil (h : Sound S ok ordered s [] 0 done) (hstopped : s.running = false) :
    s.live = [] := by
  have hlength := h.length
  have hidle := h.idle hstopped
  rw [List.length_nil, keys, List.length_map] at hlength
  exact List.length_eq_zero_iff.1 (by omega)

theorem done_perm (h : Sound S ok ordered s [] 0 done) (hstopped : s.running = false) :
    done.Perm (List.range s.total) := by
  have hperm := h.perm
  rwa [keys, h.live_eq_nil hstopped] at hperm

theorem stored_eq (h : Sound S ok ordered s [] 0 done) (ho : ordered) (hstopped : s.running = false) :
    s.stored.map Job.index = List.range s.total ∧ s.stored.map Job.task = s.enqueued := by
  obtain ⟨horder, -, htask⟩ := h.inOrder ho
  have hlive := h.live_eq_nil hstopped
  have hprocessed := h.processed
  have hidle := h.idle hstopped
  have hempty : s.stream = [] ∧ s.writing = [] := by
    simp only [live, List.append_eq_nil_iff] at hlive
    exact ⟨hlive.1.2, hlive.2⟩
  rw [hempty.1, hempty.2, List.append_nil, List.append_nil] at horder
  rw [hempty.1, hempty.2, hidle] at hprocessed
  rw [show s.processed = s.total from hprocessed] at horder
  have hlength : s.stored.length = s.total := by
    rw [← List.length_map Job.index, horder, List.length_range]
  refine ⟨horder, List.ext_getElem (by rw [List.length_map, hlength, h.tasks]) ?_⟩
  intro i hi hi'
  rw [List.length_map] at hi
  have hindex : (s.stored[i]).index = i := by
    have hget : (s.stored.map Job.index)[i]? = some i := by
      rw [horder, List.getElem?_range (by omega)]
    rw [List.getElem?_map, List.getElem?_eq_getElem hi] at hget
    exact Option.some.inj hget
  have hget := htask (s.stored[i]).key
    (List.mem_append_right _ (List.mem_map_of_mem (List.getElem_mem hi)))
  rw [Job.key, hindex, List.getElem?_eq_getElem hi'] at hget
  rw [List.getElem_map]
  exact (Option.some.inj hget).symm

end Sound

/-- **A fetcher loses nothing and keeps the order**, in every run in which it is restarted at rest
only. -/
theorem nothing_lost (hS : Enqueues S) (maxQueue : ℕ) (destroyWhenDone : Bool) (sub : χ)
    {events : List (FetcherEvent τ ρ)}
    (htimely : AlongRun (step S) Timely (new maxQueue destroyWhenDone sub) events) :
    NothingLost S (events.foldl (step S) (new maxQueue destroyWhenDone sub)) events := by
  have hnew : Sound S (fun _ => True) (∀ event ∈ events, IsStoreError event = false)
      (new maxQueue destroyWhenDone sub) [] 0 [] := sound_new maxQueue destroyWhenDone sub
  obtain ⟨done, h⟩ := hnew.exists_run hS htimely id
  refine ⟨h.nodup_live, ?_, h.processed_le_total, fun hstopped _ i task hget => ?_,
    fun ho hstopped _ => ?_⟩
  · have hprocessed := h.processed
    omega
  · have hlt : i < (events.foldl (step S) (new maxQueue destroyWhenDone sub)).total := by
      rw [← h.tasks]
      exact (List.getElem?_eq_some_iff.1 hget).1
    have hdone := (h.done_perm hstopped).mem_iff.2 (List.mem_range.2 hlt)
    obtain ⟨job, hjob, rfl, n, task', hget', htask, -⟩ := h.stored i hdone
    obtain rfl : task' = task := Option.some.inj (hget'.symm.trans hget)
    exact ⟨job, hjob, rfl, h.results job hjob, n, htask⟩
  · obtain ⟨hindex, htask⟩ := h.stored_eq ho hstopped
    exact ⟨hindex, htask, h.results⟩

/-! ## A task that is lost -/

/-- A fetcher of numbers, whose replies are what it asks for. -/
def sampleSubclass : Subclass ℕ ℕ ℕ Unit where
  isEmpty := fun _ => false
  process := fun _ result => (none, some result)
  nextTasks := id
  steppedBack := id

theorem sampleSubclass_enqueues : Enqueues sampleSubclass := fun s => ⟨[], s.sub, rfl⟩

/-- A task is fetched and stored by a fetcher at rest, which stops after that. -/
def sampleFetch (task : ℕ) : List (FetcherEvent ℕ ℕ) :=
  [.enqueueTask task true [(false, true), (false, true)],
    .reply 0 (some (10 * task)) 16 false true, .write 0, .stored, .turn [(false, true)]]

/-- A second task comes before the loop is left, and then it is. -/
def sampleLate : List (FetcherEvent ℕ ℕ) :=
  sampleFetch 7 ++ [.enqueueTask 8 true [(false, true)], .turn []]

/-- It comes after that. -/
def sampleTimely : List (FetcherEvent ℕ ℕ) :=
  sampleFetch 7 ++ [.turn []] ++ sampleFetch 8 ++ [.turn []]

/-- **A task that comes in the last wait of the loop** is left where it is. -/
theorem sample_lost :
    ¬ NothingLost sampleSubclass (sampleLate.foldl (step sampleSubclass) (new 50 false ()))
      sampleLate := by
  intro h
  obtain ⟨job, hjob, hindex, -⟩ := h.stored rfl rfl 1 8 rfl
  have hstored : ∀ job ∈ (sampleLate.foldl (step sampleSubclass) (new 50 false ())).stored,
      job.index = 0 := by decide
  rw [hstored job hjob] at hindex
  cases hindex

/-- One that comes at rest is not. -/
theorem nothing_lost_sample :
    NothingLost sampleSubclass (sampleTimely.foldl (step sampleSubclass) (new 50 false ()))
      sampleTimely :=
  nothing_lost sampleSubclass_enqueues 50 false () (by decide)

end Fetcher

end Sync

end TsEthereum
