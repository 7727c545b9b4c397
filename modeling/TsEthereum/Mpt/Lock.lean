import TsEthereum.Mpt.Bindings

/-!
# Calls under a lock

A `Lock` has one permit, and those who wait for it go on in the order in
which they came. Many calls are under way at once, each in turns between two
awaits. `runWithLock` releases in a `finally`: its calls leave what they leave
one after the other (`runWithLock_serialises`). The trie's `put` and `del`
release at their end, so one that throws keeps the lock, and no later one
ever begins (`put_keepsLock`).
-/

namespace TsEthereum

variable {ι σ : Type}

/-! ## The lock -/

/-- `Lock`. -/
structure Lock (ι : Type) where
  permits : ℕ
  promiseResolverQueue : List ι

namespace Lock

/-- `acquire`, with who goes on. -/
def acquire (l : Lock ι) (i : ι) : Lock ι × List ι :=
  if 0 < l.permits then ({ l with permits := l.permits - 1 }, [i])
  else ({ l with promiseResolverQueue := l.promiseResolverQueue ++ [i] }, [])

/-- `release`: with a permit too many, it resolves nobody. -/
def release (l : Lock ι) : Lock ι × List ι :=
  match l.permits, l.promiseResolverQueue with
  -- the permit is handed on, so nobody who comes now goes before
  | 0, nextResolver :: queue => (⟨0, queue⟩, [nextResolver])
  | permits, queue => (⟨permits + 1, queue⟩, [])

end Lock

/-- **The code of a call** under the lock: it has ended, or it takes a turn
on the shared state. -/
inductive Body (σ : Type)
  | ended (threw : Bool)
  | turn (write : σ → σ) (next : σ → Body σ)

/-- What it leaves where nothing comes between its turns. -/
def Body.run : Body σ → σ → σ × Bool
  | .ended threw, s => (s, threw)
  | .turn write next, s => (next s).run (write s)

/-- A call, which releases in a `finally` or at its end. -/
structure Call (σ : Type) where
  body : Body σ
  inFinally : Bool

/-- Whether it releases. -/
def Call.releases (c : Call σ) (threw : Bool) : Bool := c.inFinally || !threw

/-- **The calls under way**: the lock, those past `acquire` with what is left
of their code, and the shared state; `arrived` and `finished` are logs. -/
structure Locked (σ : Type) where
  lock : Lock (Call σ)
  inside : List (Call σ × Body σ)
  shared : σ
  arrived : List (Call σ)
  finished : List (Call σ)

/-- A call is made, or one of those inside takes its turn. -/
inductive Event (σ : Type)
  | call (c : Call σ)
  | turn (i : ℕ)

namespace Locked

/-- No call was made. -/
def init (s : σ) : Locked σ := ⟨⟨1, []⟩, [], s, [], []⟩

/-- Who goes on begins with their code. -/
def enter (w : Locked σ) (r : Lock (Call σ) × List (Call σ)) : Locked σ :=
  { w with lock := r.1, inside := w.inside ++ r.2.map fun c => (c, c.body) }

/-- A call is made. -/
def call (w : Locked σ) (c : Call σ) : Locked σ :=
  enter { w with arrived := w.arrived ++ [c] } (w.lock.acquire c)

/-- The turn of one inside, up to its next await or its end. -/
def turn (w : Locked σ) (i : ℕ) : Locked σ :=
  match w.inside[i]? with
  | none => w
  | some (c, .turn write next) =>
    { w with inside := w.inside.set i (c, next w.shared), shared := write w.shared }
  | some (c, .ended threw) =>
    let w := { w with inside := w.inside.eraseIdx i, finished := w.finished ++ [c] }
    -- a call that releases at its end keeps the permit if it throws
    if c.releases threw then w.enter w.lock.release else w

/-- **One event.** -/
def step (w : Locked σ) : Event σ → Locked σ
  | .call c => w.call c
  | .turn i => w.turn i

end Locked

/-! ## Calls one after the other -/

/-- What calls leave one after the other. -/
def serially (s : σ) (calls : List (Call σ)) : σ := calls.foldl (fun s c => (c.body.run s).1) s

/-- One after the other, each of the calls releases. -/
def AllRelease (s : σ) (calls : List (Call σ)) : Prop :=
  ∀ pre c, pre ++ [c] <+: calls → c.releases (c.body.run (serially s pre)).2 = true

variable {s : σ} {w : Locked σ} {calls : List (Call σ)} {c : Call σ}

theorem serially_concat : serially s (calls ++ [c]) = (c.body.run (serially s calls)).1 :=
  List.foldl_concat _ _ _ _

theorem AllRelease.concat (h : AllRelease s calls)
    (hc : c.releases (c.body.run (serially s calls)).2 = true) : AllRelease s (calls ++ [c]) := by
  intro pre c' hpre
  rcases List.prefix_concat_iff.1 hpre with heq | hpre
  · obtain ⟨rfl, hcc⟩ := List.append_inj' heq rfl
    cases hcc
    exact hc
  · exact h pre c' hpre

/-- **Where the calls are.** The lock is free; or one call is inside, which
leaves what it leaves after those that finished; or the last of those keeps the
lock. -/
inductive Phase (s : σ) (w : Locked σ) : Prop
  | free (hlock : w.lock = ⟨1, []⟩) (hinside : w.inside = [])
    (hshared : w.shared = serially s w.finished) (hrelease : AllRelease s w.finished)
  | held (c : Call σ) (b : Body σ) (hpermits : w.lock.permits = 0) (hinside : w.inside = [(c, b)])
    (hshared : b.run w.shared = c.body.run (serially s w.finished))
    (hrelease : AllRelease s w.finished)
  | kept (pre : List (Call σ)) (c : Call σ) (hpermits : w.lock.permits = 0)
    (hinside : w.inside = []) (hfinished : w.finished = pre ++ [c]) (hrelease : AllRelease s pre)
    (hkeeps : c.releases (c.body.run (serially s pre)).2 = false)

/-- **The calls go in and finish in the order in which they came**, one at a
time. -/
structure Locked.Inv (s : σ) (w : Locked σ) : Prop where
  arrived : w.arrived = w.finished ++ w.inside.map Prod.fst ++ w.lock.promiseResolverQueue
  phase : Phase s w

theorem Locked.Inv.init : (Locked.init s).Inv s :=
  ⟨rfl, .free rfl rfl rfl fun _ _ hpre =>
    absurd (List.prefix_nil.1 hpre) (List.append_ne_nil_of_right_ne_nil _ (List.cons_ne_nil _ _))⟩

theorem Locked.Inv.call (h : w.Inv s) (c : Call σ) : (w.call c).Inv s := by
  have harrived := h.arrived
  unfold Locked.call Locked.enter Lock.acquire
  cases h.phase with
  | free hlock hinside hshared hrelease =>
    rw [hinside, hlock] at harrived
    rw [hlock, hinside]
    refine ⟨?_, .held c c.body rfl rfl (by rw [hshared]) hrelease⟩
    dsimp only
    rw [harrived]
    simp
  | held c' b hpermits hinside hshared hrelease =>
    rw [if_neg (by omega)]
    refine ⟨?_, .held c' b hpermits (by simp [hinside]) hshared hrelease⟩
    dsimp only
    rw [harrived]
    simp
  | kept pre c' hpermits hinside hfinished hrelease hkeeps =>
    -- it waits, with nobody to wake it
    rw [if_neg (by omega)]
    refine ⟨?_, .kept pre c' hpermits (by simp [hinside]) hfinished hrelease hkeeps⟩
    dsimp only
    rw [harrived]
    simp

/-- **The lock is handed on** as the call inside ends. -/
theorem Locked.Inv.ended {threw : Bool} (h : w.Inv s) (hpermits : w.lock.permits = 0)
    (hinside : w.inside = [(c, .ended threw)])
    (hshared : (w.shared, threw) = c.body.run (serially s w.finished))
    (hrelease : AllRelease s w.finished) : (w.turn 0).Inv s := by
  have harrived := h.arrived
  have hserial : w.shared = serially s (w.finished ++ [c]) := by
    rw [serially_concat, ← hshared]
  rw [hinside, List.map_singleton] at harrived
  unfold Locked.turn
  rw [hinside]
  dsimp only [List.getElem?_cons_zero, List.eraseIdx_cons_zero]
  by_cases hreleases : c.releases threw = true
  · have hall : AllRelease s (w.finished ++ [c]) :=
      hrelease.concat (by rw [← hshared]; exact hreleases)
    rw [if_pos hreleases]
    unfold Locked.enter Lock.release
    rw [hpermits]
    cases hqueue : w.lock.promiseResolverQueue with
    | nil =>
      rw [hqueue] at harrived
      exact ⟨by simpa using harrived, .free rfl rfl hserial hall⟩
    | cons c' queue =>
      rw [hqueue] at harrived
      exact ⟨by simpa using harrived, .held c' c'.body rfl rfl (by rw [hserial]) hall⟩
  · rw [if_neg hreleases]
    rw [Bool.not_eq_true] at hreleases
    exact ⟨by simpa using harrived,
      .kept w.finished c hpermits rfl rfl hrelease (by rw [← hshared]; exact hreleases)⟩

theorem Locked.Inv.turn (h : w.Inv s) (i : ℕ) : (w.turn i).Inv s := by
  cases hget : w.inside[i]? with
  | none =>
    unfold Locked.turn
    rw [hget]
    exact h
  | some entry =>
    cases h.phase with
    | free hlock hinside hshared hrelease =>
      rw [hinside] at hget
      cases hget
    | kept pre c' hpermits hinside hfinished hrelease hkeeps =>
      rw [hinside] at hget
      cases hget
    | held c b hpermits hinside hshared hrelease =>
      obtain ⟨rfl, rfl⟩ : i = 0 ∧ entry = (c, b) := by
        rw [hinside] at hget
        cases i with
        | zero => exact ⟨rfl, (Option.some.inj hget).symm⟩
        | succ i => cases hget
      cases b with
      | ended threw => exact h.ended hpermits hinside hshared hrelease
      | turn write next =>
        have harrived := h.arrived
        unfold Locked.turn
        rw [hinside] at harrived ⊢
        exact ⟨harrived, .held c (next w.shared) hpermits rfl hshared hrelease⟩

/-- **Every order of calls and turns keeps it.** -/
theorem Locked.Inv.steps (events : List (Event σ)) :
    (events.foldl Locked.step (.init s)).Inv s := by
  induction events using List.reverseRecOn with
  | nil => exact .init
  | append_singleton events event ih =>
    rw [List.foldl_concat]
    cases event with
    | call c => exact ih.call c
    | turn i => exact ih.turn i

theorem call_mem_of_arrived (events : List (Event σ)) :
    ∀ c ∈ (events.foldl Locked.step (.init s)).arrived, .call c ∈ events := by
  induction events using List.reverseRecOn with
  | nil => exact fun c hc => absurd hc List.not_mem_nil
  | append_singleton events event ih =>
    intro c hc
    rw [List.foldl_concat] at hc
    cases event with
    | call c' =>
      rcases List.mem_append.1 hc with hc | hc
      · exact List.mem_append_left _ (ih c hc)
      · exact List.mem_append_right _ (by rw [List.mem_singleton.1 hc]; exact List.mem_cons_self)
    | turn i =>
      refine List.mem_append_left _ (ih c ?_)
      have hsame (w : Locked σ) : (w.turn i).arrived = w.arrived := by
        unfold Locked.turn Locked.enter
        split
        · rfl
        · rfl
        · dsimp only
          split <;> rfl
      rwa [Locked.step, hsame] at hc

/-- **One after the other**: the calls go in and finish in the order in which
they came, the one inside leaves what it leaves after those that finished, and
nobody waits unless another is inside. -/
structure Serial (s : σ) (w : Locked σ) : Prop where
  arrived : w.arrived = w.finished ++ w.inside.map Prod.fst ++ w.lock.promiseResolverQueue
  one : w.inside.length ≤ 1
  shared : w.inside = [] → w.lock = ⟨1, []⟩ ∧ w.shared = serially s w.arrived
  inside : ∀ c b, (c, b) ∈ w.inside → b.run w.shared = c.body.run (serially s w.finished)

/-- **Calls made with `runWithLock` leave what they leave one after the
other**, whichever takes its turn when. -/
theorem runWithLock_serialises (s : σ) (events : List (Event σ))
    (hfinally : ∀ c, .call c ∈ events → c.inFinally = true) :
    Serial s (events.foldl Locked.step (.init s)) := by
  generalize hw : events.foldl Locked.step (.init s) = w
  have h : w.Inv s := hw ▸ .steps events
  have harrived := h.arrived
  cases h.phase with
  | free hlock hinside hshared hrelease =>
    rw [hinside, hlock] at harrived
    simp only [List.map_nil, List.append_nil] at harrived
    exact ⟨h.arrived, by rw [hinside]; exact zero_le_one,
      fun _ => ⟨hlock, by rw [hshared, harrived]⟩,
      fun c b hc => absurd hc (by rw [hinside]; exact List.not_mem_nil)⟩
  | held c b hpermits hinside hshared hrelease =>
    refine ⟨h.arrived, by rw [hinside]; exact le_rfl, fun hnil => ?_, fun c' b' hc => ?_⟩
    · rw [hinside] at hnil
      cases hnil
    · rw [hinside] at hc
      cases List.mem_singleton.1 hc
      exact hshared
  | kept pre c hpermits hinside hfinished hrelease hkeeps =>
    -- a `finally` releases, whatever was thrown
    have hmem : c ∈ (events.foldl Locked.step (.init s)).arrived := by
      rw [hw, harrived, hfinished]
      simp
    rw [Call.releases, hfinally c (call_mem_of_arrived events c hmem)] at hkeeps
    cases hkeeps

/-- Two callers that add one, in two turns each. -/
def adds : Call ℕ where
  body := .turn id fun n => .turn (fun _ => n + 1) fun _ => .ended false
  inFinally := true

theorem runWithLock_serialises_adds :
    Serial 0 ([Event.call adds, .call adds, .turn 0, .turn 1, .turn 0].foldl Locked.step
      (.init 0)) := by
  refine runWithLock_serialises 0 _ fun c hc => ?_
  simp only [List.mem_cons, Event.call.injEq, reduceCtorEq, List.not_mem_nil, or_false] at hc
  rcases hc with rfl | rfl <;> rfl

/-! ## The trie's own calls -/

/-- A `put` of the key of the root throws before it asks for the lock. -/
def TrieOp.asksForLock (o : MPTOpts) : TrieOp → Prop
  | .put key _ _ => ¬ (o.useRootPersistence = true ∧ key = ROOT_DB_KEY)
  | .del _ _ => True

/-- **A call of the trie's**, which releases at its end. -/
structure Does (o : MPTOpts) (c : Call MerklePatriciaTrie) (op : TrieOp) : Prop where
  asksForLock : op.asksForLock o
  inFinally : c.inFinally = false
  ok : ∀ t t', t.step o op = .ok t' → c.body.run t = (t', false)
  error : ∀ t e, t.step o op = .error e → (c.body.run t).2 = true

variable {o : MPTOpts} {t₀ : MerklePatriciaTrie} {op : Call MerklePatriciaTrie → TrieOp}

theorem Does.step_of_releases {c : Call MerklePatriciaTrie} {op : TrieOp} (h : Does o c op)
    {t : MerklePatriciaTrie} (hreleases : c.releases (c.body.run t).2 = true) :
    t.step o op = .ok (c.body.run t).1 := by
  cases hstep : t.step o op with
  | ok t' => rw [h.ok t t' hstep]
  | error e =>
    rw [Call.releases, h.inFinally, h.error t e hstep] at hreleases
    cases hreleases

theorem run_of_allRelease {calls : List (Call MerklePatriciaTrie)}
    (hdoes : ∀ c ∈ calls, Does o c (op c)) (h : AllRelease t₀ calls) :
    run (MerklePatriciaTrie.step o) t₀ (calls.map op) = .ok (serially t₀ calls) := by
  induction calls using List.reverseRecOn with
  | nil => rfl
  | append_singleton calls c ih =>
    have hpre : calls <+: calls ++ [c] := List.prefix_append calls [c]
    rw [List.map_append, List.map_singleton, run_concat,
      ih (fun c' hc' => hdoes c' (hpre.subset hc')) (fun pre c' h' => h pre c' (h'.trans hpre)),
      ok_bind, serially_concat]
    exact (hdoes c (by simp)).step_of_releases (h calls c List.prefix_rfl)

/-- **What calls of the trie's come to**: each that finished but the last one
returned, and they did what a run of them does; and where the last one threw,
nobody is inside, whoever waits. -/
structure RunsUntilThrown (o : MPTOpts) (t₀ : MerklePatriciaTrie)
    (op : Call MerklePatriciaTrie → TrieOp) (w : Locked MerklePatriciaTrie) : Prop where
  arrived : w.arrived = w.finished ++ w.inside.map Prod.fst ++ w.lock.promiseResolverQueue
  one : w.inside.length ≤ 1
  finished : ∀ pre c, w.finished = pre ++ [c] → ∃ t,
    run (MerklePatriciaTrie.step o) t₀ (pre.map op) = .ok t ∧
    (∀ t', t.step o (op c) = .ok t' → w.inside = [] → w.lock = ⟨1, []⟩ ∧ w.shared = t') ∧
    ∀ e, t.step o (op c) = .error e → w.inside = [] ∧ w.lock.permits = 0

/-- **A `put` or `del` that throws keeps the lock**, in every order of calls
and turns. -/
theorem put_keepsLock (op : Call MerklePatriciaTrie → TrieOp)
    (events : List (Event MerklePatriciaTrie))
    (hdoes : ∀ c, .call c ∈ events → Does o c (op c)) :
    RunsUntilThrown o t₀ op (events.foldl Locked.step (.init t₀)) := by
  generalize hw : events.foldl Locked.step (.init t₀) = w
  have h : w.Inv t₀ := hw ▸ .steps events
  have hdoes' : ∀ c ∈ w.finished, Does o c (op c) := fun c hc => by
    refine hdoes c (call_mem_of_arrived (s := t₀) events c ?_)
    rw [hw, h.arrived, List.append_assoc]
    exact List.mem_append_left _ hc
  -- what the finished ones but the last did, and the last, if it released
  have hreturned (hrelease : AllRelease t₀ w.finished) (pre) (c)
      (hfinished : w.finished = pre ++ [c]) :
      run (MerklePatriciaTrie.step o) t₀ (pre.map op) = .ok (serially t₀ pre) ∧
        (serially t₀ pre).step o (op c) = .ok (serially t₀ w.finished) := by
    rw [hfinished] at hrelease hdoes' ⊢
    rw [serially_concat]
    exact ⟨run_of_allRelease (fun c' hc' => hdoes' c' (List.mem_append_left _ hc'))
      fun pre' c' h' => hrelease pre' c' (h'.trans (List.prefix_append pre [c])),
      (hdoes' c (by simp)).step_of_releases (hrelease pre c List.prefix_rfl)⟩
  cases h.phase with
  | free hlock hinside hshared hrelease =>
    refine ⟨h.arrived, by rw [hinside]; exact zero_le_one, fun pre c hfinished => ?_⟩
    obtain ⟨hrun, hstep⟩ := hreturned hrelease pre c hfinished
    refine ⟨_, hrun, fun t' ht' _ => ⟨hlock, ?_⟩, fun e he => ?_⟩
    · rw [hstep] at ht'
      rw [hshared, Except.ok.inj ht']
    · rw [hstep] at he
      cases he
  | held c' b hpermits hinside hshared hrelease =>
    refine ⟨h.arrived, by rw [hinside]; exact le_rfl, fun pre c hfinished => ?_⟩
    obtain ⟨hrun, hstep⟩ := hreturned hrelease pre c hfinished
    rw [hinside]
    refine ⟨_, hrun, fun t' _ hnil => absurd hnil (List.cons_ne_nil _ _), fun e he => ?_⟩
    rw [hstep] at he
    cases he
  | kept pre' c' hpermits hinside hfinished' hrelease hkeeps =>
    refine ⟨h.arrived, by rw [hinside]; exact zero_le_one, fun pre c hfinished => ?_⟩
    obtain ⟨rfl, hcc⟩ := List.append_inj' (hfinished'.symm.trans hfinished) rfl
    cases hcc
    rw [hfinished] at hdoes'
    refine ⟨_, run_of_allRelease (fun c hc => hdoes' c (List.mem_append_left _ hc)) hrelease,
      fun t' ht' _ => ?_, fun e _ => ⟨hinside, hpermits⟩⟩
    rw [Call.releases, (hdoes' c' (by simp)).inFinally, (hdoes' c' (by simp)).ok _ t' ht'] at hkeeps
    cases hkeeps

/-- A call that does all in one turn. -/
def oneTurn (o : MPTOpts) (op : TrieOp) : Call MerklePatriciaTrie where
  body := .turn (fun t => (t.step o op).toOption.getD t) fun t =>
    .ended (t.step o op).toOption.isNone
  inFinally := false

theorem does_oneTurn {o : MPTOpts} {op : TrieOp} (hop : op.asksForLock o) :
    Does o (oneTurn o op) op where
  asksForLock := hop
  inFinally := rfl
  ok t t' h := by simp [oneTurn, Body.run, h, Except.toOption]
  error t e h := by simp [oneTurn, Body.run, h, Except.toOption]

/-- Two callers that put the same value. -/
theorem put_keepsLock_oneTurn :
    RunsUntilThrown prefixKeysOpts (.create prefixKeysOpts) (fun _ => .put [0x12] [1] false)
      ([.call (oneTurn prefixKeysOpts (.put [0x12] [1] false)),
        .call (oneTurn prefixKeysOpts (.put [0x12] [1] false)), .turn 0, .turn 0, .turn 0].foldl
          Locked.step (.init (.create prefixKeysOpts))) := by
  refine put_keepsLock (fun _ => .put [0x12] [1] false) _ fun c hc => ?_
  simp only [List.mem_cons, Event.call.injEq, reduceCtorEq, List.not_mem_nil, or_false,
    or_self] at hc
  rw [hc]
  exact does_oneTurn fun h => by cases h.1

end TsEthereum
