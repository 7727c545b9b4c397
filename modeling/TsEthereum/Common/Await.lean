import TsEthereum.Common.Except
import TsEthereum.Common.Store

/-!
# Code that awaits a store

A function that only reads a store is an `Await`: what it returns or throws,
or the key it asks for and what it does with the answer. `eval` runs it over
a store; `run` runs it through a cache, over a store that may reject a
request. The two agree where the cache is coherent and nothing is rejected
(`run_eq_eval`), and reading keeps a cache coherent either way.
-/

namespace TsEthereum

/-- **Code that reads a store**: it has returned or thrown, or asks for a key
and goes on with the answer, or with the error of a rejected request. -/
inductive Await {τ : Type} (V : τ → Type) (ε α : Type) : Type
  | done (x : Except ε α)
  | get (t : τ) (next : Except ε (Option (V t)) → Await V ε α)

namespace Await

variable {τ : Type} {V : τ → Type} {ε α β : Type}

/-- `await p` and go on. -/
def bind : Await V ε α → (α → Await V ε β) → Await V ε β
  | .done (.ok a), f => f a
  | .done (.error e), _ => .done (.error e)
  | .get t next, f => .get t fun x => (next x).bind f

instance : Monad (Await V ε) where
  pure a := .done (.ok a)
  bind := bind

def throw (e : ε) : Await V ε α := .done (.error e)

/-- `try { p } catch { q }`, with what `p` returned or `none`. -/
def attempt : Await V ε α → Await V ε (Option α)
  | .done (.ok a) => .done (.ok (some a))
  | .done (.error _) => .done (.ok none)
  | .get t next => .get t fun x => (next x).attempt

/-- A request for a key, that throws where it is rejected. -/
def lookup (t : τ) : Await V ε (Option (V t)) := .get t .done

/-- **What the code returns over a store** that answers every request. -/
def eval (db : Store V) : Await V ε α → Except ε α
  | .done x => x
  | .get t next => (next (.ok (db t))).eval db

variable {db : Store V}

@[simp] theorem eval_pure (a : α) : (pure a : Await V ε α).eval db = .ok a := rfl

@[simp] theorem eval_throw (e : ε) : (throw e : Await V ε α).eval db = .error e := rfl

@[simp] theorem eval_lookup (t : τ) : (lookup t : Await V ε _).eval db = .ok (db t) := rfl

@[simp] theorem eval_bind (p : Await V ε α) (f : α → Await V ε β) :
    (p >>= f).eval db = p.eval db >>= fun a => (f a).eval db := by
  change (p.bind f).eval db = _
  induction p with
  | done x => cases x <;> rfl
  | get t next ih => exact ih (.ok (db t))

@[simp] theorem eval_attempt (p : Await V ε α) :
    p.attempt.eval db = match p.eval db with
      | .ok a => .ok (some a)
      | .error _ => .ok none := by
  induction p with
  | done x => cases x <;> rfl
  | get t next ih => exact ih (.ok (db t))

/-! ## Through a cache -/

/-- A store with a cache before it, and the requests made of it so far. -/
structure Cached {τ : Type} {V : τ → Type} (C : StoreCache V) where
  cache : C.State
  db : Store V
  requests : ℕ

/-- The cache holds what the store holds. -/
def Cached.Coherent {C : StoreCache V} (s : Cached C) : Prop := C.Coherent s.cache s.db

/-- **Running the code through the cache**: a key it holds is not awaited, and
an answer that can be kept is. The `n`-th request is rejected where
`rejects n`. -/
def run {C : StoreCache V} (cacheable : τ → Bool) (rejects : ℕ → Bool) (rejected : ε) :
    Await V ε α → Cached C → Except ε α × Cached C
  | .done x, s => (x, s)
  | .get t next, s =>
    match C.holds s.cache t with
    | some v =>
      (next (.ok (some v))).run cacheable rejects rejected { s with cache := C.get s.cache t }
    | none =>
      if rejects s.requests then
        (next (.error rejected)).run cacheable rejects rejected
          { s with requests := s.requests + 1 }
      else
        match s.db t with
        | none =>
          (next (.ok none)).run cacheable rejects rejected { s with requests := s.requests + 1 }
        | some v =>
          (next (.ok (some v))).run cacheable rejects rejected
            { s with
              cache := if cacheable t then C.set s.cache t v else s.cache
              requests := s.requests + 1 }

variable {C : StoreCache V} {cacheable : τ → Bool} {rejects : ℕ → Bool} {rejected : ε}

/-- **Reading changes nothing but a cache, and leaves it coherent**, whatever
is rejected. -/
theorem run_coherent (p : Await V ε α) {s : Cached C} (hs : s.Coherent) :
    (p.run cacheable rejects rejected s).2.db = s.db ∧
      (p.run cacheable rejects rejected s).2.Coherent := by
  induction p generalizing s with
  | done x => exact ⟨rfl, hs⟩
  | get t next ih =>
    simp only [run]
    cases hc : C.holds s.cache t with
    | some v => exact ih _ (hs.get t)
    | none =>
      simp only
      split
      · exact ih _ hs
      · cases hdb : s.db t with
        | none => exact ih _ hs
        | some v =>
          refine ih _ ?_
          unfold Cached.Coherent
          simp only
          split
          · exact hs.set hdb
          · exact hs

/-- **And returns what it would without the cache**, if nothing is
rejected. -/
theorem run_eq_eval (p : Await V ε α) {s : Cached C} (hs : s.Coherent)
    (hrejects : ∀ n, rejects n = false) :
    (p.run cacheable rejects rejected s).1 = p.eval s.db := by
  induction p generalizing s with
  | done x => rfl
  | get t next ih =>
    simp only [run, eval]
    cases hc : C.holds s.cache t with
    | some v =>
      rw [hs t v hc]
      exact ih _ (hs.get t)
    | none =>
      rw [hrejects]
      simp only [Bool.false_eq_true, if_false]
      cases hdb : s.db t with
      | none => exact ih _ hs
      | some v =>
        refine ih _ ?_
        unfold Cached.Coherent
        simp only
        split
        · exact hs.set hdb
        · exact hs

theorem run_keeps_uncached (p : Await V ε α) {s : Cached C} {t : τ} (ht : cacheable t = false)
    (hs : C.holds s.cache t = none) :
    C.holds (p.run cacheable rejects rejected s).2.cache t = none := by
  induction p generalizing s with
  | done x => exact hs
  | get t' next ih =>
    simp only [run]
    cases hc : C.holds s.cache t' with
    | some v => exact ih _ (by rw [C.holds_get]; exact hs)
    | none =>
      simp only
      split
      · exact ih _ hs
      · cases hdb : s.db t' with
        | none => exact ih _ hs
        | some v =>
          refine ih _ ?_
          simp only
          split
          · next ht' =>
            refine Option.eq_none_iff_forall_ne_some.2 fun w hw => ?_
            rcases C.holds_set _ _ _ _ _ hw with heq | ⟨-, hold⟩
            · cases heq
              rw [ht] at ht'
              cases ht'
            · rw [hs] at hold
              cases hold
          · exact hs

theorem run_bind (p : Await V ε α) (f : α → Await V ε β) (s : Cached C) :
    (p >>= f).run cacheable rejects rejected s =
      match p.run cacheable rejects rejected s with
      | (.ok a, s') => (f a).run cacheable rejects rejected s'
      | (.error e, s') => (.error e, s') := by
  change (p.bind f).run cacheable rejects rejected s = _
  induction p generalizing s with
  | done x => cases x <;> rfl
  | get t next ih =>
    simp only [bind, run]
    cases C.holds s.cache t with
    | some v => exact ih _ _
    | none =>
      simp only
      split
      · exact ih _ _
      · cases s.db t with
        | none => exact ih _ _
        | some v => exact ih _ _

/-! ## Code that does not go on after a rejected request -/

/-- It throws, whatever it is answered. -/
def Fails : Await V ε α → Prop
  | .done (.ok _) => False
  | .done (.error _) => True
  | .get _ next => ∀ x, (next x).Fails

/-- **It throws once a request is rejected.** -/
def Strict : Await V ε α → Prop
  | .done _ => True
  | .get _ next => (∀ e, (next (.error e)).Fails) ∧ ∀ v, (next (.ok v)).Strict

theorem Fails.bind {p : Await V ε α} (h : p.Fails) (f : α → Await V ε β) : (p >>= f).Fails := by
  change (p.bind f).Fails
  induction p with
  | done x =>
    cases x with
    | ok a => cases h
    | error e => trivial
  | get t next ih => exact fun x => ih x (h x)

theorem strict_pure (a : α) : (pure a : Await V ε α).Strict := trivial

theorem strict_throw (e : ε) : (throw e : Await V ε α).Strict := trivial

theorem strict_lookup (t : τ) : (lookup t : Await V ε _).Strict := ⟨fun _ => trivial, fun _ => trivial⟩

theorem Strict.bind {p : Await V ε α} {f : α → Await V ε β} (hp : p.Strict)
    (hf : ∀ a, (f a).Strict) : (p >>= f).Strict := by
  change (p.bind f).Strict
  induction p with
  | done x =>
    cases x with
    | ok a => exact hf a
    | error e => trivial
  | get t next ih => exact ⟨fun e => (hp.1 e).bind f, fun v => ih _ (hp.2 v)⟩

theorem Fails.run_ne_ok {p : Await V ε α} (h : p.Fails) {s : Cached C} {a : α} :
    (p.run cacheable rejects rejected s).1 ≠ .ok a := by
  induction p generalizing s with
  | done x =>
    cases x with
    | ok a => cases h
    | error e => exact fun heq => by cases heq
  | get t next ih =>
    simp only [run]
    cases C.holds s.cache t with
    | some v => exact ih _ (h _)
    | none =>
      simp only
      split
      · exact ih _ (h _)
      · cases s.db t with
        | none => exact ih _ (h _)
        | some v => exact ih _ (h _)

/-- **What such code returns through a coherent cache, it returns without
one.** -/
theorem Strict.eval_of_run_ok {p : Await V ε α} (h : p.Strict) {s : Cached C} (hs : s.Coherent)
    {a : α} (hrun : (p.run cacheable rejects rejected s).1 = .ok a) : p.eval s.db = .ok a := by
  induction p generalizing s with
  | done x => exact hrun
  | get t next ih =>
    simp only [run] at hrun
    rw [eval]
    cases hc : C.holds s.cache t with
    | some v =>
      rw [hc] at hrun
      rw [hs t v hc]
      exact ih _ (s := { s with cache := C.get s.cache t }) (h.2 _) (hs.get t) hrun
    | none =>
      rw [hc] at hrun
      simp only at hrun
      split at hrun
      · exact absurd hrun (h.1 rejected).run_ne_ok
      · cases hdb : s.db t with
        | none =>
          rw [hdb] at hrun
          exact ih _ (s := { s with requests := s.requests + 1 }) (h.2 _) hs hrun
        | some v =>
          rw [hdb] at hrun
          refine ih _ (s := { s with
            cache := if cacheable t then C.set s.cache t v else s.cache
            requests := s.requests + 1 }) (h.2 _) ?_ hrun
          unfold Cached.Coherent
          simp only
          split
          · exact hs.set hdb
          · exact hs

end Await

end TsEthereum
