import TsEthereum.Common.Except
import Mathlib.Data.List.Infix
import Mathlib.Data.List.Induction

/-!
# Runs of a step function that can throw

A component is a step function `σ → ο → Except ε σ`: one call, which
returns the next state or throws. A run is a list of calls, each made in
the state the one before it left. The induction over a run is made here
once: `run_inv` for what every call preserves, `run_sim` for a component
that follows another.

A component that keeps what it did before it threw is a step `σ → ο → σ`, and
its runs are folds: `AlongRun` says that each call of one is as it should be where
it is made, and `AlongRun.inv` is the induction.
-/

namespace TsEthereum

variable {σ τ ο ε : Type*}

/-- **The state a list of calls leaves**, if none of them throws. -/
def run (step : σ → ο → Except ε σ) (s : σ) : List ο → Except ε σ
  | [] => .ok s
  | op :: ops => step s op >>= fun s' => run step s' ops

variable {step : σ → ο → Except ε σ}

@[simp] theorem run_nil (s : σ) : run step s [] = .ok s := rfl

theorem run_cons (s : σ) (op : ο) (ops : List ο) :
    run step s (op :: ops) = step s op >>= fun s' => run step s' ops := rfl

theorem run_append (s : σ) (ops ops' : List ο) :
    run step s (ops ++ ops') = run step s ops >>= fun s' => run step s' ops' := by
  induction ops generalizing s with
  | nil => rfl
  | cons op ops ih =>
    rw [List.cons_append, run_cons, run_cons]
    cases step s op with
    | error e => rfl
    | ok s' => exact ih s'

theorem run_concat (s : σ) (ops : List ο) (op : ο) :
    run step s (ops ++ [op]) = run step s ops >>= fun s' => step s' op := by
  rw [run_append]
  cases run step s ops with
  | error e => rfl
  | ok s' =>
    change (step s' op >>= fun s'' => .ok s'') = step s' op
    cases step s' op <;> rfl

theorem concat_prefix_cons {pre ops : List ο} {op op' : ο} :
    pre ++ [op] <+: op' :: ops ↔
      (pre = [] ∧ op = op') ∨ ∃ pre', pre = op' :: pre' ∧ pre' ++ [op] <+: ops := by
  cases pre with
  | nil => simp [List.cons_prefix_cons]
  | cons a pre =>
    rw [List.cons_append, List.cons_prefix_cons]
    constructor
    · rintro ⟨rfl, h⟩
      exact .inr ⟨pre, rfl, h⟩
    · rintro (⟨h, -⟩ | ⟨pre', h, hpre⟩)
      · cases h
      · cases h
        exact ⟨rfl, hpre⟩

theorem run_inv {P : σ → Prop} (hstep : ∀ s op s', P s → step s op = .ok s' → P s') {s s' : σ}
    {ops : List ο} (hs : P s) (h : run step s ops = .ok s') : P s' := by
  induction ops generalizing s with
  | nil => cases h; exact hs
  | cons op ops ih =>
    obtain ⟨u, hu, h⟩ := bind_eq_ok.1 h
    exact ih (hstep s op u hs hu) h

/-- **A component whose every call is one of another, seen through `f`**,
runs as the other does. -/
theorem run_sim {step' : τ → ο → Except ε τ} {f : σ → τ}
    (hstep : ∀ s op, (step s op).map f = step' (f s) op) (s : σ) (ops : List ο) :
    (run step s ops).map f = run step' (f s) ops := by
  induction ops generalizing s with
  | nil => rfl
  | cons op ops ih =>
    rw [run_cons, run_cons, ← hstep s op]
    cases step s op with
    | error e => rfl
    | ok s' => exact ih s'

/-! ## Steps that keep what they did -/

section

variable {step : σ → ο → σ} {ok ok' : σ → ο → Prop} {P : σ → Prop}

theorem foldl_eq {f : σ → ο → σ} {g : σ → τ} (h : ∀ s op, g (f s op) = g s) (ops : List ο) (s : σ) :
    g (ops.foldl f s) = g s := by
  induction ops generalizing s with
  | nil => rfl
  | cons op ops ih => exact (ih (f s op)).trans (h s op)

theorem foldl_keeps (h : ∀ s op, P s → P (step s op)) (ops : List ο) {s : σ} (hs : P s) :
    P (ops.foldl step s) := by
  induction ops generalizing s with
  | nil => exact hs
  | cons op ops ih => exact ih (h s op hs)

/-- Every call of a run is as it should be, in the state it is made in. -/
def AlongRun (step : σ → ο → σ) (ok : σ → ο → Prop) : σ → List ο → Prop
  | _, [] => True
  | s, op :: ops => ok s op ∧ AlongRun step ok (step s op) ops

instance instDecidableAlongRun [∀ s op, Decidable (ok s op)] :
    (s : σ) → (ops : List ο) → Decidable (AlongRun step ok s ops)
  | _, [] => .isTrue trivial
  | s, op :: ops =>
    have : Decidable (AlongRun step ok (step s op) ops) := instDecidableAlongRun (step s op) ops
    inferInstanceAs (Decidable (ok s op ∧ AlongRun step ok (step s op) ops))

theorem AlongRun.and_mem {s : σ} {ops ops' : List ο} (h : AlongRun step ok s ops)
    (hops : ∀ op ∈ ops, op ∈ ops') : AlongRun step (fun s op => ok s op ∧ op ∈ ops') s ops := by
  induction ops generalizing s with
  | nil => trivial
  | cons op ops ih =>
    exact ⟨⟨h.1, hops op List.mem_cons_self⟩, ih h.2 (List.forall_mem_cons.1 hops).2⟩

theorem AlongRun.mono (hok : ∀ s op, ok s op → ok' s op) {s : σ} {ops : List ο}
    (h : AlongRun step ok s ops) : AlongRun step ok' s ops := by
  induction ops generalizing s with
  | nil => trivial
  | cons op ops ih => exact ⟨hok s op h.1, ih h.2⟩

theorem AlongRun.inv (hstep : ∀ s op, P s → ok s op → P (step s op)) {ops : List ο} {s : σ} (hs : P s)
    (h : AlongRun step ok s ops) : P (ops.foldl step s) := by
  induction ops generalizing s with
  | nil => exact hs
  | cons op ops ih => exact ih (hstep s op hs h.1) h.2

end

end TsEthereum
