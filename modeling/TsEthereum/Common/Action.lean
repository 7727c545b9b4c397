import Mathlib.Logic.Basic

/-!
# Code that changes a state and can throw

What an `Action` changed before it threw stays changed; `onError` is a
`catch` that puts something back and throws on. `bind_eq_ok_iff` and
`bind_eq_error_iff` take a block apart by how it ended, a `Triple` says what
holds after it either way, and `Sim` relates two actions step by step.
-/

namespace TsEthereum

/-- **Code that changes a state and can throw.** -/
def Action (ε σ α : Type) : Type := σ → Except ε α × σ

namespace Action

variable {ε σ τ α β : Type}

/-- `await p` and go on. -/
def bind (p : Action ε σ α) (f : α → Action ε σ β) : Action ε σ β := fun s =>
  match p s with
  | (.ok a, s') => f a s'
  | (.error e, s') => (.error e, s')

instance : Monad (Action ε σ) where
  pure a := fun s => (.ok a, s)
  bind := bind

def throw (e : ε) : Action ε σ α := fun s => (.error e, s)

/-- The state. -/
def getState : Action ε σ σ := fun s => (.ok s, s)

/-- An assignment. -/
def modify (f : σ → σ) : Action ε σ Unit := fun s => (.ok (), f s)

/-- `try { p } catch (e) { handler; throw e }`. -/
def onError (p : Action ε σ α) (handler : σ → σ) : Action ε σ α := fun s =>
  match p s with
  | (.ok a, s') => (.ok a, s')
  | (.error e, s') => (.error e, handler s')

@[simp] theorem pure_apply (a : α) (s : σ) : (pure a : Action ε σ α) s = (.ok a, s) := rfl

@[simp] theorem throw_apply (e : ε) (s : σ) : (throw e : Action ε σ α) s = (.error e, s) := rfl

@[simp] theorem getState_apply (s : σ) : (getState : Action ε σ σ) s = (.ok s, s) := rfl

@[simp] theorem modify_apply (f : σ → σ) (s : σ) :
    (modify f : Action ε σ Unit) s = (.ok (), f s) := rfl

theorem bind_apply (p : Action ε σ α) (f : α → Action ε σ β) (s : σ) :
    (p >>= f) s = match p s with
      | (.ok a, s') => f a s'
      | (.error e, s') => (.error e, s') := rfl

theorem bind_of_ok {p : Action ε σ α} {f : α → Action ε σ β} {s s' : σ} {a : α}
    (h : p s = (.ok a, s')) : (p >>= f) s = f a s' := by
  rw [bind_apply, h]

theorem bind_of_error {p : Action ε σ α} {f : α → Action ε σ β} {s s' : σ} {e : ε}
    (h : p s = (.error e, s')) : (p >>= f) s = (.error e, s') := by
  rw [bind_apply, h]

theorem bind_eq_ok_iff {p : Action ε σ α} {f : α → Action ε σ β} {s s'' : σ} {b : β} :
    (p >>= f) s = (.ok b, s'') ↔ ∃ a s', p s = (.ok a, s') ∧ f a s' = (.ok b, s'') := by
  rw [bind_apply]
  rcases p s with ⟨_ | a, s'⟩
  · simp
  · constructor
    · exact fun h => ⟨a, s', rfl, h⟩
    · rintro ⟨a', u, heq, h⟩
      cases heq
      exact h

theorem bind_eq_error_iff {p : Action ε σ α} {f : α → Action ε σ β} {s s'' : σ} {e : ε} :
    (p >>= f) s = (.error e, s'') ↔
      p s = (.error e, s'') ∨ ∃ a s', p s = (.ok a, s') ∧ f a s' = (.error e, s'') := by
  rw [bind_apply]
  rcases p s with ⟨e' | a, s'⟩
  · simp
  · constructor
    · exact fun h => .inr ⟨a, s', rfl, h⟩
    · rintro (heq | ⟨a', u, heq, h⟩)
      · cases heq
      · cases heq
        exact h

theorem onError_eq_ok_iff {p : Action ε σ α} {handler : σ → σ} {s s' : σ} {a : α} :
    p.onError handler s = (.ok a, s') ↔ p s = (.ok a, s') := by
  unfold onError
  rcases p s with ⟨_ | b, u⟩
  · simp
  · simp

theorem onError_eq_error_iff {p : Action ε σ α} {handler : σ → σ} {s s' : σ} {e : ε} :
    p.onError handler s = (.error e, s') ↔ ∃ u, p s = (.error e, u) ∧ s' = handler u := by
  unfold onError
  rcases p s with ⟨e' | b, u⟩
  · constructor
    · intro h
      cases h
      exact ⟨u, rfl, rfl⟩
    · rintro ⟨u', h, rfl⟩
      cases h
      rfl
  · simp

/-! ## What an action leaves alone -/

/-- It leaves `f` of the state as it is, however it ends. -/
def Spares {ρ : Type} (f : σ → ρ) (p : Action ε σ α) : Prop := ∀ s, f (p s).2 = f s

/-- It does if it throws. -/
def SparesOnError {ρ : Type} (f : σ → ρ) (p : Action ε σ α) : Prop :=
  ∀ s e s', p s = (.error e, s') → f s' = f s

variable {ρ : Type} {f : σ → ρ}

theorem Spares.of_eq {p : Action ε σ α} (h : p.Spares f) {s s' : σ} {x : Except ε α}
    (hs : p s = (x, s')) : f s' = f s := by
  rw [← h s, hs]

theorem Spares.pure (a : α) : (Pure.pure a : Action ε σ α).Spares f := fun _ => rfl

theorem Spares.throw (e : ε) : (Action.throw e : Action ε σ α).Spares f := fun _ => rfl

theorem Spares.getState : (Action.getState : Action ε σ σ).Spares f := fun _ => rfl

theorem Spares.modify {g : σ → σ} (h : ∀ s, f (g s) = f s) :
    (Action.modify g : Action ε σ Unit).Spares f := h

theorem Spares.bind {p : Action ε σ α} {q : α → Action ε σ β} (hp : p.Spares f)
    (hq : ∀ a, (q a).Spares f) : (p >>= q).Spares f := by
  intro s
  rw [bind_apply, ← hp s]
  rcases p s with ⟨e | a, s'⟩
  · rfl
  · exact hq a s'

theorem Spares.onError {p : Action ε σ α} (h : p.Spares f) : p.SparesOnError f := by
  intro s e s' hs
  rw [← h s, hs]

theorem SparesOnError.bind {p : Action ε σ α} {q : α → Action ε σ β} (hp : p.Spares f)
    (hq : ∀ a, (q a).SparesOnError f) : (p >>= q).SparesOnError f := by
  intro s e s' h
  rcases bind_eq_error_iff.1 h with h | ⟨a, u, hu, h⟩
  · exact hp.onError s e s' h
  · rw [hq a u e s' h, ← hp s, hu]

/-! ## What holds after an action -/

/-- **A triple**: run from `s`, it returns into `Q` or throws into `E`. -/
structure Triple (p : Action ε σ α) (s : σ) (Q : α → σ → Prop) (E : ε → σ → Prop) : Prop where
  ok : ∀ a s', p s = (.ok a, s') → Q a s'
  error : ∀ e s', p s = (.error e, s') → E e s'

namespace Triple

variable {p : Action ε σ α} {g : α → Action ε σ β} {s : σ} {Q Q' : α → σ → Prop}
variable {R : β → σ → Prop} {E E' : ε → σ → Prop}

theorem pure {a : α} (h : Q a s) : Triple (Pure.pure a : Action ε σ α) s Q E where
  ok := by
    rintro _ _ ⟨⟩
    exact h
  error := by
    rintro _ _ ⟨⟩

theorem throw {e : ε} (h : E e s) : Triple (Action.throw e : Action ε σ α) s Q E where
  ok := by
    rintro _ _ ⟨⟩
  error := by
    rintro _ _ ⟨⟩
    exact h

theorem modify {f : σ → σ} {Q : Unit → σ → Prop} (h : Q () (f s)) :
    Triple (Action.modify f : Action ε σ Unit) s Q E where
  ok := by
    rintro _ _ ⟨⟩
    exact h
  error := by
    rintro _ _ ⟨⟩

theorem bind (hp : Triple p s Q E) (hg : ∀ a s', Q a s' → Triple (g a) s' R E) :
    Triple (p >>= g) s R E where
  ok b s'' h := by
    obtain ⟨a, s', hps, h⟩ := bind_eq_ok_iff.1 h
    exact (hg a s' (hp.ok a s' hps)).ok b s'' h
  error e s'' h := by
    rcases bind_eq_error_iff.1 h with h | ⟨a, s', hps, h⟩
    · exact hp.error e s'' h
    · exact (hg a s' (hp.ok a s' hps)).error e s'' h

theorem weaken (hp : Triple p s Q E) (hQ : ∀ a s', Q a s' → Q' a s')
    (hE : ∀ e s', E e s' → E' e s') : Triple p s Q' E' where
  ok a s' h := hQ a s' (hp.ok a s' h)
  error e s' h := hE e s' (hp.error e s' h)

/-- What holds of the state it leaves holds however it ends, -/
theorem of_snd {P : σ → Prop} (h : P (p s).2) : Triple p s (fun _ => P) fun _ => P where
  ok a s' hps := by rwa [hps] at h
  error e s' hps := by rwa [hps] at h

/-- and the other way round. -/
theorem snd {P : σ → Prop} (h : Triple p s (fun _ => P) fun _ => P) : P (p s).2 := by
  rcases hps : p s with ⟨e | a, s'⟩
  · exact h.error e s' hps
  · exact h.ok a s' hps

theorem onError {handler : σ → σ} (hp : Triple p s Q fun e s' => E e (handler s')) :
    Triple (p.onError handler) s Q E where
  ok a s' h := hp.ok a s' (onError_eq_ok_iff.1 h)
  error e s' h := by
    obtain ⟨u, hu, rfl⟩ := onError_eq_error_iff.1 h
    exact hp.error e u hu

end Triple

/-! ## One action following another -/

/-- **An action simulates another** along a relation of their states: they
return or throw alike, in related states. -/
def Sim (R : σ → τ → Prop) (p : Action ε σ α) (q : Action ε τ α) : Prop :=
  ∀ s t, R s t → (p s).1 = (q t).1 ∧ R (p s).2 (q t).2

variable {R : σ → τ → Prop}

theorem Sim.pure (a : α) : Sim R (pure a : Action ε σ α) (Pure.pure a : Action ε τ α) :=
  fun _ _ h => ⟨rfl, h⟩

theorem Sim.throw (e : ε) : Sim R (throw e : Action ε σ α) (Action.throw e : Action ε τ α) :=
  fun _ _ h => ⟨rfl, h⟩

theorem Sim.modify {f : σ → σ} {g : τ → τ} (h : ∀ s t, R s t → R (f s) (g t)) :
    Sim R (modify f : Action ε σ Unit) (Action.modify g : Action ε τ Unit) :=
  fun s t hs => ⟨rfl, h s t hs⟩

/-- Blocks simulate step by step. -/
theorem Sim.bind {p : Action ε σ α} {q : Action ε τ α} {f : α → Action ε σ β}
    {g : α → Action ε τ β} (hp : Sim R p q) (hf : ∀ a, Sim R (f a) (g a)) :
    Sim R (p >>= f) (q >>= g) := by
  intro s t h
  obtain ⟨hres, hstate⟩ := hp s t h
  rw [bind_apply, bind_apply]
  rcases hps : p s with ⟨x, s'⟩
  rcases hqt : q t with ⟨y, t'⟩
  rw [hps, hqt] at hres hstate
  cases hres
  cases x with
  | error e => exact ⟨rfl, hstate⟩
  | ok a => exact hf a s' t' hstate

theorem Sim.onError {p : Action ε σ α} {q : Action ε τ α} {f : σ → σ} {g : τ → τ}
    (hp : Sim R p q) (h : ∀ s t, R s t → R (f s) (g t)) :
    Sim R (p.onError f) (q.onError g) := by
  intro s t hs
  obtain ⟨hres, hstate⟩ := hp s t hs
  unfold Action.onError
  rcases hps : p s with ⟨x, s'⟩
  rcases hqt : q t with ⟨y, t'⟩
  rw [hps, hqt] at hres hstate
  cases hres
  cases x with
  | error e => exact ⟨rfl, h s' t' hstate⟩
  | ok a => exact ⟨rfl, hstate⟩

end Action

end TsEthereum
