import Mathlib.Data.Nat.Notation

/-!
# Loops that may not end

A loop takes turns: each goes on with a state or ends with a result. With a bound on
its turns it is a function (`loop`); it ends with a result when some bound is enough
(`Finishes`). `finishes_of_measure` is the rule for loops that end, `not_finishes_of_inv` that for
loops that do not.
-/

namespace TsEthereum

universe u v

variable {σ : Type u} {ρ : Type v}

/-- **The loop, with a bound on its turns**: none if it is still running. -/
def loop (turn : σ → σ ⊕ ρ) : ℕ → σ → Option ρ
  | 0, _ => none
  | fuel + 1, s =>
    match turn s with
    | .inl s' => loop turn fuel s'
    | .inr r => some r

/-- **The loop ends** with a result. -/
def Finishes (turn : σ → σ ⊕ ρ) (s : σ) (r : ρ) : Prop := ∃ fuel, loop turn fuel s = some r

variable {turn : σ → σ ⊕ ρ} {s s' : σ} {r r' : ρ}

theorem Finishes.of_done (h : turn s = .inr r) : Finishes turn s r :=
  ⟨1, by simp only [loop, h]⟩

theorem finishes_iff_of_next (h : turn s = .inl s') : Finishes turn s r ↔ Finishes turn s' r := by
  constructor
  · rintro ⟨fuel, hfuel⟩
    cases fuel with
    | zero => cases hfuel
    | succ fuel =>
      simp only [loop, h] at hfuel
      exact ⟨fuel, hfuel⟩
  · rintro ⟨fuel, hfuel⟩
    exact ⟨fuel + 1, by simpa only [loop, h] using hfuel⟩

/-- **A loop ends well** when every turn from a good state ends so, or goes on with a good
state and less to do. -/
theorem finishes_of_measure {I : σ → Prop} {Q : ρ → Prop} (μ : σ → ℕ)
    (hturn : ∀ s, I s → (∃ r, turn s = .inr r ∧ Q r) ∨
      ∃ s', turn s = .inl s' ∧ I s' ∧ μ s' < μ s)
    (hs : I s) : ∃ r, Finishes turn s r ∧ Q r := by
  induction hn : μ s using Nat.strongRecOn generalizing s with
  | ind n ih =>
    rcases hturn s hs with ⟨r, hr, hQ⟩ | ⟨s', hs', hI, hlt⟩
    · exact ⟨r, .of_done hr, hQ⟩
    · obtain ⟨r, hr, hQ⟩ := ih (μ s') (hn ▸ hlt) hI rfl
      exact ⟨r, (finishes_iff_of_next hs').2 hr, hQ⟩

theorem loop_of_measure {I : σ → Prop} {Q : ρ → Prop} (μ : σ → ℕ)
    (hturn : ∀ s, I s → (∃ r, turn s = .inr r ∧ Q r) ∨
      ∃ s', turn s = .inl s' ∧ I s' ∧ μ s' < μ s)
    (hs : I s) {fuel : ℕ} (hfuel : μ s < fuel) : ∃ r, loop turn fuel s = some r ∧ Q r := by
  induction fuel generalizing s with
  | zero => exact absurd hfuel (Nat.not_lt_zero _)
  | succ fuel ih =>
    rcases hturn s hs with ⟨r, hr, hQ⟩ | ⟨s', hs', hI, hlt⟩
    · exact ⟨r, by simp only [loop, hr], hQ⟩
    · obtain ⟨r, hr, hQ⟩ := ih hI (by omega)
      exact ⟨r, by simp only [loop, hs', hr], hQ⟩

theorem not_finishes_of_inv {I : σ → Prop} (hturn : ∀ s, I s → ∃ s', turn s = .inl s' ∧ I s')
    (hs : I s) : ¬ Finishes turn s r := by
  rintro ⟨fuel, hfuel⟩
  induction fuel generalizing s with
  | zero => cases hfuel
  | succ fuel ih =>
    obtain ⟨s', hs', hI⟩ := hturn s hs
    simp only [loop, hs'] at hfuel
    exact ih hI hfuel

theorem loop_of_inv {I : σ → Prop} {Q : ρ → Prop} (hnext : ∀ s s', I s → turn s = .inl s' → I s')
    (hdone : ∀ s r, I s → turn s = .inr r → Q r) {fuel : ℕ} (hs : I s)
    (h : loop turn fuel s = some r) : Q r := by
  induction fuel generalizing s with
  | zero => cases h
  | succ fuel ih =>
    cases hturn : turn s with
    | inl s' =>
      simp only [loop, hturn] at h
      exact ih (hnext s s' hs hturn) h
    | inr r' =>
      simp only [loop, hturn] at h
      rw [← Option.some.inj h]
      exact hdone s r' hs hturn

end TsEthereum
