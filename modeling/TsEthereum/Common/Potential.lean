import Mathlib.Algebra.Order.Ring.Int
import Mathlib.Data.Finset.Card
import Mathlib.Tactic.Linarith

/-!
# A counter that covers a property

A counter covers a property of the elements of a type when it is at least a fixed
amount for each element that has it, however many are asked for: a potential
argument over a type that need not be finite. A step that changes the property at
one element moves the counter by that element's amount (`CounterCovers.update`).
-/

namespace TsEthereum

universe u

variable {α : Type u} {amount counter counter' : ℤ} {P Q : α → Prop}

open Classical in
/-- **A counter covers a property**: every finite set of elements costs at most the
counter, at the amount for each that has it. -/
def CounterCovers (amount : ℤ) (P : α → Prop) (counter : ℤ) : Prop :=
  ∀ S : Finset α, amount * (S.filter P).card ≤ counter

theorem covers_of_forall_not (h : ∀ x, ¬ P x) : CounterCovers amount P 0 := by
  classical
  intro S
  rw [Finset.filter_false_of_mem fun x _ => h x, Finset.card_empty, Nat.cast_zero, mul_zero]

theorem CounterCovers.amount_le (h : CounterCovers amount P counter) {x : α} (hx : P x) : amount ≤ counter := by
  classical
  have := h {x}
  rwa [Finset.filter_singleton, if_pos hx, Finset.card_singleton, Nat.cast_one, mul_one] at this

open Classical in
theorem card_filter_insert (P : α → Prop) (x : α) (S : Finset α) :
    (((insert x S).filter P).card : ℤ) = ((S.erase x).filter P).card + if P x then 1 else 0 := by
  rw [← Finset.insert_erase (Finset.mem_insert_self x S), Finset.erase_insert_eq_erase,
    Finset.filter_insert]
  by_cases hx : P x
  · rw [if_pos hx, if_pos hx, Finset.card_insert_of_notMem (by simp), Nat.cast_add, Nat.cast_one]
  · rw [if_neg hx, if_neg hx, add_zero]

open Classical in
/-- **The property changes at one element**, and the counter by its amount at
least. -/
theorem CounterCovers.update (h : CounterCovers amount P counter) (hamount : 0 ≤ amount) (x : α)
    (hsame : ∀ y, y ≠ x → (Q y ↔ P y))
    (hcounter : counter + amount * ((if Q x then 1 else 0) - (if P x then 1 else 0)) ≤ counter') :
    CounterCovers amount Q counter' := by
  intro S
  have hrest : (S.erase x).filter Q = (S.erase x).filter P :=
    Finset.filter_congr fun y hy => hsame y (Finset.ne_of_mem_erase hy)
  have hle : ((S.filter Q).card : ℤ) ≤ ((insert x S).filter Q).card := by
    exact_mod_cast Finset.card_le_card (Finset.filter_subset_filter _ (Finset.subset_insert x S))
  have hP := h (insert x S)
  rw [card_filter_insert] at hle hP
  rw [hrest] at hle
  have hmul := mul_le_mul_of_nonneg_left hle hamount
  linarith

end TsEthereum
