import Mathlib.Data.Finset.Card

/-!
# The distinct elements of a list

A loop that pushes what it has not pushed yet counts the elements without
their repetitions (`length_distinct`), so a count it reaches is reached by
any set that has them all (`length_distinct_le_card`).
-/

namespace TsEthereum

variable {α : Type} [DecidableEq α]

/-- One turn: push what is not there. -/
def pushNew (seen : List α) (a : α) : List α := if a ∈ seen then seen else seen ++ [a]

/-- **The distinct elements of a list**, in the order they come. -/
def distinct (l : List α) : List α := l.foldl pushNew []

theorem mem_pushNew {seen : List α} {a b : α} : b ∈ pushNew seen a ↔ b ∈ seen ∨ b = a := by
  unfold pushNew
  split
  · next h =>
    constructor
    · exact .inl
    · rintro (hb | rfl)
      · exact hb
      · exact h
  · rw [List.mem_append, List.mem_singleton]

theorem nodup_pushNew {seen : List α} (h : seen.Nodup) (a : α) : (pushNew seen a).Nodup := by
  unfold pushNew
  split
  · exact h
  · next hnot => exact List.nodup_append.2 ⟨h, List.nodup_singleton a, by
      intro b hb c hc
      rw [List.mem_singleton.1 hc]
      rintro rfl
      exact hnot hb⟩

theorem foldl_pushNew (l seen : List α) (h : seen.Nodup) :
    (l.foldl pushNew seen).Nodup ∧ ∀ b, b ∈ l.foldl pushNew seen ↔ b ∈ seen ∨ b ∈ l := by
  induction l generalizing seen with
  | nil => simpa using h
  | cons a l ih =>
    obtain ⟨hnodup, hmem⟩ := ih (pushNew seen a) (nodup_pushNew h a)
    refine ⟨hnodup, fun b => ?_⟩
    rw [List.foldl_cons, hmem b, mem_pushNew, List.mem_cons, or_assoc]

@[simp] theorem mem_distinct {l : List α} {a : α} : a ∈ distinct l ↔ a ∈ l := by
  rw [distinct, (foldl_pushNew l [] List.nodup_nil).2 a]
  simp

theorem nodup_distinct (l : List α) : (distinct l).Nodup :=
  (foldl_pushNew l [] List.nodup_nil).1

theorem length_distinct (l : List α) : (distinct l).length = l.toFinset.card := by
  rw [← List.toFinset_card_of_nodup (nodup_distinct l)]
  congr 1
  ext a
  simp

theorem length_distinct_le_card {l : List α} {s : Finset α} (h : ∀ a ∈ l, a ∈ s) :
    (distinct l).length ≤ s.card := by
  rw [length_distinct]
  exact Finset.card_le_card fun a ha => h a (List.mem_toFinset.1 ha)

end TsEthereum
