import Mathlib.Data.List.Basic
import Mathlib.Logic.Relation

/-!
# Branches of a tree of blocks

A branch is a list of blocks from the root up, each at the index its number
says and the child of the one before. A block `Joins` a branch at the first
of its ancestors that lies on it; `switch` is the branch that goes to the
block from there. What lies on the branch below the ancestor stays
(`getElem?_switch_of_le`), what lies above is the block's own path
(`getElem?_switch_of_mem`), and an ancestor of a block on a branch lies on it
(`IsBranch.ancestor`).
-/

namespace TsEthereum

namespace Fork

variable {β : Type} {number : β → ℕ} {parent : β → β → Prop}

/-- **A branch**: `parent x y` reads "the parent of `x` is `y`". -/
structure IsBranch (number : β → ℕ) (parent : β → β → Prop) (chain : List β) : Prop where
  number_eq : ∀ i x, chain[i]? = some x → number x = i
  linked : ∀ i x y, chain[i]? = some x → chain[i + 1]? = some y → parent y x

theorem getElem?_concat {chain : List β} {x y : β} {i : ℕ} (h : (chain ++ [x])[i]? = some y) :
    (i < chain.length ∧ chain[i]? = some y) ∨ (i = chain.length ∧ y = x) := by
  have hi := (List.getElem?_eq_some_iff.1 h).1
  rw [List.length_append, List.length_singleton] at hi
  rcases Nat.lt_or_ge i chain.length with hlt | hge
  · rw [List.getElem?_append_left hlt] at h
    exact .inl ⟨hlt, h⟩
  · obtain rfl : i = chain.length := by omega
    rw [List.getElem?_concat_length] at h
    exact .inr ⟨rfl, (Option.some.inj h).symm⟩

namespace IsBranch

variable {chain : List β}

theorem take (h : IsBranch number parent chain) (n : ℕ) : IsBranch number parent (chain.take n) where
  number_eq i x hx := by
    rw [List.getElem?_take] at hx
    split at hx
    · exact h.number_eq i x hx
    · cases hx
  linked i x y hx hy := by
    rw [List.getElem?_take] at hx hy
    split at hy
    · rw [if_pos (by omega)] at hx
      exact h.linked i x y hx hy
    · cases hy

theorem concat (h : IsBranch number parent chain) {x : β} (hx : number x = chain.length)
    (hparent : ∀ y, chain[chain.length - 1]? = some y → parent x y) :
    IsBranch number parent (chain ++ [x]) where
  number_eq i y hy := by
    rcases getElem?_concat hy with ⟨-, hy⟩ | ⟨rfl, rfl⟩
    · exact h.number_eq i y hy
    · exact hx
  linked i y z hy hz := by
    rcases getElem?_concat hy with ⟨-, hy'⟩ | ⟨rfl, rfl⟩
    · rcases getElem?_concat hz with ⟨-, hz'⟩ | ⟨hi, rfl⟩
      · exact h.linked i y z hy' hz'
      · refine hparent y ?_
        rw [← hi, Nat.add_sub_cancel]
        exact hy'
    · rcases getElem?_concat hz with ⟨hi, -⟩ | ⟨hi, -⟩
      · omega
      · omega

theorem getElem?_number (h : IsBranch number parent chain) {x : β} (hx : x ∈ chain) :
    chain[number x]? = some x := by
  obtain ⟨i, hi⟩ := List.mem_iff_getElem?.1 hx
  rwa [h.number_eq i x hi]

theorem mem_drop_iff (h : IsBranch number parent chain) {x : β} {n : ℕ} :
    x ∈ chain.drop n ↔ x ∈ chain ∧ n ≤ number x := by
  constructor
  · intro hx
    obtain ⟨i, hi⟩ := List.mem_iff_getElem?.1 hx
    rw [List.getElem?_drop] at hi
    have := h.number_eq _ _ hi
    exact ⟨List.mem_of_getElem? hi, by omega⟩
  · rintro ⟨hx, hle⟩
    refine List.mem_iff_getElem?.2 ⟨number x - n, ?_⟩
    rw [List.getElem?_drop, Nat.add_sub_cancel' hle]
    exact h.getElem?_number hx

/-- **What lies under a block on the branch lies on it**, where a block has no
other parent. -/
theorem ancestor (h : IsBranch number parent chain)
    (hunique : ∀ x y z, parent x y → parent x z → y = z)
    (hroot : ∀ x y, chain[0]? = some x → ¬ parent x y) {x y : β}
    (hx : x ∈ chain) (hxy : Relation.ReflTransGen parent x y) :
    y ∈ chain ∧ number y ≤ number x := by
  induction hxy with
  | refl => exact ⟨hx, Nat.le_refl _⟩
  | @tail y z hxy hyz ih =>
    obtain ⟨hy, hle⟩ := ih
    have hget := h.getElem?_number hy
    cases hn : number y with
    | zero =>
      rw [hn] at hget
      exact absurd hyz (hroot y z hget)
    | succ i =>
      rw [hn] at hget
      have hlt : i < chain.length := by
        have := (List.getElem?_eq_some_iff.1 hget).1
        omega
      have hprev := List.getElem?_eq_getElem hlt
      have heq : z = chain[i] := hunique y z _ hyz (h.linked i _ y hprev hget)
      subst heq
      refine ⟨List.getElem_mem hlt, ?_⟩
      rw [h.number_eq i _ hprev]
      omega

/-- Of two blocks on the branch, the one with the lower number is under the
other. -/
theorem ancestor_of_le (h : IsBranch number parent chain) {x y : β} (hx : x ∈ chain)
    (hy : y ∈ chain) (hle : number y ≤ number x) : Relation.ReflTransGen parent x y := by
  have hget := h.getElem?_number hx
  generalize number x = n at hget hle
  induction n generalizing x with
  | zero =>
    have hy0 := h.getElem?_number hy
    rw [Nat.le_zero.1 hle, hget] at hy0
    rw [Option.some.inj hy0]
  | succ n ih =>
    rcases Nat.lt_or_ge n (number y) with hlt | hge
    · have hy' := h.getElem?_number hy
      rw [show number y = n + 1 by omega, hget] at hy'
      rw [Option.some.inj hy']
    · have hlt : n < chain.length := by
        have := (List.getElem?_eq_some_iff.1 hget).1
        omega
      have hprev := List.getElem?_eq_getElem hlt
      exact .head (h.linked n _ x hprev hget) (ih (List.getElem_mem hlt) hprev hge)

end IsBranch

/-! ## Joining a branch -/

/-- **A block joins a branch** at `A`, the first of its ancestors on it: the
path to there, without `A`, from the block down. -/
inductive Joins (number : β → ℕ) (parent : β → β → Prop) (chain : List β) :
    β → List β → β → Prop where
  | here {x : β} (h : chain[number x]? = some x) : Joins number parent chain x [] x
  | step {x y A : β} {path : List β} (h : chain[number x]? ≠ some x) (hparent : parent x y)
      (hnumber : number x = number y + 1) (hj : Joins number parent chain y path A) :
      Joins number parent chain x (x :: path) A

/-- **The branch to the block**: up to `A` the old one, then the path. -/
def switch (number : β → ℕ) (chain path : List β) (A : β) : List β :=
  chain.take (number A + 1) ++ path.reverse

namespace Joins

variable {chain path : List β} {x A : β}

theorem mono {parent' : β → β → Prop} (hparent : ∀ x y, parent x y → parent' x y)
    (h : Joins number parent chain x path A) : Joins number parent' chain x path A := by
  induction h with
  | here h => exact .here h
  | step h hxy hnumber _ ih => exact .step h (hparent _ _ hxy) hnumber ih

theorem ancestor_mem (h : Joins number parent chain x path A) : chain[number A]? = some A := by
  induction h with
  | here h => exact h
  | step _ _ _ _ ih => exact ih

theorem number_eq (h : Joins number parent chain x path A) :
    number x = number A + path.length := by
  induction h with
  | here _ => simp
  | step _ _ hnumber _ ih => rw [hnumber, ih, List.length_cons, Nat.add_assoc]

theorem number_mem (h : Joins number parent chain x path A) {y : β} (hy : y ∈ path) :
    number A < number y ∧ number y ≤ number x := by
  induction h with
  | here _ => cases hy
  | step _ _ hnumber hj ih =>
    have := hj.number_eq
    rcases List.mem_cons.1 hy with rfl | hy
    · omega
    · have := ih hy
      omega

theorem notMem_chain (h : Joins number parent chain x path A) {y : β} (hy : y ∈ path) :
    chain[number y]? ≠ some y := by
  induction h with
  | here _ => cases hy
  | step h _ _ _ ih =>
    rcases List.mem_cons.1 hy with rfl | hy
    · exact h
    · exact ih hy

theorem eq_or_mem (h : Joins number parent chain x path A) : (path = [] ∧ x = A) ∨ x ∈ path := by
  cases h with
  | here _ => exact .inl ⟨rfl, rfl⟩
  | step _ _ _ _ => exact .inr List.mem_cons_self

theorem exists_mem (h : Joins number parent chain x path A) {n : ℕ} (hA : number A < n)
    (hx : n ≤ number x) : ∃ y ∈ path, number y = n := by
  induction h with
  | here _ => omega
  | @step x y A path _ _ hnumber _ ih =>
    rcases Nat.lt_or_ge (number y) n with hlt | hge
    · exact ⟨x, List.mem_cons_self, by omega⟩
    · obtain ⟨z, hz, hn⟩ := ih hA hge
      exact ⟨z, List.mem_cons_of_mem x hz, hn⟩

theorem switch_step {chain path : List β} {x A : β} :
    switch number chain (x :: path) A = switch number chain path A ++ [x] := by
  simp [switch]

theorem length_switch (h : Joins number parent chain x path A) :
    (switch number chain path A).length = number x + 1 := by
  have hA := (List.getElem?_eq_some_iff.1 h.ancestor_mem).1
  rw [switch, List.length_append, List.length_take, List.length_reverse, h.number_eq]
  omega

theorem getElem?_switch_of_le (h : Joins number parent chain x path A) {n : ℕ}
    (hn : n ≤ number A) : (switch number chain path A)[n]? = chain[n]? := by
  have hA := (List.getElem?_eq_some_iff.1 h.ancestor_mem).1
  rw [switch, List.getElem?_append_left (by rw [List.length_take]; omega), List.getElem?_take,
    if_pos (by omega)]

theorem getElem?_switch_of_mem (h : Joins number parent chain x path A) {y : β} (hy : y ∈ path) :
    (switch number chain path A)[number y]? = some y := by
  induction h with
  | here _ => cases hy
  | @step x z A path _ _ hnumber hj ih =>
    have hlen := hj.length_switch
    rw [switch_step]
    rcases List.mem_cons.1 hy with rfl | hy
    · rw [List.getElem?_append_right (by omega), hlen, hnumber]
      simp
    · have := (hj.number_mem hy).2
      rw [List.getElem?_append_left (by omega)]
      exact ih hy

theorem getElem?_switch_self (h : Joins number parent chain x path A) :
    (switch number chain path A)[number x]? = some x := by
  rcases h.eq_or_mem with ⟨rfl, rfl⟩ | hx
  · rw [h.getElem?_switch_of_le (Nat.le_refl _)]
    exact h.ancestor_mem
  · exact h.getElem?_switch_of_mem hx

/-- What lies on it lay on the old one, no higher than the ancestor, or is of
the path. -/
theorem mem_switch (h : Joins number parent chain x path A) {n : ℕ} {y : β}
    (hy : (switch number chain path A)[n]? = some y) :
    (n ≤ number A ∧ chain[n]? = some y) ∨ (y ∈ path ∧ number y = n) := by
  rcases Nat.lt_or_ge (number A) n with hlt | hge
  · have hn : n ≤ number x := by
      have := (List.getElem?_eq_some_iff.1 hy).1
      rw [h.length_switch] at this
      omega
    obtain ⟨z, hz, rfl⟩ := h.exists_mem hlt hn
    rw [h.getElem?_switch_of_mem hz] at hy
    rw [← Option.some.inj hy]
    exact .inr ⟨hz, rfl⟩
  · rw [h.getElem?_switch_of_le hge] at hy
    exact .inl ⟨hge, hy⟩

theorem isBranch_switch (h : Joins number parent chain x path A)
    (hchain : IsBranch number parent chain) :
    IsBranch number parent (switch number chain path A) := by
  induction h with
  | @here x _ =>
    rw [switch, List.reverse_nil, List.append_nil]
    exact hchain.take _
  | @step x y A path _ hparent hnumber hj ih =>
    rw [switch_step]
    refine ih.concat ?_ fun z hz => ?_
    · rw [hj.length_switch, hnumber]
    · rw [hj.length_switch, Nat.add_sub_cancel, hj.getElem?_switch_self] at hz
      rw [← Option.some.inj hz]
      exact hparent

end Joins

end Fork

end TsEthereum
