import Mathlib.Data.List.Nodup
import Mathlib.Data.List.Basic

/-!
# Traversals that remember where they were

A traversal yields what it finds, and passes on the digests of what it has visited; what it
has visited before it skips. It finds everything exactly where nothing is out of reach,
no two of the things to visit have one digest, and none was visited before. `Covers` says
so, and is kept by the ways to put traversals together (`covers_andThen`, `covers_visit`,
`covers_sequence`).
-/

namespace TsEthereum

variable {δ γ ι : Type*}

/-- **A traversal**, from what was visited to what it yields and what is visited then; `none`
where its fuel runs out. -/
abbrev Visits (δ γ : Type*) := List δ → Option (List γ × List δ)

namespace Visits

/-- It finds nothing. -/
def skip : Visits δ γ := fun visited => some ([], visited)

/-- One, and then the other. -/
def andThen (w w' : Visits δ γ) : Visits δ γ := fun visited =>
  (w visited).bind fun r => (w' r.2).map fun r' => (r.1 ++ r'.1, r'.2)

/-- One after the other. -/
def sequence : List (Visits δ γ) → Visits δ γ
  | [] => skip
  | w :: ws => w.andThen (sequence ws)

/-- **A visit**, unless it was made: what it yields, and what is below. -/
def visit [DecidableEq δ] (digest : δ) (yielded : List γ) (w : Visits δ γ) : Visits δ γ :=
  fun visited =>
    if digest ∈ visited then some ([], visited)
    else (w (digest :: visited)).map fun r => (yielded ++ r.1, r.2)

/-- **What a traversal covers**: it ends, yields some of what there is, and all of it exactly where it
can, the digests are distinct, and new. -/
def Covers (w : Visits δ γ) (full : List γ) (digests : List δ) (can : Prop) : Prop :=
  ∀ visited, ∃ yielded visited', w visited = some (yielded, visited') ∧ yielded.Sublist full ∧
    (yielded = full ↔ can ∧ digests.Nodup ∧ digests.Disjoint visited) ∧
    (yielded = full → visited' = digests.reverse ++ visited)

variable {w w' : Visits δ γ} {full full' : List γ} {digests digests' : List δ} {can can' : Prop}

theorem covers_skip : (skip : Visits δ γ).Covers [] [] True :=
  fun visited => ⟨[], visited, rfl, List.Sublist.slnil, by simp, fun _ => rfl⟩

theorem covers_blocked (hfull : full ≠ []) (hcan : ¬ can) :
    (skip : Visits δ γ).Covers full digests can :=
  fun visited => ⟨[], visited, rfl, List.nil_sublist full,
    iff_of_false hfull.symm fun hc => hcan hc.1, fun hc => absurd hc.symm hfull⟩

theorem Covers.congr (h : w.Covers full digests can) (hcan : can ↔ can') :
    w.Covers full digests can' := by
  intro visited
  obtain ⟨yielded, visited', hw, hsub, hfull, hvisited⟩ := h visited
  exact ⟨yielded, visited', hw, hsub, by rw [hfull, hcan], hvisited⟩

theorem append_eq_of_sublist {xs xs' ys ys' : List γ} (hx : xs.Sublist ys) (hx' : xs'.Sublist ys') :
    xs ++ xs' = ys ++ ys' ↔ xs = ys ∧ xs' = ys' := by
  constructor
  · intro h
    have hlength := congrArg List.length h
    rw [List.length_append, List.length_append] at hlength
    have hle := hx.length_le
    have hle' := hx'.length_le
    exact ⟨hx.eq_of_length (by omega), hx'.eq_of_length (by omega)⟩
  · rintro ⟨rfl, rfl⟩
    rfl

theorem covers_andThen (h : w.Covers full digests can) (h' : w'.Covers full' digests' can') :
    (w.andThen w').Covers (full ++ full') (digests ++ digests') (can ∧ can') := by
  intro visited
  obtain ⟨yielded, visited₁, hw, hsub, hfull, hvisited⟩ := h visited
  obtain ⟨yielded', visited₂, hw', hsub', hfull', hvisited'⟩ := h' visited₁
  refine ⟨yielded ++ yielded', visited₂, ?_, hsub.append hsub', ?_, ?_⟩
  · rw [andThen, hw]
    dsimp only [Option.bind_some]
    rw [hw']
    rfl
  · rw [append_eq_of_sublist hsub hsub']
    constructor
    · rintro ⟨hall, hall'⟩
      obtain ⟨hcan, hnodup, hdisjoint⟩ := hfull.1 hall
      obtain ⟨hcan', hnodup', hdisjoint'⟩ := hfull'.1 hall'
      rw [hvisited hall, List.disjoint_append_right] at hdisjoint'
      refine ⟨⟨hcan, hcan'⟩, List.nodup_append'.2 ⟨hnodup, hnodup', ?_⟩,
        List.disjoint_append_left.2 ⟨hdisjoint, hdisjoint'.2⟩⟩
      exact fun d hd hd' => hdisjoint'.1 hd' (List.mem_reverse.2 hd)
    · rintro ⟨⟨hcan, hcan'⟩, hnodup, hdisjoint⟩
      obtain ⟨hnodup₁, hnodup₂, hapart⟩ := List.nodup_append'.1 hnodup
      obtain ⟨hdisjoint₁, hdisjoint₂⟩ := List.disjoint_append_left.1 hdisjoint
      have hall := hfull.2 ⟨hcan, hnodup₁, hdisjoint₁⟩
      refine ⟨hall, hfull'.2 ⟨hcan', hnodup₂, ?_⟩⟩
      rw [hvisited hall, List.disjoint_append_right]
      exact ⟨fun d hd hd' => hapart (List.mem_reverse.1 hd') hd, hdisjoint₂⟩
  · intro hall
    obtain ⟨hall, hall'⟩ := (append_eq_of_sublist hsub hsub').1 hall
    rw [hvisited' hall', hvisited hall, List.reverse_append, List.append_assoc]

theorem covers_sequence {w : ι → Visits δ γ} {full : ι → List γ} {digests : ι → List δ}
    {can : ι → Prop} {is : List ι} (h : ∀ i ∈ is, (w i).Covers (full i) (digests i) (can i)) :
    (sequence (is.map w)).Covers (is.flatMap full) (is.flatMap digests) (∀ i ∈ is, can i) := by
  induction is with
  | nil => exact covers_skip.congr (by simp)
  | cons i is ih =>
    obtain ⟨hi, his⟩ := List.forall_mem_cons.1 h
    exact (covers_andThen hi (ih his)).congr List.forall_mem_cons.symm

theorem covers_visit [DecidableEq δ] {digest : δ} {yielded : List γ}
    (h : w.Covers full digests can) (hne : yielded ++ full ≠ []) :
    (visit digest yielded w).Covers (yielded ++ full) (digest :: digests) can := by
  intro visited
  by_cases hvisited : digest ∈ visited
  · refine ⟨[], visited, if_pos hvisited, List.nil_sublist _, iff_of_false hne.symm ?_,
      fun hc => absurd hc.symm hne⟩
    exact fun hc => hc.2.2 List.mem_cons_self hvisited
  · obtain ⟨found, visited', hw, hsub, hfull, hvisited'⟩ := h (digest :: visited)
    refine ⟨yielded ++ found, visited', ?_, (List.Sublist.refl yielded).append hsub, ?_, ?_⟩
    · rw [visit, if_neg hvisited, hw]
      rfl
    · rw [List.append_cancel_left_eq, hfull, List.nodup_cons, List.disjoint_cons_right,
        List.disjoint_cons_left]
      constructor
      · rintro ⟨hcan, hnodup, hnew, hdisjoint⟩
        exact ⟨hcan, ⟨hnew, hnodup⟩, hvisited, hdisjoint⟩
      · rintro ⟨hcan, ⟨hnew, hnodup⟩, -, hdisjoint⟩
        exact ⟨hcan, hnodup, hnew, hdisjoint⟩
    · intro hall
      rw [hvisited' (List.append_cancel_left hall), List.reverse_cons, List.append_assoc]
      rfl

end Visits

end TsEthereum
