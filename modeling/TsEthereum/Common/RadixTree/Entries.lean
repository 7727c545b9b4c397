import TsEthereum.Common.RadixTree.Basic
import Mathlib.Data.List.FinRange
import Mathlib.Data.List.Lex
import Mathlib.Data.List.Pairwise

/-!
# The entries of a radix tree

Over letters that are numbered, `entries` lists what a tree stores, in the order of its keys.
-/

namespace TsEthereum

universe v

namespace RadixTree

variable {n : ℕ} {ν : Type v}

/-- **What a tree stores**: the value of a branch, and then child by child. -/
def entries : RadixTree (Fin n) ν → List (List (Fin n) × ν)
  | .empty => []
  | .leaf p v => [(p, v)]
  | .extension p c => (entries c).map fun e => (p ++ e.1, e.2)
  | .branch cs v =>
    v.toList.map (fun w => ([], w)) ++
      (List.finRange n).flatMap fun i => (entries (cs i)).map fun e => (i :: e.1, e.2)

theorem mem_entries {t : RadixTree (Fin n) ν} {k : List (Fin n)} {v : ν} :
    (k, v) ∈ t.entries ↔ t.lookup k = some v := by
  induction t generalizing k with
  | empty => simp [entries]
  | leaf p w =>
    rw [entries, List.mem_singleton, lookup_leaf, Prod.mk.injEq]
    constructor
    · rintro ⟨rfl, rfl⟩
      exact if_pos rfl
    · intro h
      split at h
      · rename_i hk
        exact ⟨hk, (Option.some.inj h).symm⟩
      · cases h
  | extension p c ih =>
    rw [entries, List.mem_map, lookup_extension, Option.bind_eq_some_iff]
    constructor
    · rintro ⟨e, he, heq⟩
      cases heq
      exact ⟨e.1, dropPrefix?_append p e.1, ih.1 he⟩
    · rintro ⟨r, hr, hlookup⟩
      exact ⟨(r, v), ih.2 hlookup, by rw [dropPrefix?_eq_some.1 hr]⟩
  | branch cs w ih =>
    rw [entries, List.mem_append, List.mem_map, List.mem_flatMap]
    cases k with
    | nil =>
      rw [lookup_branch_nil]
      constructor
      · rintro (⟨x, hx, heq⟩ | ⟨i, -, hi⟩)
        · cases heq
          exact Option.mem_toList.1 hx
        · obtain ⟨e, -, heq⟩ := List.mem_map.1 hi
          cases heq
      · intro h
        exact .inl ⟨v, Option.mem_toList.2 h, rfl⟩
    | cons i r =>
      rw [lookup_branch_cons]
      -- the branch's own binding is at the empty key, the others start with their slot
      constructor
      · rintro (⟨x, -, heq⟩ | ⟨j, -, hj⟩)
        · cases heq
        · obtain ⟨e, he, heq⟩ := List.mem_map.1 hj
          cases heq
          exact (ih i).1 he
      · intro h
        exact .inr ⟨i, List.mem_finRange i, List.mem_map.2 ⟨(r, v), (ih i).2 h, rfl⟩⟩

theorem pairwise_entries (t : RadixTree (Fin n) ν) :
    t.entries.Pairwise fun e e' => e.1 < e'.1 := by
  induction t with
  | empty => exact List.Pairwise.nil
  | leaf p w => exact List.pairwise_singleton _ _
  | extension p c ih =>
    rw [entries, List.pairwise_map]
    refine ih.imp fun hlt => ?_
    exact List.append_left_lt hlt
  | branch cs w ih =>
    rw [entries, List.pairwise_append]
    refine ⟨?_, List.pairwise_flatMap.2 ⟨fun i _ => ?_, ?_⟩, ?_⟩
    · cases w with
      | none => exact List.Pairwise.nil
      | some w => exact List.pairwise_singleton _ _
    · rw [List.pairwise_map]
      exact (ih i).imp fun hlt => List.cons_lt_cons_iff.2 (.inr ⟨rfl, hlt⟩)
    · refine List.pairwise_lt_finRange n |>.imp fun hlt e he e' he' => ?_
      obtain ⟨x, -, rfl⟩ := List.mem_map.1 he
      obtain ⟨y, -, rfl⟩ := List.mem_map.1 he'
      exact List.cons_lt_cons_iff.2 (.inl hlt)
    · intro e he e' he'
      obtain ⟨x, -, rfl⟩ := List.mem_map.1 he
      obtain ⟨i, -, hi⟩ := List.mem_flatMap.1 he'
      obtain ⟨y, -, rfl⟩ := List.mem_map.1 hi
      exact List.nil_lt_cons i y.1

end RadixTree

end TsEthereum
