import Mathlib.Data.List.Nodup
import Mathlib.Logic.Function.Basic

/-!
# Maps in insertion order

The `Map` of JavaScript: its entries are gone through in the order their keys
were first set in. `set` writes over an entry where it stands and appends a new
one. What a lookup finds after each call is stated by key (`get_set`,
`get_delete`); where the values are lists, how many elements there are in all
is kept with them (`size_set`, `size_delete`).
-/

namespace TsEthereum

variable {κ ν : Type}

/-- **A `Map`**: its entries, the oldest first, no two under one key. -/
structure JsMap (κ ν : Type) where
  entries : List (κ × ν)
  nodup : (entries.map Prod.fst).Nodup

namespace JsMap

/-- `new Map()`. -/
def empty : JsMap κ ν := ⟨[], List.nodup_nil⟩

/-- `keys()`. -/
def keys (m : JsMap κ ν) : List κ := m.entries.map Prod.fst

variable [DecidableEq κ]

/-- **`get`.** -/
def get (m : JsMap κ ν) (k : κ) : Option ν :=
  (m.entries.find? fun e => e.1 = k).map Prod.snd

/-- The entries with one written over. -/
def overwrite (k : κ) (v : ν) (entries : List (κ × ν)) : List (κ × ν) :=
  entries.map fun e => if e.1 = k then (e.1, v) else e

theorem keys_overwrite (k : κ) (v : ν) (entries : List (κ × ν)) :
    (overwrite k v entries).map Prod.fst = entries.map Prod.fst := by
  rw [overwrite, List.map_map]
  refine List.map_congr_left fun e _ => ?_
  rw [Function.comp_apply]
  split
  · rfl
  · rfl

/-- **`set`.** -/
def set (m : JsMap κ ν) (k : κ) (v : ν) : JsMap κ ν where
  entries := if k ∈ m.keys then overwrite k v m.entries else m.entries ++ [(k, v)]
  nodup := by
    split
    · rw [keys_overwrite]
      exact m.nodup
    · rename_i hk
      rw [List.map_append]
      refine List.nodup_append.2 ⟨m.nodup, List.nodup_singleton k, fun a ha b hb hab => hk ?_⟩
      rw [hab, List.mem_singleton.1 hb] at ha
      exact ha

/-- **`delete`.** -/
def delete (m : JsMap κ ν) (k : κ) : JsMap κ ν where
  entries := m.entries.filter fun e => e.1 ≠ k
  nodup := m.nodup.sublist (List.filter_sublist.map Prod.fst)

/-! ## Lookups -/

variable {m : JsMap κ ν} {k k' : κ} {v : ν}

@[simp] theorem get_empty (k : κ) : (empty : JsMap κ ν).get k = none := rfl

theorem get_eq_none : m.get k = none ↔ k ∉ m.keys := by
  simp only [get, Option.map_eq_none_iff, List.find?_eq_none, decide_eq_true_eq, keys, List.mem_map,
    not_exists, not_and]

theorem get_eq_some : m.get k = some v ↔ (k, v) ∈ m.entries := by
  rw [get, Option.map_eq_some_iff]
  constructor
  · rintro ⟨⟨k', v'⟩, hfind, rfl⟩
    have hkey := List.find?_some hfind
    obtain rfl : k' = k := of_decide_eq_true hkey
    exact List.mem_of_find?_eq_some hfind
  · intro hmem
    cases hfind : m.entries.find? (fun e => e.1 = k) with
    | none => exact absurd (List.find?_eq_none.1 hfind _ hmem) (by simp)
    | some e =>
      have hkey := List.find?_some hfind
      have hkey : e.1 = k := of_decide_eq_true hkey
      exact ⟨e, rfl, congrArg Prod.snd
        (List.inj_on_of_nodup_map m.nodup (List.mem_of_find?_eq_some hfind) hmem hkey)⟩

theorem entries_set (m : JsMap κ ν) (k : κ) (v : ν) :
    (m.set k v).entries = if k ∈ m.keys then overwrite k v m.entries else m.entries ++ [(k, v)] :=
  rfl

theorem mem_entries_set {v' : ν} :
    (k', v') ∈ (m.set k v).entries ↔ k' = k ∧ v' = v ∨ k' ≠ k ∧ (k', v') ∈ m.entries := by
  by_cases hk : k ∈ m.keys
  · rw [entries_set, if_pos hk, overwrite, List.mem_map]
    constructor
    · rintro ⟨e, he, heq⟩
      by_cases hek : e.1 = k
      · rw [if_pos hek] at heq
        cases heq
        exact .inl ⟨hek, rfl⟩
      · rw [if_neg hek] at heq
        subst heq
        exact .inr ⟨hek, he⟩
    · rintro (⟨rfl, rfl⟩ | ⟨hkk, hmem⟩)
      · obtain ⟨e, he, hek⟩ := List.mem_map.1 hk
        exact ⟨e, he, by rw [if_pos hek, hek]⟩
      · exact ⟨_, hmem, if_neg hkk⟩
  · rw [entries_set, if_neg hk, List.mem_append, List.mem_singleton, Prod.mk.injEq]
    constructor
    · rintro (hmem | heq)
      · refine .inr ⟨?_, hmem⟩
        rintro rfl
        exact hk (List.mem_map.2 ⟨_, hmem, rfl⟩)
      · exact .inl heq
    · rintro (heq | ⟨-, hmem⟩)
      · exact .inr heq
      · exact .inl hmem

theorem get_set (m : JsMap κ ν) (k : κ) (v : ν) (k' : κ) :
    (m.set k v).get k' = if k' = k then some v else m.get k' := by
  ext v'
  rw [get_eq_some, mem_entries_set]
  by_cases hkk : k' = k
  · simp [hkk, eq_comm]
  · simp [hkk, get_eq_some]

theorem get_delete (m : JsMap κ ν) (k k' : κ) :
    (m.delete k).get k' = if k' = k then none else m.get k' := by
  ext v'
  rw [get_eq_some, delete, List.mem_filter]
  by_cases hkk : k' = k
  · simp [hkk]
  · simp [hkk, get_eq_some]

/-! ## Lists under keys -/

section

variable {α : Type} {l : List α} {m : JsMap κ (List α)}

/-- The list under a key, `[]` if there is none. -/
def list (m : JsMap κ (List α)) (k : κ) : List α := (m.get k).getD []

/-- How many elements the lists have in all. -/
def size (m : JsMap κ (List α)) : ℕ := (m.entries.flatMap Prod.snd).length

/-- The list under a key, where an empty one is deleted. -/
def replace (m : JsMap κ (List α)) (k : κ) (l : List α) : JsMap κ (List α) :=
  if l.isEmpty then m.delete k else m.set k l

@[simp] theorem list_empty (k : κ) : (empty : JsMap κ (List α)).list k = [] := rfl

theorem list_set (m : JsMap κ (List α)) (k : κ) (l : List α) (k' : κ) :
    (m.set k l).list k' = if k' = k then l else m.list k' := by
  rw [list, get_set]
  split
  · rfl
  · rfl

theorem list_delete (m : JsMap κ (List α)) (k k' : κ) :
    (m.delete k).list k' = if k' = k then [] else m.list k' := by
  rw [list, get_delete]
  split
  · rfl
  · rfl

theorem list_replace (m : JsMap κ (List α)) (k : κ) (l : List α) (k' : κ) :
    (m.replace k l).list k' = if k' = k then l else m.list k' := by
  rw [replace]
  split
  · rename_i hl
    rw [list_delete, List.isEmpty_iff.1 hl]
  · exact list_set m k l k'

theorem list_of_mem_entries (h : (k, l) ∈ m.entries) : m.list k = l := by
  rw [list, get_eq_some.2 h]
  rfl

theorem size_delete (m : JsMap κ (List α)) (k : κ) :
    (m.delete k).size + (m.list k).length = m.size := by
  obtain ⟨entries, hnodup⟩ := m
  induction entries with
  | nil => rfl
  | cons e entries ih =>
    obtain ⟨hnotMem, hrest⟩ := List.nodup_cons.1 hnodup
    have ih := ih hrest
    simp only [size, delete, list, get] at ih ⊢
    by_cases hek : e.1 = k
    · have hfilter : entries.filter (fun e => e.1 ≠ k) = entries := by
        refine List.filter_eq_self.2 fun e' he' => decide_eq_true fun hk => hnotMem ?_
        rw [hek, ← hk]
        exact List.mem_map.2 ⟨e', he', rfl⟩
      rw [List.filter_cons_of_neg (by simp [hek]), hfilter, List.find?_cons_of_pos (by simp [hek])]
      simp only [Option.map_some, Option.getD_some, List.flatMap_cons, List.length_append]
      omega
    · rw [List.filter_cons_of_pos (by simp [hek]), List.find?_cons_of_neg (by simp [hek])]
      simp only [List.flatMap_cons, List.length_append]
      omega

theorem delete_set (m : JsMap κ (List α)) (k : κ) (l : List α) :
    ((m.set k l).delete k).entries = (m.delete k).entries := by
  simp only [delete, set]
  split
  · rw [overwrite, List.filter_map]
    have hcomp : ((fun e : κ × List α => decide (e.1 ≠ k)) ∘
        fun e => if e.1 = k then (e.1, l) else e) = fun e => decide (e.1 ≠ k) := by
      funext e
      rw [Function.comp_apply]
      split
      · rfl
      · rfl
    rw [hcomp]
    conv_rhs => rw [← List.map_id (m.entries.filter _)]
    refine List.map_congr_left fun e he => if_neg ?_
    exact of_decide_eq_true (List.mem_filter.1 he).2
  · rw [List.filter_append, List.filter_cons_of_neg (by simp), List.filter_nil, List.append_nil]

theorem size_set (m : JsMap κ (List α)) (k : κ) (l : List α) :
    (m.set k l).size + (m.list k).length = m.size + l.length := by
  have hset := size_delete (m.set k l) k
  have hdelete := size_delete m k
  rw [list_set, if_pos rfl] at hset
  rw [size, delete_set, ← size] at hset
  omega

theorem size_replace (m : JsMap κ (List α)) (k : κ) (l : List α) :
    (m.replace k l).size + (m.list k).length = m.size + l.length := by
  rw [replace]
  split
  · rename_i hl
    rw [List.isEmpty_iff.1 hl, List.length_nil, Nat.add_zero]
    exact size_delete m k
  · exact size_set m k l

end

end JsMap

end TsEthereum
