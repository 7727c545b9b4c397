import TsEthereum.Common.JsMap
import Mathlib.Data.List.Perm.Basic

/-!
# Indices by several keys

Items with any number of keys each, and a `Map` from the keys to the items.
`Indexed` says that the map has exactly the keys of the items and that no key is
one of two; it is kept when an item is put in under all its keys, none of them in
use (`Indexed.add`), and when an item is taken out with all its keys
(`Indexed.remove`).
-/

namespace TsEthereum

variable {κ α : Type} [DecidableEq κ]

namespace JsMap

/-- `set`, of each of some keys. -/
def setAll (m : JsMap κ α) (keys : List κ) (a : α) : JsMap κ α :=
  keys.foldl (fun m key => m.set key a) m

/-- `delete`, of each of some keys. -/
def deleteAll (m : JsMap κ α) (keys : List κ) : JsMap κ α :=
  keys.foldl (fun m key => m.delete key) m

theorem get_setAll (m : JsMap κ α) (keys : List κ) (a : α) (k : κ) :
    (m.setAll keys a).get k = if k ∈ keys then some a else m.get k := by
  induction keys generalizing m with
  | nil => simp [setAll]
  | cons key keys ih =>
    have hstep : m.setAll (key :: keys) a = (m.set key a).setAll keys a := rfl
    rw [hstep, ih, get_set]
    by_cases hk : k ∈ keys
    · simp [hk]
    · by_cases hkey : k = key
      · simp [hkey]
      · simp [hk, hkey]

theorem get_deleteAll (m : JsMap κ α) (keys : List κ) (k : κ) :
    (m.deleteAll keys).get k = if k ∈ keys then none else m.get k := by
  induction keys generalizing m with
  | nil => simp [deleteAll]
  | cons key keys ih =>
    have hstep : m.deleteAll (key :: keys) = (m.delete key).deleteAll keys := rfl
    rw [hstep, ih, get_delete]
    by_cases hk : k ∈ keys
    · simp [hk]
    · by_cases hkey : k = key
      · simp [hkey]
      · simp [hk, hkey]

end JsMap

/-- **The map has the keys of the items**, each of one item and once. -/
structure Indexed (keys : α → List κ) (m : JsMap κ α) (items : List α) : Prop where
  nodup : (items.flatMap keys).Nodup
  get : ∀ k a, m.get k = some a ↔ a ∈ items ∧ k ∈ keys a

variable {keys : α → List κ} {m : JsMap κ α} {items items' : List α} {a b : α} {k : κ}

theorem indexed_empty : Indexed keys (JsMap.empty : JsMap κ α) [] :=
  ⟨List.nodup_nil, fun k a => by simp⟩

namespace Indexed

theorem add (h : Indexed keys m items) (hnodup : (keys a).Nodup)
    (hnew : ∀ k ∈ keys a, m.get k = none) (hitems : items'.Perm (a :: items)) :
    Indexed keys (m.setAll (keys a) a) items' := by
  -- no item there before has a key of the new one
  have hfresh {b : α} {k : κ} (hb : b ∈ items) (hk : k ∈ keys b) : k ∉ keys a := by
    intro hka
    have hget := (h.get k b).2 ⟨hb, hk⟩
    rw [hnew k hka] at hget
    cases hget
  refine ⟨?_, fun k b => ?_⟩
  · rw [(hitems.flatMap_right keys).nodup_iff, List.flatMap_cons]
    refine List.nodup_append.2 ⟨hnodup, h.nodup, fun k hk k' hk' hkk => ?_⟩
    obtain ⟨b, hb, hkb⟩ := List.mem_flatMap.1 hk'
    exact hfresh hb hkb (hkk ▸ hk)
  · rw [JsMap.get_setAll, hitems.mem_iff, List.mem_cons]
    split
    · rename_i hk
      constructor
      · intro heq
        cases heq
        exact ⟨.inl rfl, hk⟩
      · rintro ⟨rfl | hb, hkb⟩
        · rfl
        · exact absurd hk (hfresh hb hkb)
    · rename_i hk
      rw [h.get]
      constructor
      · rintro ⟨hb, hkb⟩
        exact ⟨.inr hb, hkb⟩
      · rintro ⟨rfl | hb, hkb⟩
        · exact absurd hkb hk
        · exact ⟨hb, hkb⟩

theorem remove (h : Indexed keys m items) (hitems : items.Perm (a :: items')) :
    Indexed keys (m.deleteAll (keys a)) items' := by
  have hnodup := h.nodup
  rw [(hitems.flatMap_right keys).nodup_iff, List.flatMap_cons] at hnodup
  obtain ⟨-, hrest, hdisjoint⟩ := List.nodup_append.1 hnodup
  refine ⟨hrest, fun k b => ?_⟩
  rw [JsMap.get_deleteAll]
  split
  · rename_i hk
    constructor
    · intro heq
      cases heq
    · rintro ⟨hb, hkb⟩
      exact absurd rfl (hdisjoint k hk k (List.mem_flatMap.2 ⟨b, hb, hkb⟩))
  · rename_i hk
    rw [h.get, hitems.mem_iff, List.mem_cons]
    constructor
    · rintro ⟨rfl | hb, hkb⟩
      · exact absurd hkb hk
      · exact ⟨hb, hkb⟩
    · rintro ⟨hb, hkb⟩
      exact ⟨.inr hb, hkb⟩

theorem perm (h : Indexed keys m items) (hitems : items'.Perm items) : Indexed keys m items' :=
  ⟨(hitems.flatMap_right keys).nodup_iff.2 h.nodup, fun k a => by rw [h.get, hitems.mem_iff]⟩

theorem nodup_map {β : Type} (h : Indexed keys m items) (f : α → β) (key : β → κ)
    (hkey : ∀ a ∈ items, key (f a) ∈ keys a) : (items.map f).Nodup := by
  obtain ⟨-, hpairs⟩ := List.nodup_flatMap.1 h.nodup
  refine List.pairwise_map.2 (hpairs.imp_of_mem fun ha hb hdisjoint heq => ?_)
  exact hdisjoint (hkey _ ha) (heq ▸ hkey _ hb)

end Indexed

end TsEthereum
