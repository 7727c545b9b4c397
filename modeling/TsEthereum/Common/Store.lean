import Mathlib.Data.List.Induction
import Mathlib.Data.Sigma.Basic
import Mathlib.Logic.Function.Basic

/-!
# Stores

A store holds a value of its own type under each key. A batch is a list of
writes; what it leaves under a key is read off the writes to that key
(`batch_of_notMem`, `batch_of_mem`). A cache stands before a store, and may
forget; it is coherent when what it holds is what the store holds.
-/

namespace TsEthereum

/-- What a store holds. -/
abbrev Store {τ : Type} (V : τ → Type) : Type := (t : τ) → Option (V t)

/-- A write: a value under a key, or `none` to delete it. -/
abbrev Write {τ : Type} (V : τ → Type) : Type := (t : τ) × Option (V t)

namespace Store

variable {τ : Type} {V : τ → Type} [DecidableEq τ]

/-- One write. -/
def apply (db : Store V) (op : Write V) : Store V := Function.update db op.1 op.2

/-- A batch: the writes in their order. -/
def batch (db : Store V) (ops : List (Write V)) : Store V := ops.foldl apply db

@[simp] theorem batch_nil (db : Store V) : db.batch [] = db := rfl

theorem batch_append (db : Store V) (ops ops' : List (Write V)) :
    db.batch (ops ++ ops') = (db.batch ops).batch ops' := List.foldl_append

theorem batch_concat (db : Store V) (ops : List (Write V)) (op : Write V) :
    db.batch (ops ++ [op]) = (db.batch ops).apply op := batch_append db ops [op]

theorem batch_of_notMem {db : Store V} {ops : List (Write V)} {t : τ}
    (h : ∀ v, (⟨t, v⟩ : Write V) ∉ ops) : db.batch ops t = db t := by
  induction ops using List.reverseRecOn with
  | nil => rfl
  | append_singleton ops op ih =>
    have hne : t ≠ op.1 := by
      rintro rfl
      exact h op.2 (List.mem_append_right _ (List.mem_singleton_self op))
    rw [batch_concat, apply, Function.update_of_ne hne]
    exact ih fun v hv => h v (List.mem_append_left _ hv)

theorem batch_of_mem {db : Store V} {ops : List (Write V)} {t : τ} {w : Option (V t)}
    (hall : ∀ v, (⟨t, v⟩ : Write V) ∈ ops → v = w) (hmem : (⟨t, w⟩ : Write V) ∈ ops) :
    db.batch ops t = w := by
  induction ops using List.reverseRecOn with
  | nil => cases hmem
  | append_singleton ops op ih =>
    rw [batch_concat, apply]
    rcases eq_or_ne t op.1 with rfl | hne
    · rw [Function.update_self]
      exact hall op.2 (List.mem_append_right _ (List.mem_singleton_self op))
    · rw [Function.update_of_ne hne]
      refine ih (fun v hv => hall v (List.mem_append_left _ hv)) ?_
      rcases List.mem_append.1 hmem with hmem | hmem
      · exact hmem
      · exact absurd (congrArg Sigma.fst (List.mem_singleton.1 hmem)) hne

theorem batch_cases (db : Store V) (ops : List (Write V)) (t : τ) :
    db.batch ops t = db t ∨ (⟨t, db.batch ops t⟩ : Write V) ∈ ops := by
  induction ops using List.reverseRecOn with
  | nil => exact .inl rfl
  | append_singleton ops op ih =>
    rw [batch_concat, apply]
    rcases eq_or_ne t op.1 with rfl | hne
    · rw [Function.update_self]
      exact .inr (List.mem_append_right _ (List.mem_singleton_self op))
    · rw [Function.update_of_ne hne]
      exact ih.imp_right (List.mem_append_left _)

end Store

/-! ## Caches -/

/-- **A cache of a store**, that may forget. `holds` is what a read would
find. -/
structure StoreCache {τ : Type} (V : τ → Type) where
  State : Type
  empty : State
  holds : State → Store V
  get : State → τ → State
  set : State → (t : τ) → V t → State
  delete : State → τ → State
  holds_empty : ∀ t, holds empty t = none
  holds_get : ∀ s t, holds (get s t) = holds s
  /-- A write may evict any other entry, and even its own. -/
  holds_set : ∀ s t v t' v', holds (set s t v) t' = some v' →
    (⟨t', v'⟩ : (t : τ) × V t) = ⟨t, v⟩ ∨ t' ≠ t ∧ holds s t' = some v'
  holds_delete : ∀ s t t' v', holds (delete s t) t' = some v' → t' ≠ t ∧ holds s t' = some v'

namespace StoreCache

variable {τ : Type} {V : τ → Type}

/-- The cache that forgets nothing. -/
def unbounded (V : τ → Type) [DecidableEq τ] : StoreCache V where
  State := Store V
  empty := fun _ => none
  holds s := s
  get s _ := s
  set s t v := Function.update s t (some v)
  delete s t := Function.update s t none
  holds_empty _ := rfl
  holds_get _ _ := rfl
  holds_set s t v t' v' h := by
    rcases eq_or_ne t' t with rfl | hne
    · rw [Function.update_self] at h
      rw [Option.some.inj h]
      exact .inl rfl
    · rw [Function.update_of_ne hne] at h
      exact .inr ⟨hne, h⟩
  holds_delete s t t' v' h := by
    rcases eq_or_ne t' t with rfl | hne
    · rw [Function.update_self] at h
      cases h
    · rw [Function.update_of_ne hne] at h
      exact ⟨hne, h⟩

variable {C : StoreCache V}

/-- **Coherence**: what the cache holds, the store holds. -/
def Coherent (C : StoreCache V) (s : C.State) (db : Store V) : Prop :=
  ∀ t v, C.holds s t = some v → db t = some v

theorem coherent_empty (db : Store V) : C.Coherent C.empty db := by
  intro t v h
  rw [C.holds_empty] at h
  cases h

theorem Coherent.get {s : C.State} {db : Store V} (h : C.Coherent s db) (t : τ) :
    C.Coherent (C.get s t) db := by
  intro t' v hv
  rw [C.holds_get] at hv
  exact h t' v hv

theorem Coherent.set {s : C.State} {db : Store V} (h : C.Coherent s db) {t : τ} {v : V t}
    (ht : db t = some v) : C.Coherent (C.set s t v) db := by
  intro t' v' hv
  rcases C.holds_set s t v t' v' hv with heq | ⟨-, hv⟩
  · cases heq
    exact ht
  · exact h t' v' hv

/-- A write to the cache, as a batch makes it. -/
def apply (C : StoreCache V) (s : C.State) (op : Write V) : C.State :=
  match op.2 with
  | some v => C.set s op.1 v
  | none => C.delete s op.1

theorem Coherent.apply [DecidableEq τ] {s : C.State} {db : Store V} (h : C.Coherent s db)
    (op : Write V) : C.Coherent (C.apply s op) (db.apply op) := by
  obtain ⟨t, w⟩ := op
  intro t' v' hv
  unfold Store.apply
  cases w with
  | some v =>
    rcases C.holds_set s t v t' v' hv with heq | ⟨hne, hv⟩
    · cases heq
      exact Function.update_self _ _ _
    · rw [Function.update_of_ne hne]
      exact h t' v' hv
  | none =>
    obtain ⟨hne, hv⟩ := C.holds_delete s t t' v' hv
    rw [Function.update_of_ne hne]
    exact h t' v' hv

theorem Coherent.apply_of_none [DecidableEq τ] {s : C.State} {db : Store V}
    (h : C.Coherent s db) {op : Write V} (hnone : C.holds s op.1 = none) :
    C.Coherent s (db.apply op) := by
  intro t v hv
  have hne : t ≠ op.1 := by
    rintro rfl
    rw [hnone] at hv
    cases hv
  rw [Store.apply, Function.update_of_ne hne]
  exact h t v hv

end StoreCache

end TsEthereum
