import Mathlib.Logic.Function.Basic
import Mathlib.Data.List.Infix
import Mathlib.Data.List.Basic

/-!
# Radix trees

A radix tree over an alphabet stores a map from strings to values: a leaf
holds the rest of its key, an extension a part all keys below it share, a
branch one child for each letter and the value of the key that ends there.

`lookup` reads a tree as the map it stores. `insert` writes to it:
`lookup_insert` holds of every tree, canonical or not. `prepend` puts a
string in front of every key, joining it with a leaf's or an extension's
own.
-/

namespace TsEthereum

universe u v

/-! ## Prefixes -/

section Prefix

variable {α : Type u} [DecidableEq α]

@[simp] theorem dropPrefix?_append (p r : List α) : (p ++ r).dropPrefix? p = some r :=
  List.dropPrefix?_append_of_beq r (by simp)

@[simp] theorem dropPrefix?_eq_some {p k r : List α} :
    k.dropPrefix? p = some r ↔ k = p ++ r := by
  simp [List.dropPrefix?_eq_some_iff]

theorem dropPrefix?_eq_none {p k : List α} : k.dropPrefix? p = none ↔ ¬ p <+: k := by
  constructor
  · rintro h ⟨r, rfl⟩
    simp at h
  · intro h
    rw [Option.eq_none_iff_forall_not_mem]
    intro r hr
    exact h ⟨r, (dropPrefix?_eq_some.1 hr).symm⟩

theorem dropPrefix?_append_eq_bind (p q k : List α) :
    k.dropPrefix? (p ++ q) = (k.dropPrefix? p).bind fun r => r.dropPrefix? q := by
  ext s
  rw [Option.bind_eq_some_iff]
  simp [List.append_assoc]

/-- **Where two strings part**: what they share, and what is left of each. -/
def divide : List α → List α → List α × List α × List α
  | a :: p, b :: k =>
    if a = b then
      let (m, p', k') := divide p k
      (a :: m, p', k')
    else ([], a :: p, b :: k)
  | p, k => ([], p, k)

/-- Two strings that do not start with the same letter. -/
def Apart (p k : List α) : Prop := ∀ a p' k', p = a :: p' → k ≠ a :: k'

theorem divide_spec (p k : List α) :
    p = (divide p k).1 ++ (divide p k).2.1 ∧ k = (divide p k).1 ++ (divide p k).2.2 ∧
      Apart (divide p k).2.1 (divide p k).2.2 := by
  fun_induction divide p k with
  | case1 p a k m p' k' h ih =>
    simp only [h] at ih
    obtain ⟨h₁, h₂, h₃⟩ := ih
    exact ⟨by rw [List.cons_append, ← h₁], by rw [List.cons_append, ← h₂], h₃⟩
  | case2 a p b k hab =>
    refine ⟨rfl, rfl, ?_⟩
    intro c p' k' hp hk
    obtain ⟨rfl, -⟩ := List.cons.inj hp
    exact hab (List.cons.inj hk).1.symm
  | case3 p k h =>
    refine ⟨rfl, rfl, ?_⟩
    intro c p' k' hp hk
    exact h c p' c k' hp hk

theorem divide_append {m p k : List α} (h : Apart p k) : divide (m ++ p) (m ++ k) = (m, p, k) := by
  induction m with
  | nil =>
    cases p with
    | nil => cases k <;> rfl
    | cons a p =>
      cases k with
      | nil => rfl
      | cons b k =>
        have hab : a ≠ b := fun hab => h a p k rfl (hab ▸ rfl)
        rw [List.nil_append, List.nil_append, divide, if_neg hab]
  | cons a m ih => simp [divide, ih]

end Prefix

/-- A radix tree over the letters `α` with values in `ν`. -/
inductive RadixTree (α : Type u) (ν : Type v) where
  | empty
  | leaf (path : List α) (value : ν)
  | extension (path : List α) (child : RadixTree α ν)
  | branch (children : α → RadixTree α ν) (value : Option ν)

namespace RadixTree

variable {α : Type u} {ν : Type v}

instance : Inhabited (RadixTree α ν) := ⟨empty⟩

/-- Nothing is stored. -/
def isEmpty : RadixTree α ν → Bool
  | empty => true
  | _ => false

/-- The node is a branch. -/
def isBranch : RadixTree α ν → Bool
  | branch _ _ => true
  | _ => false

@[simp] theorem isEmpty_iff {t : RadixTree α ν} : t.isEmpty = true ↔ t = empty := by
  cases t <;> simp [isEmpty]

instance (t : RadixTree α ν) : Decidable (t = empty) :=
  decidable_of_iff (t.isEmpty = true) isEmpty_iff

/-- A branch with no child and no value. -/
def bare : RadixTree α ν := branch (fun _ => empty) none

/-- `t` below a path, which may be empty. -/
def extend (p : List α) (t : RadixTree α ν) : RadixTree α ν :=
  match p with
  | [] => t
  | a :: p => extension (a :: p) t

/-- **A string in front of every key**, joined with a path that is there. -/
def prepend (p : List α) : RadixTree α ν → RadixTree α ν
  | empty => empty
  | leaf q v => leaf (p ++ q) v
  | extension q c => extension (p ++ q) c
  | branch cs v => extend p (branch cs v)

variable [DecidableEq α]

/-- **The value stored under a key.** -/
def lookup : RadixTree α ν → List α → Option ν
  | empty, _ => none
  | leaf p v, k => if k = p then some v else none
  | extension p c, k =>
    match k.dropPrefix? p with
    | some r => c.lookup r
    | none => none
  | branch _ v, [] => v
  | branch cs _, a :: k => (cs a).lookup k

/-- A key into a branch that has no child on the key's first letter. -/
def graft : RadixTree α ν → List α → ν → RadixTree α ν
  | branch cs _, [], v => branch cs (some v)
  | branch cs w, a :: k, v => branch (Function.update cs a (leaf k v)) w
  | t, _, _ => t

/-- A branch above what is left of an extension's path. -/
def stem : List α → RadixTree α ν → RadixTree α ν
  | [], c => c
  | a :: p, c => branch (Function.update (fun _ => empty) a (extend p c)) none

/-- **Writing a value**: down the key while the tree has it, and a new
branch where the key leaves a path. -/
def insert : RadixTree α ν → List α → ν → RadixTree α ν
  | empty, k, v => leaf k v
  | leaf p w, k, v =>
    if k = p then leaf p v
    else
      let (m, p', k') := divide p k
      extend m ((bare.graft p' w).graft k' v)
  | extension p c, k, v =>
    match k.dropPrefix? p with
    | some r => extension p (c.insert r v)
    | none =>
      let (m, p', k') := divide p k
      extend m ((stem p' c).graft k' v)
  | branch cs _, [], v => branch cs (some v)
  | branch cs w, a :: k, v => branch (Function.update cs a ((cs a).insert k v)) w

/-! ## What a tree stores -/

@[simp] theorem lookup_empty (k : List α) : (empty : RadixTree α ν).lookup k = none := rfl

@[simp] theorem lookup_leaf (p : List α) (v : ν) (k : List α) :
    (leaf p v).lookup k = if k = p then some v else none := rfl

@[simp] theorem lookup_extension (p : List α) (c : RadixTree α ν) (k : List α) :
    (extension p c).lookup k = (k.dropPrefix? p).bind c.lookup := by
  rw [lookup]
  cases k.dropPrefix? p <;> rfl

@[simp] theorem lookup_branch_nil (cs : α → RadixTree α ν) (v : Option ν) :
    (branch cs v).lookup [] = v := rfl

@[simp] theorem lookup_branch_cons (cs : α → RadixTree α ν) (v : Option ν) (a : α) (k : List α) :
    (branch cs v).lookup (a :: k) = (cs a).lookup k := rfl

theorem lookup_extend (p : List α) (t : RadixTree α ν) (k : List α) :
    (extend p t).lookup k = (k.dropPrefix? p).bind t.lookup := by
  cases p with
  | nil => simp [extend]
  | cons a p => exact lookup_extension _ t k

theorem lookup_prepend (p : List α) (t : RadixTree α ν) (k : List α) :
    (prepend p t).lookup k = (k.dropPrefix? p).bind t.lookup := by
  cases t with
  | empty => cases h : k.dropPrefix? p <;> simp [prepend]
  | leaf q v =>
    cases h : k.dropPrefix? p with
    | none =>
      have hk : k ≠ p ++ q := by
        rintro rfl
        simp at h
      simp [prepend, hk]
    | some r => simp [prepend, dropPrefix?_eq_some.1 h]
  | extension q c =>
    rw [prepend, lookup_extension, dropPrefix?_append_eq_bind, Option.bind_assoc]
    exact congrArg _ (funext fun r => (lookup_extension q c r).symm)
  | branch cs v => exact lookup_extend p _ k

/-! ## Writing -/

theorem lookup_graft {cs : α → RadixTree α ν} {w : Option ν} {k : List α}
    (h : ∀ a k', k = a :: k' → cs a = empty) (v : ν) :
    ((branch cs w).graft k v).lookup = Function.update (branch cs w).lookup k (some v) := by
  funext x
  cases k with
  | nil => cases x <;> simp [graft]
  | cons a k =>
    cases x with
    | nil => simp [graft]
    | cons b x =>
      rcases eq_or_ne b a with rfl | hb
      · simp [graft, Function.update_apply, h b k rfl]
      · simp [graft, hb]

theorem lookup_bare (k : List α) : (bare : RadixTree α ν).lookup k = none := by
  cases k <;> rfl

theorem lookup_stem (p : List α) (c : RadixTree α ν) (k : List α) :
    (stem p c).lookup k = (k.dropPrefix? p).bind c.lookup := by
  cases p with
  | nil => simp [stem]
  | cons a p =>
    cases k with
    | nil => simp [stem, List.dropPrefix?]
    | cons b k =>
      rcases eq_or_ne b a with rfl | hb
      · simp [stem, lookup_extend, List.dropPrefix?]
      · simp [stem, List.dropPrefix?, hb]

theorem lookup_extend_update {m k : List α} {t t' : RadixTree α ν} {v : ν}
    (h : t'.lookup = Function.update t.lookup k (some v)) :
    (extend m t').lookup = Function.update (extend m t).lookup (m ++ k) (some v) := by
  funext x
  rw [lookup_extend, h, Function.update_apply, lookup_extend]
  cases hx : x.dropPrefix? m with
  | none =>
    have hne : x ≠ m ++ k := by
      rintro rfl
      simp at hx
    simp [hne]
  | some r =>
    obtain rfl := dropPrefix?_eq_some.1 hx
    simp [Function.update_apply]

/-- Only a path that the key leaves ends in a branch that lacks the key's
next letter. -/
theorem lookup_graft_stem {p k : List α} (hp : p ≠ []) (h : Apart p k) (c : RadixTree α ν) (v : ν) :
    ((stem p c).graft k v).lookup = Function.update (stem p c).lookup k (some v) := by
  cases p with
  | nil => exact absurd rfl hp
  | cons a p =>
    refine lookup_graft ?_ v
    rintro b k' rfl
    have hb : b ≠ a := fun hb => h a p k' rfl (hb ▸ rfl)
    simp [hb]

theorem lookup_graft_bare {p k : List α} (hne : p ≠ k) (h : Apart p k) (w v : ν) :
    ((bare.graft p w).graft k v).lookup = Function.update (leaf p w).lookup k (some v) := by
  have hw : (bare.graft p w).lookup = (leaf p w).lookup := by
    rw [bare, lookup_graft (fun _ _ _ => rfl)]
    funext x
    rw [Function.update_apply]
    exact if_congr Iff.rfl rfl (lookup_bare x)
  rw [← hw]
  cases p with
  | nil => exact lookup_graft (fun _ _ _ => rfl) v
  | cons a p =>
    refine lookup_graft ?_ v
    rintro b k' rfl
    have hb : b ≠ a := fun hb => h a p k' rfl (hb ▸ rfl)
    simp [hb]

theorem lookup_insert (t : RadixTree α ν) (k : List α) (v : ν) :
    (t.insert k v).lookup = Function.update t.lookup k (some v) := by
  induction t generalizing k with
  | empty =>
    funext x
    rw [Function.update_apply]
    rfl
  | leaf p w =>
    rw [insert]
    split
    · next h =>
      subst h
      funext x
      by_cases hx : x = k <;> simp [hx]
    · next hne =>
      obtain ⟨hp, hk, hapart⟩ := divide_spec p k
      generalize divide p k = d at hp hk hapart
      obtain ⟨m, p', k'⟩ := d
      simp only at hp hk hapart
      subst hp hk
      have hne' : p' ≠ k' := fun h => hne (h ▸ rfl)
      have hleaf : (extend m (leaf p' w)).lookup = (leaf (m ++ p') w).lookup := by
        funext x
        rw [← prepend, lookup_prepend, lookup_extend]
      rw [← hleaf]
      exact lookup_extend_update (lookup_graft_bare hne' hapart w v)
  | extension p c ih =>
    rw [insert]
    split
    · next r h =>
      obtain rfl := dropPrefix?_eq_some.1 h
      funext x
      rw [lookup_extension, ih r, Function.update_apply]
      cases hx : x.dropPrefix? p with
      | none =>
        have hne : x ≠ p ++ r := by
          rintro rfl
          simp at hx
        simp [hne, hx]
      | some s =>
        obtain rfl := dropPrefix?_eq_some.1 hx
        simp [Function.update_apply]
    · next hnone =>
      rw [dropPrefix?_eq_none] at hnone
      obtain ⟨hp, hk, hapart⟩ := divide_spec p k
      generalize divide p k = d at hp hk hapart
      obtain ⟨m, p', k'⟩ := d
      simp only at hp hk hapart
      subst hp hk
      have hp' : p' ≠ [] := by
        rintro rfl
        exact hnone ⟨k', by simp⟩
      have hext : (extend m (stem p' c)).lookup = (extension (m ++ p') c).lookup := by
        funext x
        rw [lookup_extend, lookup_extension, dropPrefix?_append_eq_bind, Option.bind_assoc]
        exact congrArg _ (funext fun r => lookup_stem p' c r)
      rw [← hext]
      exact lookup_extend_update (lookup_graft_stem hp' hapart c v)
  | branch cs w ih =>
    funext x
    cases k with
    | nil => cases x <;> simp [insert]
    | cons a k =>
      cases x with
      | nil => simp [insert]
      | cons b x =>
        rcases eq_or_ne b a with rfl | hb
        · simp [insert, ih, Function.update_apply]
        · simp [insert, hb]

/-- Three keys into an empty tree; the first is a part of the second. -/
example : ((((empty : RadixTree ℕ ℕ).insert [1, 2] 7).insert [1, 2, 3] 8).insert [1, 4] 9).lookup
    [1, 2] = some 7 := by
  decide

end RadixTree

end TsEthereum
