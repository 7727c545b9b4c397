import TsEthereum.Common.RadixTree.Frames
import Mathlib.Data.Fintype.Basic
import Mathlib.Data.Finset.Card

/-!
# The shape of a radix tree

In every tree here an extension has a path and stands above a branch. What
is asked of a branch differs: nothing, a value or two children, two ways
on. `Shaped R` asks for `R` at every branch; where `R` is a `ShapeRule`,
writing a value and putting a subtree back keep the shape.
-/

namespace TsEthereum

universe u v

namespace RadixTree

variable {α : Type u} {ν : Type v}

/-- **Extensions have a path and stand above branches, and `R` holds of every
branch.** -/
def Shaped (R : (α → RadixTree α ν) → Option ν → Prop) : RadixTree α ν → Prop
  | empty => True
  | leaf _ _ => True
  | extension p c => p ≠ [] ∧ c.isBranch ∧ c.Shaped R
  | branch cs v => R cs v ∧ ∀ a, (cs a).Shaped R

theorem Shaped.mono {R R' : (α → RadixTree α ν) → Option ν → Prop}
    (hR : ∀ cs v, R cs v → R' cs v) {t : RadixTree α ν} (h : t.Shaped R) : t.Shaped R' := by
  induction t with
  | empty => trivial
  | leaf p v => trivial
  | extension p c ih => exact ⟨h.1, h.2.1, ih h.2.2⟩
  | branch cs v ih => exact ⟨hR cs v h.1, fun a => ih a (h.2 a)⟩

/-! ## The ways on from a branch -/

section Ways

variable [Fintype α]

/-- The letters a branch has a child on. -/
def letters (cs : α → RadixTree α ν) : Finset α := Finset.univ.filter fun a => cs a ≠ empty

@[simp] theorem mem_letters {cs : α → RadixTree α ν} {a : α} : a ∈ letters cs ↔ cs a ≠ empty := by
  simp [letters]

/-- The ways on from a branch: its children, and its own value. -/
def ways (cs : α → RadixTree α ν) (v : Option ν) : ℕ :=
  (letters cs).card + if v.isSome then 1 else 0

theorem ways_le_ways_some (cs : α → RadixTree α ν) (v : Option ν) (w : ν) :
    ways cs v ≤ ways cs (some w) := by
  cases v <;> simp [ways]

theorem exists_two_ways {cs : α → RadixTree α ν} {v : Option ν} (h : 2 ≤ ways cs v) :
    (v.isSome ∧ ∃ a, cs a ≠ empty) ∨ ∃ a b, a ≠ b ∧ cs a ≠ empty ∧ cs b ≠ empty := by
  cases v with
  | none =>
    have hcard : 2 ≤ (letters cs).card := by simpa [ways] using h
    obtain ⟨a, ha, b, hb, hab⟩ := Finset.one_lt_card.1 hcard
    exact .inr ⟨a, b, hab, mem_letters.1 ha, mem_letters.1 hb⟩
  | some w =>
    have hpos : 0 < (letters cs).card := by
      simp only [ways, Option.isSome_some, if_true] at h
      omega
    obtain ⟨a, ha⟩ := Finset.card_pos.1 hpos
    exact .inl ⟨rfl, a, mem_letters.1 ha⟩

variable [DecidableEq α]

theorem letters_update_of_ne (cs : α → RadixTree α ν) (a : α) {t : RadixTree α ν} (h : t ≠ empty) :
    letters (Function.update cs a t) = Insert.insert a (letters cs) := by
  ext b
  rcases eq_or_ne b a with rfl | hb
  · simp [h]
  · simp [hb]

theorem letters_update_empty (cs : α → RadixTree α ν) (a : α) :
    letters (Function.update cs a empty) = (letters cs).erase a := by
  ext b
  rcases eq_or_ne b a with rfl | hb
  · simp
  · simp [hb]

theorem ways_le_ways_update (cs : α → RadixTree α ν) (v : Option ν) (a : α) {t : RadixTree α ν}
    (h : t ≠ empty) : ways cs v ≤ ways (Function.update cs a t) v := by
  have hle := Finset.card_le_card (Finset.subset_insert a (letters cs))
  rw [ways, ways, letters_update_of_ne cs a h]
  omega

theorem ways_update_of_empty {cs : α → RadixTree α ν} {a : α} (ha : cs a = empty) (v : Option ν)
    {t : RadixTree α ν} (h : t ≠ empty) : ways (Function.update cs a t) v = ways cs v + 1 := by
  have hmem : a ∉ letters cs := by simp [ha]
  rw [ways, ways, letters_update_of_ne cs a h, Finset.card_insert_of_notMem hmem]
  omega

/-- **What may be asked of branches**: a value or a child more keeps it, and
two ways on are enough. -/
structure ShapeRule (R : (α → RadixTree α ν) → Option ν → Prop) : Prop where
  value : ∀ {cs v} (w : ν), R cs v → R cs (some w)
  child : ∀ {cs v a t}, t ≠ empty → R cs v → R (Function.update cs a t) v
  two : ∀ {cs v}, 2 ≤ ways cs v → R cs v

end Ways

/-! ## Joining keeps the shape -/

variable {R : (α → RadixTree α ν) → Option ν → Prop}

theorem extend_ne_empty {p : List α} {t : RadixTree α ν} (h : t ≠ empty) : extend p t ≠ empty := by
  cases p with
  | nil => exact h
  | cons a p => simp [extend]

theorem prepend_ne_empty {p : List α} {t : RadixTree α ν} (h : t ≠ empty) :
    prepend p t ≠ empty := by
  cases t with
  | empty => exact absurd rfl h
  | branch cs v => exact extend_ne_empty h
  | _ => simp [prepend]

theorem Shaped.extend {p : List α} {t : RadixTree α ν} (h : t.Shaped R) (hb : t.isBranch) :
    (extend p t).Shaped R := by
  cases p with
  | nil => exact h
  | cons a p => exact ⟨List.cons_ne_nil a p, hb, h⟩

theorem Shaped.prepend {p : List α} {t : RadixTree α ν} (h : t.Shaped R) :
    (prepend p t).Shaped R := by
  cases t with
  | empty => trivial
  | leaf q v => trivial
  | extension q c => exact ⟨by simp [h.1], h.2⟩
  | branch cs v => exact h.extend rfl

/-! ## Writing keeps the shape -/

variable [DecidableEq α]

theorem insert_ne_empty (t : RadixTree α ν) (k : List α) (v : ν) : t.insert k v ≠ empty := by
  intro he
  have hk := congrFun (lookup_insert t k v) k
  rw [he] at hk
  simp at hk

theorem isBranch_graft {t : RadixTree α ν} (h : t.isBranch) (k : List α) (v : ν) :
    (t.graft k v).isBranch := by
  cases t with
  | branch cs w => cases k <;> rfl
  | _ => cases h

theorem isBranch_insert {t : RadixTree α ν} (h : t.isBranch) (k : List α) (v : ν) :
    (t.insert k v).isBranch := by
  cases t with
  | branch cs w => cases k <;> rfl
  | _ => cases h

/-- A property of trees holds of every child when it holds of the changed
one. -/
theorem forall_update {P : RadixTree α ν → Prop} {cs : α → RadixTree α ν} {a : α}
    {t : RadixTree α ν} (ht : P t) (h : ∀ b, P (cs b)) (b : α) : P (Function.update cs a t b) := by
  rcases eq_or_ne b a with rfl | hb
  · rwa [Function.update_self]
  · rw [Function.update_of_ne hb]
    exact h b

/-- What a path leaves after the part a key shares is not empty, unless the
key goes on below it. -/
theorem divide_ne_nil {p k : List α} (h : ¬ p <+: k) : (divide p k).2.1 ≠ [] := by
  obtain ⟨hp, hk, -⟩ := divide_spec p k
  intro hnil
  rw [hnil, List.append_nil] at hp
  exact h ⟨(divide p k).2.2, by rw [hp.symm] at hk; exact hk.symm⟩

theorem update_eq_empty_of_apart {a : α} {p k : List α} (h : Apart (a :: p) k) (t : RadixTree α ν)
    (b : α) (k' : List α) (hk : k = b :: k') :
    Function.update (fun _ => empty) a t b = (empty : RadixTree α ν) := by
  have hb : b ≠ a := by
    rintro rfl
    exact h b p k' rfl hk
  rw [Function.update_of_ne hb]

theorem shaped_single (a : α) {t : RadixTree α ν} (h : t.Shaped R) (b : α) :
    (Function.update (fun _ => (empty : RadixTree α ν)) a t b).Shaped R := by
  have hempty : ∀ _ : α, (empty : RadixTree α ν).Shaped R := fun _ => trivial
  exact forall_update h hempty b

section Insert

variable [Fintype α]

theorem one_le_ways_update (a : α) {t : RadixTree α ν} (h : t ≠ empty) (w : Option ν) :
    1 ≤ ways (Function.update (fun _ => empty) a t) w := by
  rw [ways_update_of_empty rfl w h]
  omega

theorem Shaped.graft (hR : ShapeRule R) {cs : α → RadixTree α ν} {w : Option ν}
    (h : ∀ a, (cs a).Shaped R) {k : List α} (hk : ∀ a k', k = a :: k' → cs a = empty)
    (hw : k = [] → w = none) (hone : 1 ≤ ways cs w) (v : ν) : ((branch cs w).graft k v).Shaped R := by
  cases k with
  | nil =>
    refine ⟨hR.two ?_, h⟩
    rw [hw rfl] at hone
    simp only [ways, Option.isSome_none, Option.isSome_some, if_true] at hone ⊢
    simpa using hone
  | cons a k =>
    have hleaf : (leaf k v : RadixTree α ν).Shaped R := trivial
    refine ⟨hR.two ?_, forall_update hleaf h⟩
    rw [ways_update_of_empty (hk a k rfl) w (by simp)]
    omega

/-- **Writing keeps the shape**, by induction on the tree: a new branch has
two ways on, the path's and the key's. -/
theorem Shaped.insert (hR : ShapeRule R) {t : RadixTree α ν} (h : t.Shaped R) (k : List α) (v : ν) :
    (t.insert k v).Shaped R := by
  induction t generalizing k with
  | empty => trivial
  | leaf p w =>
    rw [RadixTree.insert]
    split
    · trivial
    · next hne =>
      obtain ⟨hp, hk, hapart⟩ := divide_spec p k
      generalize divide p k = d at hp hk hapart
      obtain ⟨m, p', k'⟩ := d
      simp only at hp hk hapart
      refine Shaped.extend ?_ (isBranch_graft (isBranch_graft rfl _ w) _ v)
      cases p' with
      | nil =>
        have hbare : ∀ _ : α, (empty : RadixTree α ν).Shaped R := fun _ => trivial
        refine Shaped.graft hR hbare (fun _ _ _ => rfl) ?_ ?_ v
        · rintro rfl
          exact absurd (hk.trans hp.symm) hne
        · simp [ways]
      | cons a p' =>
        have hleaf : (leaf p' w : RadixTree α ν).Shaped R := trivial
        exact Shaped.graft hR (shaped_single a hleaf) (update_eq_empty_of_apart hapart _)
          (fun _ => rfl) (one_le_ways_update a (by simp) _) v
  | extension p c ih =>
    rw [RadixTree.insert]
    split
    · exact ⟨h.1, isBranch_insert h.2.1 _ v, ih h.2.2 _⟩
    · next hnone =>
      have hne := divide_ne_nil (dropPrefix?_eq_none.1 hnone)
      obtain ⟨-, -, hapart⟩ := divide_spec p k
      generalize divide p k = d at hne hapart
      obtain ⟨m, p', k'⟩ := d
      simp only at hne hapart
      cases p' with
      | nil => exact absurd rfl hne
      | cons a p' =>
        refine Shaped.extend ?_ (isBranch_graft rfl _ v)
        have hc : c ≠ empty := by
          rintro rfl
          cases h.2.1
        exact Shaped.graft hR (shaped_single a (h.2.2.extend h.2.1))
          (update_eq_empty_of_apart hapart _) (fun _ => rfl)
          (one_le_ways_update a (extend_ne_empty hc) _) v
  | branch cs w ih =>
    cases k with
    | nil => exact ⟨hR.value v h.1, h.2⟩
    | cons a k =>
      exact ⟨hR.child (insert_ne_empty (cs a) k v) h.1, forall_update (ih a (h.2 a) k) h.2⟩

end Insert

/-! ## The place of a subtree -/

open Frames

theorem Shaped.of_plug {fs : List (Frame α ν)} {t : RadixTree α ν} (h : (plug fs t).Shaped R) :
    t.Shaped R := by
  induction fs generalizing t with
  | nil => exact h
  | cons f fs ih =>
    have hf := ih h
    cases f with
    | extension p => exact hf.2.2
    | branch cs v a =>
      have ha := hf.2 a
      rwa [Function.update_self] at ha

theorem Shaped.isBranch_of_plug {p : List α} {fs : List (Frame α ν)} {t : RadixTree α ν}
    (h : (plug (.extension p :: fs) t).Shaped R) : t.isBranch :=
  (Shaped.of_plug (show (plug fs (.extension p t)).Shaped R from h)).2.1

variable [Fintype α]

/-- **What takes the place of a subtree** keeps the shape: it must not be
empty, and below an extension it must be a branch. -/
theorem Shaped.plug (hR : ShapeRule R) {fs : List (Frame α ν)} {t t' : RadixTree α ν}
    (h : (Frames.plug fs t).Shaped R) (ht' : t'.Shaped R) (hne : t' ≠ empty)
    (hb : ∀ p fs', fs = .extension p :: fs' → t'.isBranch) : (Frames.plug fs t').Shaped R := by
  induction fs generalizing t t' with
  | nil => exact ht'
  | cons f fs ih =>
    have hf := Shaped.of_plug (show (Frames.plug fs (f.plug t)).Shaped R from h)
    refine ih h ?_ ?_ ?_
    · cases f with
      | extension p => exact ⟨hf.1, hb p fs rfl, ht'⟩
      | branch cs v a =>
        have hrule := hR.child (a := a) hne hf.1
        have hupd := forall_update (P := Shaped R) (a := a) ht' hf.2
        simp only [Function.update_idem] at hrule hupd
        exact ⟨hrule, hupd⟩
    · cases f <;> simp [Frame.plug]
    · rintro p fs' rfl
      have hbr := Shaped.isBranch_of_plug (t := f.plug t) h
      cases f with
      | extension q => cases hbr
      | branch cs v a => rfl

theorem Shaped.rejoin (hR : ShapeRule R) {fs : List (Frame α ν)} {t t' : RadixTree α ν}
    (h : (Frames.plug fs t).Shaped R) (ht' : t'.Shaped R) (hne : t' ≠ empty) :
    (Frames.rejoin fs t').Shaped R := by
  match fs with
  | [] => exact ht'
  | .branch cs v a :: fs => exact h.plug hR ht' hne fun p fs' hfs => by simp at hfs
  | .extension p :: fs =>
    refine Shaped.plug hR (t := .extension p t) h ht'.prepend (prepend_ne_empty hne) ?_
    rintro q fs' rfl
    cases Shaped.isBranch_of_plug (t := .extension p t) h

end RadixTree

end TsEthereum
