import TsEthereum.Common.RadixTree.Canonical

/-!
# What stands below a node

`Below P t`: the property `P` holds of every proper subtree of `t`. Along a
descent it splits in three: what stands beside the way down, the nodes of
the way itself (`ancestors`), and what stands below its end.
-/

namespace TsEthereum

universe u v

namespace RadixTree

variable {α : Type u} {ν : Type v}

/-- **`P` of every proper subtree.** -/
def Below (P : RadixTree α ν → Prop) : RadixTree α ν → Prop
  | empty => True
  | leaf _ _ => True
  | extension _ c => P c ∧ c.Below P
  | branch cs _ => ∀ a, P (cs a) ∧ (cs a).Below P

theorem Below.mono {P Q : RadixTree α ν → Prop} (hPQ : ∀ t, P t → Q t) {t : RadixTree α ν}
    (h : t.Below P) : t.Below Q := by
  induction t with
  | empty => trivial
  | leaf p v => trivial
  | extension p c ih => exact ⟨hPQ c h.1, ih h.2⟩
  | branch cs v ih => exact fun a => ⟨hPQ (cs a) (h a).1, ih a (h a).2⟩

theorem Below.and {P Q : RadixTree α ν → Prop} {t : RadixTree α ν} (hP : t.Below P)
    (hQ : t.Below Q) : t.Below fun s => P s ∧ Q s := by
  induction t with
  | empty => trivial
  | leaf p v => trivial
  | extension p c ih => exact ⟨⟨hP.1, hQ.1⟩, ih hP.2 hQ.2⟩
  | branch cs v ih => exact fun a => ⟨⟨(hP a).1, (hQ a).1⟩, ih a (hP a).2 (hQ a).2⟩

variable [DecidableEq α]

/-- **`P` of every node on the way down a key**, the tree itself left out. -/
def Along (P : RadixTree α ν → Prop) : RadixTree α ν → List α → Prop
  | extension p c, k =>
    match k.dropPrefix? p with
    | some r => P c ∧ c.Along P r
    | none => True
  | branch cs _, a :: k => P (cs a) ∧ (cs a).Along P k
  | _, _ => True

theorem Along.mono {P Q : RadixTree α ν → Prop} (hPQ : ∀ t, P t → Q t) {t : RadixTree α ν}
    {k : List α} (h : t.Along P k) : t.Along Q k := by
  induction t generalizing k with
  | empty => trivial
  | leaf p v => trivial
  | extension p c ih =>
    unfold Along at h ⊢
    cases hk : k.dropPrefix? p with
    | none => trivial
    | some r =>
      rw [hk] at h
      exact ⟨hPQ c h.1, ih h.2⟩
  | branch cs v ih =>
    cases k with
    | nil => trivial
    | cons a k => exact ⟨hPQ (cs a) h.1, ih a h.2⟩

theorem Along.and {P Q : RadixTree α ν → Prop} {t : RadixTree α ν} {k : List α}
    (hP : t.Along P k) (hQ : t.Along Q k) : t.Along (fun s => P s ∧ Q s) k := by
  induction t generalizing k with
  | empty => trivial
  | leaf p v => trivial
  | extension p c ih =>
    unfold Along at hP hQ ⊢
    cases hk : k.dropPrefix? p with
    | none => trivial
    | some r =>
      rw [hk] at hP hQ
      exact ⟨⟨hP.1, hQ.1⟩, ih hP.2 hQ.2⟩
  | branch cs v ih =>
    cases k with
    | nil => trivial
    | cons a k => exact ⟨⟨hP.1, hQ.1⟩, ih a hP.2 hQ.2⟩

theorem Below.along {P : RadixTree α ν → Prop} {t : RadixTree α ν} (h : t.Below P) (k : List α) :
    t.Along P k := by
  induction t generalizing k with
  | empty => trivial
  | leaf p v => trivial
  | extension p c ih =>
    unfold Along
    cases k.dropPrefix? p with
    | none => trivial
    | some r => exact ⟨h.1, ih h.2 r⟩
  | branch cs v ih =>
    cases k with
    | nil => trivial
    | cons a k => exact ⟨(h a).1, ih a (h a).2 k⟩

namespace Frame

/-- **`P` of everything beside a step**, and below it. -/
def Beside (P : RadixTree α ν → Prop) : Frame α ν → Prop
  | extension _ => True
  | branch cs _ a => ∀ b, b ≠ a → P (cs b) ∧ (cs b).Below P

end Frame

namespace Frames

/-- **The nodes of the way down**, innermost first, over `t` at its end. -/
def ancestors : List (Frame α ν) → RadixTree α ν → List (RadixTree α ν)
  | [], _ => []
  | f :: fs, t => f.plug t :: ancestors fs (f.plug t)

@[simp] theorem ancestors_nil (t : RadixTree α ν) :
    ancestors ([] : List (Frame α ν)) t = [] := rfl

@[simp] theorem ancestors_cons (f : Frame α ν) (fs : List (Frame α ν)) (t : RadixTree α ν) :
    ancestors (f :: fs) t = f.plug t :: ancestors fs (f.plug t) := rfl

theorem getLast?_ancestors (fs : List (Frame α ν)) (t : RadixTree α ν) :
    (t :: ancestors fs t).getLast? = some (plug fs t) := by
  induction fs generalizing t with
  | nil => rfl
  | cons f fs ih =>
    rw [ancestors_cons, List.getLast?_cons_cons]
    exact ih (f.plug t)

theorem framePlug_ne_empty (f : Frame α ν) (t : RadixTree α ν) :
    f.plug t ≠ empty := by
  cases f <;> simp [Frame.plug]

theorem ne_empty_of_mem_ancestors {fs : List (Frame α ν)} {t s : RadixTree α ν}
    (h : s ∈ ancestors fs t) : s ≠ empty := by
  induction fs generalizing t with
  | nil => cases h
  | cons f fs ih =>
    rw [ancestors_cons, List.mem_cons] at h
    rcases h with rfl | h
    · exact framePlug_ne_empty f t
    · exact ih h

end Frames

open Frames

variable {P : RadixTree α ν → Prop}

theorem below_framePlug {f : Frame α ν} {t : RadixTree α ν} :
    (f.plug t).Below P ↔ f.Beside P ∧ P t ∧ t.Below P := by
  cases f with
  | extension p => simp [Frame.plug, Frame.Beside, Below]
  | branch cs v a =>
    simp only [Frame.plug, Frame.Beside, Below]
    constructor
    · intro h
      refine ⟨fun b hb => ?_, ?_⟩
      · have := h b
        rwa [Function.update_of_ne hb] at this
      · have := h a
        rwa [Function.update_self] at this
    · rintro ⟨hside, ht⟩ b
      rcases eq_or_ne b a with rfl | hb
      · rwa [Function.update_self]
      · rw [Function.update_of_ne hb]
        exact hside b hb

/-- **Everything below a tree**: beside a way down, below its end, and the
nodes of the way other than the tree itself. -/
theorem below_plug {fs : List (Frame α ν)} {t : RadixTree α ν} :
    (plug fs t).Below P ↔ (∀ f ∈ fs, f.Beside P) ∧ t.Below P ∧
      ∀ s ∈ (t :: ancestors fs t).dropLast, P s := by
  induction fs generalizing t with
  | nil => simp
  | cons f fs ih =>
    rw [plug_cons, ih, below_framePlug, ancestors_cons, List.dropLast_cons_cons]
    simp only [List.forall_mem_cons]
    tauto

theorem Along.of_plug {f : Frame α ν} {fs : List (Frame α ν)} {t : RadixTree α ν} {k : List α}
    (h : (plug (f :: fs) t).Along P (path (f :: fs) ++ k)) : P t ∧ t.Along P k := by
  induction fs generalizing f t k with
  | nil =>
    cases f with
    | extension p => simpa [Along, Frame.plug, Frame.path] using h
    | branch cs v a => simpa [Along, Frame.plug, Frame.path] using h
  | cons g fs ih =>
    rw [path_cons, List.append_assoc, plug_cons] at h
    obtain ⟨-, hf⟩ := ih h
    cases f with
    | extension p => simpa [Along, Frame.plug, Frame.path] using hf
    | branch cs v a => simpa [Along, Frame.plug, Frame.path] using hf

end RadixTree

end TsEthereum
