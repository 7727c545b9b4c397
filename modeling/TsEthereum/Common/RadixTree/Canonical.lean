import TsEthereum.Common.RadixTree.Shape

/-!
# Canonical radix trees

A tree is well formed when it has the shape with nothing asked of branches,
live when a branch has a value or two children, and canonical when a branch
has two ways on, a child or its own value each. Every live tree but the
empty one stores something, and a canonical tree is determined by the map
it stores: `Canonical.eq_of_lookup`.
-/

namespace TsEthereum

universe u v

namespace RadixTree

variable {α : Type u} {ν : Type v}

/-- Every extension has a path and stands above a branch. -/
abbrev WellFormed (t : RadixTree α ν) : Prop := t.Shaped fun _ _ => True

variable [Fintype α]

/-- **Well formed, and every branch has a value or two children.** -/
abbrev Live (t : RadixTree α ν) : Prop := t.Shaped fun cs v => v.isSome ∨ 2 ≤ (letters cs).card

/-- **Well formed, and every branch has two ways on.** -/
abbrev Canonical (t : RadixTree α ν) : Prop := t.Shaped fun cs v => 2 ≤ ways cs v

theorem Live.wellFormed {t : RadixTree α ν} (h : t.Live) : t.WellFormed := h.mono fun _ _ _ => trivial

theorem Canonical.live {t : RadixTree α ν} (h : t.Canonical) : t.Live := by
  refine h.mono fun cs v hways => ?_
  cases v with
  | none => exact .inr (by simpa [ways] using hways)
  | some v => exact .inl rfl

variable [DecidableEq α]

theorem liveRule :
    ShapeRule fun (cs : α → RadixTree α ν) v => v.isSome ∨ 2 ≤ (letters cs).card := by
  refine ⟨fun _ _ => .inl rfl, fun {cs v a t} ht h => h.imp id fun hcard => ?_, fun {cs v} h => ?_⟩
  · rw [letters_update_of_ne cs a ht]
    exact hcard.trans (Finset.card_le_card (Finset.subset_insert a (letters cs)))
  · cases v with
    | none => exact .inr (by simpa [ways] using h)
    | some v => exact .inl rfl

theorem canonicalRule : ShapeRule fun (cs : α → RadixTree α ν) v => 2 ≤ ways cs v :=
  ⟨fun w h => h.trans (ways_le_ways_some _ _ w), fun ht h => h.trans (ways_le_ways_update _ _ _ ht),
    fun h => h⟩

/-! ## A canonical tree is determined by its map -/

omit [DecidableEq α] [Fintype α] in
theorem prefix_of_apart {q p k k' : List α} (h : q <+: p ++ k) (h' : q <+: p ++ k')
    (hne : k ≠ k') (hapart : Apart k k') : q <+: p := by
  induction p generalizing q with
  | nil =>
    cases q with
    | nil => exact List.nil_prefix
    | cons a q =>
      obtain ⟨r, rfl⟩ := h
      obtain ⟨r', rfl⟩ := h'
      exact absurd rfl (hapart a (q ++ r) (q ++ r') rfl)
  | cons a p ih =>
    cases q with
    | nil => exact List.nil_prefix
    | cons b q =>
      rw [List.cons_append, List.cons_prefix_cons] at h h'
      rw [List.cons_prefix_cons]
      exact ⟨h.1, ih h.2 h'.2⟩

theorem Live.exists_lookup {t : RadixTree α ν} (h : t.Live) (hne : t ≠ empty) :
    ∃ k v, t.lookup k = some v := by
  induction t with
  | empty => exact absurd rfl hne
  | leaf p v => exact ⟨p, v, by simp⟩
  | extension p c ih =>
    have hc : c ≠ empty := by
      rintro rfl
      cases h.2.1
    obtain ⟨k, v, hk⟩ := ih h.2.2 hc
    exact ⟨p ++ k, v, by simpa using hk⟩
  | branch cs w ih =>
    rcases h.1 with hw | hcard
    · obtain ⟨v, rfl⟩ := Option.isSome_iff_exists.1 hw
      exact ⟨[], v, rfl⟩
    · obtain ⟨a, ha⟩ := Finset.card_pos.1 (show 0 < (letters cs).card by omega)
      obtain ⟨k, v, hk⟩ := ih a (h.2 a) (mem_letters.1 ha)
      exact ⟨a :: k, v, hk⟩

theorem Canonical.exists_lookup {t : RadixTree α ν} (h : t.Canonical) (hne : t ≠ empty) :
    ∃ k v, t.lookup k = some v := h.live.exists_lookup hne

theorem Canonical.exists_apart {cs : α → RadixTree α ν} {w : Option ν}
    (h : (branch cs w).Canonical) :
    ∃ k k' v v', k ≠ k' ∧ Apart k k' ∧ (branch cs w).lookup k = some v ∧
      (branch cs w).lookup k' = some v' := by
  rcases exists_two_ways h.1 with ⟨hw, a, ha⟩ | ⟨a, b, hab, ha, hb⟩
  · obtain ⟨v, rfl⟩ := Option.isSome_iff_exists.1 hw
    obtain ⟨k, v', hk⟩ := Canonical.exists_lookup (h.2 a) ha
    exact ⟨[], a :: k, v, v', by simp, fun _ _ _ hnil => by simp at hnil, rfl, hk⟩
  · obtain ⟨k, v, hk⟩ := Canonical.exists_lookup (h.2 a) ha
    obtain ⟨k', v', hk'⟩ := Canonical.exists_lookup (h.2 b) hb
    refine ⟨a :: k, b :: k', v, v', by simp [hab], ?_, hk, hk'⟩
    intro c p p' hp hp'
    exact hab ((List.cons.inj hp).1.trans (List.cons.inj hp').1.symm)

omit [Fintype α] in
theorem prefix_of_lookup_extension {p k : List α} {c : RadixTree α ν} {v : ν}
    (h : (extension p c).lookup k = some v) : p <+: k := by
  rw [lookup_extension, Option.bind_eq_some_iff] at h
  obtain ⟨r, hr, -⟩ := h
  exact ⟨r, (dropPrefix?_eq_some.1 hr).symm⟩

theorem Canonical.exists_part {t : RadixTree α ν} (h : t.Canonical)
    (ht : ∀ p v, t ≠ leaf p v) (hne : t ≠ empty) :
    ∃ p k k' v v', k ≠ k' ∧ Apart k k' ∧ t.lookup (p ++ k) = some v ∧
      t.lookup (p ++ k') = some v' ∧ (∀ q c, t = extension q c → p = q) ∧
      (t.isBranch → p = []) := by
  cases t with
  | empty => exact absurd rfl hne
  | leaf p v => exact absurd rfl (ht p v)
  | branch cs w =>
    obtain ⟨k, k', v, v', hkk', hapart, hk, hk'⟩ := h.exists_apart
    exact ⟨[], k, k', v, v', hkk', hapart, hk, hk', by simp, fun _ => rfl⟩
  | extension p c =>
    cases c with
    | branch cs w =>
      obtain ⟨k, k', v, v', hkk', hapart, hk, hk'⟩ := Canonical.exists_apart h.2.2
      refine ⟨p, k, k', v, v', hkk', hapart, by simpa using hk, by simpa using hk', ?_, ?_⟩
      · rintro q c heq
        exact (extension.inj heq).1
      · rintro ⟨⟩
    | _ => cases h.2.1

theorem Canonical.ne_of_lookup_leaf {t : RadixTree α ν} (h : t.Canonical) {p : List α} {v : ν}
    (ht : ∀ p v, t ≠ leaf p v) : t.lookup ≠ (leaf p v).lookup := by
  intro hl
  have hp : t.lookup p = some v := by rw [hl]; simp
  have hne : t ≠ empty := by
    rintro rfl
    simp at hp
  obtain ⟨q, k, k', w, w', hkk', -, hk, hk', -⟩ := h.exists_part ht hne
  rw [hl, lookup_leaf] at hk hk'
  have hk₁ : q ++ k = p := by
    by_contra hq
    simp [hq] at hk
  have hk₂ : q ++ k' = p := by
    by_contra hq
    simp [hq] at hk'
  exact hkk' (List.append_cancel_left (hk₁.trans hk₂.symm))

/-- The path of an extension is a prefix of every other's that stores the
same map. -/
theorem Canonical.prefix_path {t : RadixTree α ν} (h : t.Canonical) {q : List α}
    {c : RadixTree α ν} (hl : t.lookup = (extension q c).lookup) (ht : ∀ p v, t ≠ leaf p v)
    (hne : t ≠ empty) : (∀ p d, t = extension p d → q <+: p) ∧ (t.isBranch → q = []) := by
  obtain ⟨p, k, k', v, v', hkk', hapart, hk, hk', hext, hbr⟩ := h.exists_part ht hne
  rw [hl] at hk hk'
  have hq := prefix_of_apart (prefix_of_lookup_extension hk) (prefix_of_lookup_extension hk')
    hkk' hapart
  refine ⟨fun p' d heq => hext p' d heq ▸ hq, fun hb => ?_⟩
  rw [hbr hb] at hq
  exact List.prefix_nil.1 hq

theorem Canonical.eq_of_lookup {t t' : RadixTree α ν} (h : t.Canonical) (h' : t'.Canonical)
    (hl : t.lookup = t'.lookup) : t = t' := by
  induction t generalizing t' with
  | empty =>
    by_contra hne
    obtain ⟨k, v, hk⟩ := h'.exists_lookup (Ne.symm hne)
    rw [← hl] at hk
    simp at hk
  | leaf p v =>
    cases t' with
    | leaf q w =>
      have hp : (leaf q w).lookup p = some v := by rw [← hl]; simp
      rw [lookup_leaf] at hp
      split at hp
      · next hpq => rw [hpq, Option.some.inj hp]
      · cases hp
    | empty =>
      have hp := congrFun hl p
      simp at hp
    | extension q c => exact absurd hl.symm (h'.ne_of_lookup_leaf (by simp))
    | branch cs w => exact absurd hl.symm (h'.ne_of_lookup_leaf (by simp))
  | extension p c ih =>
    cases t' with
    | empty =>
      obtain ⟨k, v, hk⟩ := h.exists_lookup (by simp)
      rw [hl] at hk
      simp at hk
    | leaf q w => exact absurd hl (h.ne_of_lookup_leaf (by simp))
    | branch cs w => exact absurd ((h'.prefix_path hl.symm (by simp) (by simp)).2 rfl) h.1
    | extension q d =>
      have hqp := (h.prefix_path hl (by simp) (by simp)).1 p c rfl
      have hpq := (h'.prefix_path hl.symm (by simp) (by simp)).1 q d rfl
      obtain rfl := hqp.eq_of_length_le hpq.length_le
      rw [ih h.2.2 h'.2.2 (funext fun k => ?_)]
      have hk := congrFun hl (q ++ k)
      simpa using hk
  | branch cs w ih =>
    cases t' with
    | empty =>
      obtain ⟨k, v, hk⟩ := h.exists_lookup (by simp)
      rw [hl] at hk
      simp at hk
    | leaf q w => exact absurd hl (h.ne_of_lookup_leaf (by simp))
    | extension q d => exact absurd ((h.prefix_path hl (by simp) (by simp)).2 rfl) h'.1
    | branch ds x =>
      have hwx : w = x := by simpa using congrFun hl []
      have hcs : cs = ds := funext fun a =>
        ih a (h.2 a) (h'.2 a) (funext fun k => by simpa using congrFun hl (a :: k))
      rw [hwx, hcs]

end RadixTree

end TsEthereum
