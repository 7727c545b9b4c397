import TsEthereum.Mpt.Delete

/-!
# What a deletion loses

`removedAt` is the map without the key, but for the values of branches: one
that collapses loses its value, and one that the key ends at keeps it, or,
at the root, takes everything with it. `Lossy` names the keys whose deletion
goes wrong so, and `lookup_removedAt_iff` that these are all.
-/

namespace TsEthereum

open RadixTree RadixTree.Frames

/-! ## Settling a branch -/

/-- The value of a branch after it settled: one with a single child loses
it. -/
def keptValue (cs : Nibble → Tree) (w : Option Value) : Option Value :=
  if (letters cs).card = 1 then none else w

theorem card_letters_eq_one {cs : Nibble → Tree} :
    (letters cs).card = 1 ↔ ∃ j, childList cs = [j] := by
  rw [← length_childList, List.length_eq_one_iff]

theorem lookup_prepend_single {cs : Nibble → Tree} {j : Nibble} (hj : childList cs = [j]) :
    ((cs j).prepend [j]).lookup = (branch cs none).lookup := by
  obtain ⟨-, hother⟩ := childList_eq_singleton hj
  funext x
  rw [lookup_prepend]
  cases x with
  | nil => rfl
  | cons i x =>
    rcases eq_or_ne i j with rfl | hij
    · have hdrop : (i :: x).dropPrefix? [i] = some x := dropPrefix?_append [i] x
      rw [hdrop]
      rfl
    · have hdrop : (i :: x).dropPrefix? [j] = none := by
        rw [dropPrefix?_eq_none]
        simp [Ne.symm hij]
      rw [hdrop, lookup_branch_cons, hother i hij]
      rfl

theorem lookup_settle (fs : List (Frame Nibble Value)) (cs : Nibble → Tree) (w : Option Value) :
    (settle fs cs w).lookup = (plug fs (.branch cs (keptValue cs w))).lookup := by
  by_cases hone : ∃ j, childList cs = [j]
  · have hkept : keptValue cs w = none := if_pos (card_letters_eq_one.2 hone)
    obtain ⟨j, hj⟩ := hone
    unfold settle
    rw [hj, hkept, lookup_rejoin]
    exact lookup_plug_congr fs (lookup_prepend_single hj)
  · have hkept : keptValue cs w = w := if_neg fun hcard => hone (card_letters_eq_one.1 hcard)
    rw [hkept]
    unfold settle
    split
    · next j hj => exact absurd ⟨j, hj⟩ hone
    · rfl

theorem settle_shaped {R : (Nibble → Tree) → Option Value → Prop} (hR : ShapeRule R)
    {fs : List (Frame Nibble Value)} {s : Tree} (h : (plug fs s).Shaped R) {cs : Nibble → Tree}
    {w : Option Value} (hcs : ∀ i, (cs i).Shaped R) (hstay : (letters cs).card ≠ 1 → R cs w) :
    (settle fs cs w).Shaped R := by
  unfold settle
  split
  · next j hj =>
    have hne := (childList_eq_singleton hj).1
    exact Shaped.rejoin hR h (hcs j).prepend (prepend_ne_empty hne)
  · next hmany =>
    have hcard : (letters cs).card ≠ 1 := fun hone =>
      have ⟨j, hj⟩ := card_letters_eq_one.1 hone
      hmany j hj
    exact Shaped.plug hR h ⟨hstay hcard, hcs⟩ (by simp) fun _ _ _ => rfl

theorem card_letters_update (cs : Nibble → Tree) (i : Nibble) {t : Tree} (ht : t ≠ .empty) :
    (letters (Function.update cs i t)).card = (letters (Function.update cs i .empty)).card + 1 := by
  rw [letters_update_of_ne cs i ht, letters_update_empty, Finset.card_insert_eq_ite]
  split
  · next hi =>
    have hpos := Finset.card_pos.2 ⟨i, hi⟩
    rw [Finset.card_erase_of_mem hi]
    omega
  · next hi => rw [Finset.erase_eq_of_notMem hi]

/-! ## The shape of what is left -/

/-- What the walk found: the key's leaf, or a branch at the key's end. -/
def FoundAt (s : Tree) (r : Nibbles) : Prop := (∃ v, s = .leaf r v) ∨ (s.isBranch ∧ r = [])

theorem removedAt_live {fs : List (Frame Nibble Value)} {s : Tree} {r : Nibbles}
    (h : (plug fs s).Live) (hs : FoundAt s r) : (removedAt fs s).Live := by
  cases fs with
  | nil => trivial
  | cons f fs =>
    have hrest : (plug fs (f.plug s)).Live := h
    rcases hs with ⟨v, rfl⟩ | ⟨hb, rfl⟩
    · cases f with
      | extension p => cases Shaped.isBranch_of_plug h
      | branch cs w i =>
        obtain ⟨hrule, hchildren⟩ := Shaped.of_plug hrest
        have hcs : ∀ j, (Function.update cs i .empty j).Live := fun j => by
          have hj := hchildren j
          rcases eq_or_ne j i with rfl | hji
          · rw [Function.update_self]
            trivial
          · rwa [Function.update_of_ne hji] at hj ⊢
        refine settle_shaped liveRule hrest hcs fun hcard => hrule.imp id fun htwo => ?_
        rw [card_letters_update cs i (by simp)] at htwo
        omega
    · cases s with
      | branch cs w =>
        obtain ⟨hrule, hchildren⟩ := Shaped.of_plug h
        exact settle_shaped liveRule h hchildren fun _ => hrule
      | _ => cases hb

/-- A leaf taken from a canonical tree leaves one, where its branch has no
value. -/
theorem removedAt_canonical {cs : Nibble → Tree} {i : Nibble} {fs : List (Frame Nibble Value)}
    {r : Nibbles} {v : Value} (h : (plug (.branch cs none i :: fs) (.leaf r v)).Canonical) :
    (removedAt (.branch cs none i :: fs) (.leaf r v)).Canonical := by
  have hrest : (plug fs ((Frame.branch cs none i).plug (.leaf r v))).Canonical := h
  obtain ⟨hrule, hchildren⟩ := Shaped.of_plug hrest
  have hcs : ∀ j, (Function.update cs i .empty j).Canonical := fun j => by
    have hj := hchildren j
    rcases eq_or_ne j i with rfl | hji
    · rw [Function.update_self]
      trivial
    · rwa [Function.update_of_ne hji] at hj ⊢
  refine settle_shaped canonicalRule hrest hcs fun hcard => ?_
  simp only [ways, Option.isSome_none, Bool.false_eq_true, if_false] at hrule ⊢
  rw [card_letters_update cs i (by simp)] at hrule
  omega

/-! ## The map of what is left -/

theorem lookup_branch_value (cs : Nibble → Tree) (w x : Option Value) :
    (branch cs x).lookup = Function.update (branch cs w).lookup [] x := by
  funext k
  rw [Function.update_apply]
  cases k with
  | nil => rfl
  | cons i k => rfl

theorem lookup_branch_leaf (cs : Nibble → Tree) (w : Option Value) (i : Nibble) (r : Nibbles)
    (v : Value) : (branch (Function.update cs i .empty) w).lookup =
      Function.update (branch (Function.update cs i (.leaf r v)) w).lookup (i :: r) none := by
  funext k
  rw [Function.update_apply]
  cases k with
  | nil => rfl
  | cons j k =>
    rcases eq_or_ne j i with rfl | hji
    · by_cases hk : k = r <;> simp [hk]
    · simp [hji]

/-- **A branch taken for the key's end** has its value afterwards, unless it
collapsed. -/
theorem lookup_removedAt_branch (f : Frame Nibble Value) (fs : List (Frame Nibble Value))
    (cs : Nibble → Tree) (w : Option Value) :
    (removedAt (f :: fs) (.branch cs w)).lookup =
      Function.update (plug (f :: fs) (.branch cs w)).lookup (path (f :: fs)) (keptValue cs w) := by
  have hupd := lookup_plug_update (f :: fs) (lookup_branch_value cs w (keptValue cs w))
  rw [List.append_nil] at hupd
  rw [removedAt, lookup_settle, hupd]

/-- **A leaf taken from a branch** leaves the other keys as they are, but
for the branch's own value. -/
theorem lookup_removedAt_leaf (cs : Nibble → Tree) (w : Option Value) (i : Nibble)
    (fs : List (Frame Nibble Value)) (r : Nibbles) (v : Value) :
    (removedAt (.branch cs w i :: fs) (.leaf r v)).lookup =
      Function.update
        (Function.update (plug (.branch cs w i :: fs) (.leaf r v)).lookup (path fs ++ i :: r) none)
        (path fs) (keptValue (Function.update cs i .empty) w) := by
  have hleaf := lookup_plug_update fs (lookup_branch_leaf cs w i r v)
  have hvalue := lookup_plug_update fs (lookup_branch_value (Function.update cs i .empty) w
    (keptValue (Function.update cs i .empty) w))
  rw [List.append_nil, hleaf] at hvalue
  have hrem : removedAt (.branch cs w i :: fs) (.leaf r v) =
      settle fs (Function.update cs i .empty) w := rfl
  rw [hrem, lookup_settle, hvalue]
  rfl

/-! ## The keys whose deletion goes wrong -/

/-- A key whose deletion below the root goes wrong: it ends at a branch with
a value that does not collapse, or at a leaf whose branch has a value and
collapses. -/
def LossyBelow : Tree → Nibbles → Prop
  | .extension p c, k =>
    match k.dropPrefix? p with
    | some r => LossyBelow c r
    | none => False
  | .branch cs w, [] => w.isSome ∧ (letters cs).card ≠ 1
  | .branch cs w, i :: r =>
    (w.isSome ∧ (letters cs).card = 2 ∧ ∃ v, cs i = .leaf r v) ∨ LossyBelow (cs i) r
  | _, _ => False

/-- **A key whose deletion loses a binding or keeps its own.** At the root
it is the empty key, when the root is a branch with children. -/
def Lossy : Tree → Nibbles → Prop
  | .branch cs _, [] => (letters cs).Nonempty
  | T, k => LossyBelow T k

theorem lossy_eq {T : Tree} {k : Nibbles} (h : T.isBranch → k ≠ []) :
    Lossy T k ↔ LossyBelow T k := by
  cases T with
  | branch cs w =>
    cases k with
    | nil => exact absurd rfl (h rfl)
    | cons i k => rfl
  | _ => rfl

theorem path_ne_nil {f : Frame Nibble Value} {fs : List (Frame Nibble Value)} {s : Tree}
    (h : (plug (f :: fs) s).isBranch) : path (f :: fs) ≠ [] := by
  induction fs generalizing f s with
  | nil =>
    cases f with
    | extension p => cases h
    | branch cs w i => simp [Frame.path]
  | cons g fs ih =>
    have hpath : path (g :: fs) ≠ [] := ih (s := f.plug s) h
    rw [path_cons]
    exact List.append_ne_nil_of_left_ne_nil hpath _

theorem lossyBelow_framePlug (f : Frame Nibble Value) {s : Tree} {r : Nibbles}
    (hs : ∀ v, s ≠ .leaf r v) : LossyBelow (f.plug s) (f.path ++ r) ↔ LossyBelow s r := by
  cases f with
  | extension p => simp [Frame.plug, Frame.path, LossyBelow]
  | branch cs w i => simp [Frame.plug, Frame.path, LossyBelow, hs]

theorem lossy_plug (f : Frame Nibble Value) (fs : List (Frame Nibble Value)) (s : Tree)
    (r : Nibbles) :
    Lossy (plug (f :: fs) s) (path (f :: fs) ++ r) ↔ LossyBelow (f.plug s) (f.path ++ r) := by
  rw [lossy_eq fun hb => List.append_ne_nil_of_left_ne_nil (path_ne_nil hb) r, path_cons,
    plug_cons, List.append_assoc]
  induction fs generalizing f s r with
  | nil => rfl
  | cons g fs ih =>
    have hleaf : ∀ v, f.plug s ≠ .leaf (f.path ++ r) v := by cases f <;> simp [Frame.plug]
    rw [path_cons, plug_cons, List.append_assoc, ih g (f.plug s) (f.path ++ r)]
    exact lossyBelow_framePlug g hleaf

theorem not_lossy_of_leaves {fs : List (Frame Nibble Value)} {s : Tree} {r : Nibbles}
    (hr : Leaves s r) : ¬ Lossy (plug fs s) (path fs ++ r) := by
  have hbelow : ¬ LossyBelow s r := by
    cases hr with
    | leaf h => exact fun h => h
    | extension h => simp [LossyBelow, dropPrefix?_eq_none.2 h]
    | branch h => simp [LossyBelow, h]
  have hleaf : ∀ v, s ≠ .leaf r v := by
    cases hr with
    | leaf h => simp [Ne.symm h]
    | _ => simp
  cases fs with
  | nil =>
    have hnil : s.isBranch → r ≠ [] := by cases hr <;> simp [isBranch]
    have heq : Lossy s r ↔ LossyBelow s r := lossy_eq hnil
    rwa [plug_nil, path_nil, List.nil_append, heq]
  | cons f fs => rwa [lossy_plug, lossyBelow_framePlug f hleaf]

theorem lookup_removedAt_root {s : Tree} {r : Nibbles} (hlive : s.Live) (hs : FoundAt s r) :
    (empty : Tree).lookup = Function.update s.lookup r none ↔ ¬ Lossy s r := by
  rcases hs with ⟨v, rfl⟩ | ⟨hb, rfl⟩
  · have hnot : ¬ Lossy (.leaf r v) r := id
    refine iff_of_true (funext fun k => ?_) hnot
    by_cases hk : k = r <;> simp [hk]
  · cases s with
    | branch cs w =>
      have hlossy : Lossy (.branch cs w) [] ↔ (letters cs).Nonempty := Iff.rfl
      rw [hlossy, Finset.not_nonempty_iff_eq_empty]
      constructor
      · intro heq
        refine Finset.eq_empty_of_forall_notMem fun i hi => ?_
        obtain ⟨k, v, hk⟩ := Live.exists_lookup (hlive.2 i) (mem_letters.1 hi)
        have hat := congrFun heq (i :: k)
        simp [hk] at hat
      · intro hnone
        have hcs : ∀ i, cs i = .empty := fun i => by
          by_contra hi
          exact Finset.notMem_empty i (hnone ▸ mem_letters.2 hi)
        funext k
        cases k with
        | nil => simp
        | cons i k => simp [hcs i]
    | _ => cases hb

theorem lookup_removedAt_iff {fs : List (Frame Nibble Value)} {s : Tree} {r : Nibbles}
    (hlive : (plug fs s).Live) (hs : FoundAt s r) :
    (removedAt fs s).lookup = Function.update (plug fs s).lookup (path fs ++ r) none ↔
      ¬ Lossy (plug fs s) (path fs ++ r) := by
  cases fs with
  | nil => exact lookup_removedAt_root hlive hs
  | cons f fs =>
    rw [lossy_plug]
    rcases hs with ⟨v, rfl⟩ | ⟨hb, rfl⟩
    · cases f with
      | extension p => cases Shaped.isBranch_of_plug hlive
      | branch cs w i =>
        have hpath : path (Frame.branch cs w i :: fs) ++ r = path fs ++ i :: r := by
          simp [Frame.path]
        have hvalue := lookup_plug_append (.branch cs w i :: fs) (.leaf r v) r
        -- the value of the branch, which the deletion must leave
        have hown : Function.update (plug (.branch cs w i :: fs) (.leaf r v)).lookup
            (path fs ++ i :: r) none (path fs) = w := by
          have hne : path fs ≠ path fs ++ i :: r := by simp
          have hat := lookup_plug_append fs ((Frame.branch cs w i).plug (.leaf r v)) []
          rw [List.append_nil] at hat
          rw [Function.update_of_ne hne, plug_cons, hat]
          rfl
        have hlossy : LossyBelow ((Frame.branch cs w i).plug (.leaf r v)) (i :: r) ↔
            w.isSome ∧ (letters (Function.update cs i .empty)).card = 1 := by
          simp [Frame.plug, LossyBelow, card_letters_update cs i (t := .leaf r v)]
        have hstep : (Frame.branch cs w i).path ++ r = i :: r := rfl
        rw [lookup_removedAt_leaf, hpath, Function.update_eq_self_iff, hown, hstep, hlossy,
          keptValue]
        cases w <;> simp
    · cases s with
      | branch cs w =>
        have hlossy : LossyBelow (f.plug (.branch cs w)) (f.path ++ []) ↔
            w.isSome ∧ (letters cs).card ≠ 1 := by
          rw [lossyBelow_framePlug f (by simp)]
          rfl
        rw [lookup_removedAt_branch, List.append_nil, hlossy,
          (Function.update_injective _ _).eq_iff, keptValue]
        cases w <;> simp
      | _ => cases hb

end TsEthereum
