import Mathlib.Data.List.Perm.Basic
import Mathlib.Tactic.Linarith

/-!
# Binary heaps

A heap packed into an array: the children of position `i` are `2 * i` and
`2 * i + 1`, the root is at 1. `isBefore` says which of two values goes nearer
to the root; a new value bubbles up from the end, and when the root is taken
the last value bubbles down from its place. Each keeps what the heap holds
(`insert_perm`, `remove_perm`) and its order, which is a field of `Heap`; so
what `peek` returns comes before all the rest, as `isBefore` has it.
-/

namespace TsEthereum

variable {α : Type}

/-- An order a heap can be kept by: strict, and with "not before" transitive. -/
class Ranking (isBefore : α → α → Bool) : Prop where
  asymm : ∀ {a b}, isBefore a b = true → isBefore b a = false
  trans : ∀ {a b c}, isBefore b a = false → isBefore c b = false → isBefore c a = false

theorem Ranking.irrefl {isBefore : α → α → Bool} [Ranking isBefore] (a : α) :
    isBefore a a = false := by
  by_contra h
  rw [Bool.not_eq_false] at h
  rw [Ranking.asymm h] at h
  cases h

namespace Heap

open Ranking

variable {isBefore : α → α → Bool} {list : List α} {d v item : α} {i j r fuel len : ℕ}

/-- The value at a position, the first of which is 1. -/
def slot (list : List α) (d : α) (i : ℕ) : α := list.getD (i - 1) d

/-- The list with a value written at a position. -/
def fill (list : List α) (i : ℕ) (v : α) : List α := list.set (i - 1) v

theorem slot_fill_same (hi : 1 ≤ i) (hlen : i ≤ list.length) : slot (fill list i v) d i = v := by
  rw [slot, fill, List.getD_eq_getElem?_getD, List.getElem?_set_self (by omega), Option.getD_some]

theorem slot_fill_other (hi : 1 ≤ i) (hj : 1 ≤ j) (hij : i ≠ j) :
    slot (fill list i v) d j = slot list d j := by
  rw [slot, fill, slot, List.getD_eq_getElem?_getD, List.getElem?_set_ne (by omega),
    List.getD_eq_getElem?_getD]

theorem slot_congr (d d' : α) (hi : 1 ≤ i) (hlen : i ≤ list.length) : slot list d i = slot list d' i := by
  rw [slot, slot, List.getD_eq_getElem?_getD, List.getD_eq_getElem?_getD,
    List.getElem?_eq_getElem (by omega), Option.getD_some, Option.getD_some]

@[simp] theorem length_fill : (fill list i v).length = list.length := List.length_set

theorem fill_move_perm (hi : 1 ≤ i) (hil : i ≤ list.length) (hj : 1 ≤ j) (hjl : j ≤ list.length)
    (hij : i ≠ j) : (fill (fill list i (slot list d j)) j item).Perm (fill list i item) := by
  have hilen : i - 1 < (fill list i item).length := by rw [length_fill]; omega
  have hjlen : j - 1 < (fill list i item).length := by rw [length_fill]; omega
  have hswap := List.set_set_perm hilen hjlen
  have hi' : (fill list i item).get ⟨i - 1, hilen⟩ = item := List.getElem_set_self _
  have hj' : (fill list i item).get ⟨j - 1, hjlen⟩ = slot list d j := by
    rw [slot, List.getD_eq_getElem?_getD, List.getElem?_eq_getElem (by omega), Option.getD_some]
    exact List.getElem_set_ne (by omega) _
  rw [List.get_eq_getElem] at hi' hj'
  rw [hi', hj'] at hswap
  rwa [fill, List.set_set] at hswap

/-! ## The two loops -/

/-- **`_bubbleup`**: the parents that the item goes before come down. -/
def bubbleup (isBefore : α → α → Bool) (item : α) : ℕ → List α → ℕ → List α
  | 0, list, idx => fill list idx item
  | fuel + 1, list, idx =>
    if idx ≤ 1 then fill list idx item
    else
      let pp := idx / 2
      if isBefore item (slot list item pp) then
        bubbleup isBefore item fuel (fill list idx (slot list item pp)) pp
      else fill list idx item

/-- The child that goes first. -/
def child (isBefore : α → α → Bool) (list : List α) (d : α) (r : ℕ) : ℕ :=
  let c := 2 * r
  if isBefore (slot list d (c + 1)) (slot list d c) then c + 1 else c

/-- **`_bubbledown`**: the children that go before the item come up. -/
def bubbledown (isBefore : α → α → Bool) (itm : α) (len : ℕ) : ℕ → List α → ℕ → List α
  | 0, list, r => fill list r itm
  | fuel + 1, list, r =>
    if 2 * r < len then
      let c := child isBefore list itm r
      let cv := slot list itm c
      if !isBefore cv itm then fill list r itm
      else bubbledown isBefore itm len fuel (fill list r cv) c
    else fill list r itm

/-- The value at a position does not go before its parent. -/
def InPlace (isBefore : α → α → Bool) (list : List α) (d : α) (i : ℕ) : Prop :=
  isBefore (slot list d i) (slot list d (i / 2)) = false

/-- **The order of a heap**: no value goes before its parent. -/
def Ordered (isBefore : α → α → Bool) (list : List α) : Prop :=
  ∀ d i, 2 ≤ i → i ≤ list.length → InPlace isBefore list d i

theorem ordered_of (h : ∀ i, 2 ≤ i → i ≤ list.length → InPlace isBefore list d i) :
    Ordered isBefore list := by
  intro d' i hi hlen
  have hplace := h i hi hlen
  rw [InPlace] at hplace ⊢
  rwa [slot_congr d' d (by omega) hlen, slot_congr d' d (by omega) (by omega)]

/-- All is in place up to `len` but the value at the hole, which its children
could go under and over. -/
structure UpReady (isBefore : α → α → Bool) (list : List α) (d : α) (hole : ℕ) : Prop where
  inPlace : ∀ i, 2 ≤ i → i ≤ list.length → i ≠ hole → InPlace isBefore list d i
  grand : 2 ≤ hole → ∀ i, 2 ≤ i → i ≤ list.length → i / 2 = hole →
    isBefore (slot list d i) (slot list d (hole / 2)) = false

/-- All is in place before `len` but the children of the hole, which its parent
could stay over. -/
structure DownReady (isBefore : α → α → Bool) (list : List α) (d : α) (len hole : ℕ) : Prop where
  inPlace : ∀ i, 2 ≤ i → i < len → i / 2 ≠ hole → InPlace isBefore list d i
  grand : 2 ≤ hole → ∀ i, i < len → i / 2 = hole →
    isBefore (slot list d i) (slot list d (hole / 2)) = false

theorem child_eq (isBefore : α → α → Bool) (list : List α) (d : α) (r : ℕ) :
    child isBefore list d r = 2 * r ∨ child isBefore list d r = 2 * r + 1 := by
  rw [child]
  split
  · exact .inr rfl
  · exact .inl rfl

theorem child_first [Ranking isBefore] (hi : i / 2 = r) :
    isBefore (slot list d i) (slot list d (child isBefore list d r)) = false := by
  have hi : i = 2 * r ∨ i = 2 * r + 1 := by omega
  rw [child]
  split
  · rename_i hbefore
    rcases hi with rfl | rfl
    · exact Ranking.asymm hbefore
    · exact Ranking.irrefl _
  · rename_i hbefore
    rcases hi with rfl | rfl
    · exact Ranking.irrefl _
    · exact Bool.eq_false_iff.2 hbefore

/-! ## What the loops keep -/

theorem bubbleup_perm (hi : 1 ≤ i) (hlen : i ≤ list.length) :
    (bubbleup isBefore item fuel list i).Perm (fill list i item) := by
  induction fuel generalizing list i with
  | zero => exact .refl _
  | succ fuel ih =>
    rw [bubbleup]
    split
    · exact .refl _
    · dsimp only
      split
      · refine (ih (by omega) (by rw [length_fill]; omega)).trans ?_
        exact fill_move_perm hi hlen (by omega) (by omega) (by omega)
      · exact .refl _

theorem bubbledown_perm (hr : 1 ≤ r) (hlen : len ≤ list.length) (hrl : r ≤ len) :
    (bubbledown isBefore item len fuel list r).Perm (fill list r item) := by
  induction fuel generalizing list r with
  | zero => exact .refl _
  | succ fuel ih =>
    rw [bubbledown]
    split
    · have hc := child_eq isBefore list item r
      dsimp only
      split
      · exact .refl _
      · refine (ih (by omega) (by rw [length_fill]; omega) (by omega)).trans ?_
        exact fill_move_perm hr (by omega) (by omega) (by omega) (by omega)
    · exact .refl _

theorem UpReady.move [Ranking isBefore] (hi : 2 ≤ i) (hlen : i ≤ list.length)
    (hready : UpReady isBefore (fill list i item) item i)
    (hbefore : isBefore item (slot list item (i / 2)) = true) :
    UpReady isBefore (fill (fill list i (slot list item (i / 2))) (i / 2) item) item (i / 2) := by
  have hpi : i / 2 ≠ i := by omega
  have hold : ∀ j, 1 ≤ j → j ≠ i → slot (fill list i item) item j = slot list item j :=
    fun j hj hji => slot_fill_other (by omega) hj hji.symm
  have hnew : ∀ j, 1 ≤ j → j ≠ i → j ≠ i / 2 →
      slot (fill (fill list i (slot list item (i / 2))) (i / 2) item) item j = slot list item j :=
    fun j hj hji hjp => by
      rw [slot_fill_other (by omega) hj hjp.symm, slot_fill_other (by omega) hj hji.symm]
  have hnewHole : slot (fill (fill list i (slot list item (i / 2))) (i / 2) item) item (i / 2) =
      item := slot_fill_same (by omega) (by rw [length_fill]; omega)
  have hnewOld : slot (fill (fill list i (slot list item (i / 2))) (i / 2) item) item i =
      slot list item (i / 2) := by
    rw [slot_fill_other (by omega) (by omega) hpi, slot_fill_same (by omega) hlen]
  -- the item's new siblings and its new parent were in place before
  have hsibling : ∀ j, 2 ≤ j → j ≤ list.length → j ≠ i → j / 2 = i / 2 →
      isBefore (slot list item j) (slot list item (i / 2)) = false := by
    intro j hj hjl hji hjp
    have hplace := hready.inPlace j hj (by rw [length_fill]; omega) hji
    rwa [InPlace, hold j (by omega) hji, hjp, hold (i / 2) (by omega) hpi] at hplace
  have habove : 2 ≤ i / 2 →
      isBefore (slot list item (i / 2)) (slot list item (i / 2 / 2)) = false := by
    intro hp
    have hplace := hready.inPlace (i / 2) hp (by rw [length_fill]; omega) hpi
    rwa [InPlace, hold _ (by omega) hpi, hold _ (by omega) (by omega)] at hplace
  constructor
  · intro j hj hjl hjp
    rw [length_fill, length_fill] at hjl
    rw [InPlace]
    by_cases hji : j = i
    · rw [hji, hnewOld, hnewHole]
      exact asymm hbefore
    · rw [hnew j (by omega) hji hjp]
      by_cases hjp' : j / 2 = i / 2
      · rw [hjp', hnewHole]
        exact trans (asymm hbefore) (hsibling j hj hjl hji hjp')
      · by_cases hji' : j / 2 = i
        · have hgrand := hready.grand hi j hj (by rw [length_fill]; omega) hji'
          rw [hold j (by omega) hji, hold _ (by omega) hpi] at hgrand
          rwa [hji', hnewOld]
        · have hplace := hready.inPlace j hj (by rw [length_fill]; omega) hji
          rw [InPlace, hold j (by omega) hji, hold _ (by omega) hji'] at hplace
          rwa [hnew _ (by omega) hji' hjp']
  · intro hp j hj hjl hjp
    rw [length_fill, length_fill] at hjl
    rw [hnew (i / 2 / 2) (by omega) (by omega) (by omega)]
    by_cases hji : j = i
    · rw [hji, hnewOld]
      exact habove hp
    · rw [hnew j (by omega) hji (by omega)]
      exact trans (habove hp) (hsibling j hj hjl hji hjp)

theorem bubbledown_last (hr : 1 ≤ r) (hlen : len ≤ list.length) (hrl : r ≤ len)
    (hlast : slot (fill list r item) d len = item) :
    slot (bubbledown isBefore item len fuel list r) d len = item := by
  induction fuel generalizing list r with
  | zero => exact hlast
  | succ fuel ih =>
    rw [bubbledown]
    split
    · have hc := child_eq isBefore list item r
      dsimp only
      split
      · exact hlast
      · refine ih (by omega) (by rw [length_fill]; exact hlen) (by omega) ?_
        by_cases hcl : child isBefore list item r = len
        · rw [hcl, slot_fill_same (by omega) (by rw [length_fill]; exact hlen)]
        · rw [slot_fill_other hr (by omega) (by omega)] at hlast
          rwa [slot_fill_other (by omega) (by omega) hcl, slot_fill_other hr (by omega) (by omega)]
    · exact hlast

theorem bubbleup_ordered [Ranking isBefore] (hi : 1 ≤ i) (hlen : i ≤ list.length)
    (hfuel : i ≤ fuel) (hready : UpReady isBefore (fill list i item) item i) :
    Ordered isBefore (bubbleup isBefore item fuel list i) := by
  induction fuel generalizing list i with
  | zero => omega
  | succ fuel ih =>
    rw [bubbleup]
    split
    · refine ordered_of (d := item) fun j hj hjl => hready.inPlace j hj hjl (by omega)
    · dsimp only
      have hroot : slot (fill list i item) item (i / 2) = slot list item (i / 2) :=
        slot_fill_other hi (by omega) (by omega)
      split
      · rename_i hbefore
        exact ih (by omega) (by rw [length_fill]; omega) (by omega)
          (hready.move (by omega) hlen hbefore)
      · rename_i hbefore
        refine ordered_of (d := item) fun j hj hjl => ?_
        by_cases hji : j = i
        · subst hji
          rw [InPlace, hroot, slot_fill_same hi hlen]
          exact Bool.eq_false_iff.2 hbefore
        · exact hready.inPlace j hj hjl hji

theorem DownReady.move [Ranking isBefore] (hr : 1 ≤ r) (hrl : 2 * r < len)
    (hlen : len = list.length) (hlast : slot list item len = item)
    (hready : DownReady isBefore (fill list r item) item len r)
    (hbefore : isBefore (slot list item (child isBefore list item r)) item = true) :
    child isBefore list item r < len ∧
      DownReady isBefore
        (fill (fill list r (slot list item (child isBefore list item r)))
          (child isBefore list item r) item) item len (child isBefore list item r) := by
  have hc := child_eq isBefore list item r
  have hfirst : ∀ j, j / 2 = r → isBefore (slot list item j)
      (slot list item (child isBefore list item r)) = false := fun _ => child_first
  generalize child isBefore list item r = c at *
  have hcr : c / 2 = r := by omega
  have hclen : c < len := by
    rcases Nat.lt_or_ge c len with hlt | hge
    · exact hlt
    · -- the last position holds the item itself
      obtain rfl : c = len := by omega
      have hirrefl : isBefore item item = false := Ranking.irrefl item
      rw [hlast, hirrefl] at hbefore
      cases hbefore
  refine ⟨hclen, ?_⟩
  have hold : ∀ j, 1 ≤ j → j ≠ r → slot (fill list r item) item j = slot list item j :=
    fun j hj hjr => slot_fill_other (by omega) hj hjr.symm
  have hnew : ∀ j, 1 ≤ j → j ≠ r → j ≠ c →
      slot (fill (fill list r (slot list item c)) c item) item j = slot list item j :=
    fun j hj hjr hjc => by
      rw [slot_fill_other (by omega) hj hjc.symm, slot_fill_other (by omega) hj hjr.symm]
  have hnewHole : slot (fill (fill list r (slot list item c)) c item) item c = item :=
    slot_fill_same (by omega) (by rw [length_fill]; omega)
  have hnewOld : slot (fill (fill list r (slot list item c)) c item) item r = slot list item c := by
    rw [slot_fill_other (by omega) (by omega) (by omega), slot_fill_same (by omega) (by omega)]
  constructor
  · intro j hj hjl hjc
    rw [InPlace]
    by_cases hjr : j = r
    · rw [hjr, hnewOld, hnew _ (by omega) (by omega) (by omega)]
      have hgrand := hready.grand (by omega) c hclen hcr
      rwa [hold c (by omega) (by omega), hold _ (by omega) (by omega)] at hgrand
    · by_cases hjr' : j / 2 = r
      · rw [hjr', hnewOld]
        by_cases hjc' : j = c
        · rw [hjc', hnewHole]
          exact asymm hbefore
        · rw [hnew j (by omega) hjr hjc']
          exact hfirst j hjr'
      · by_cases hjc' : j = c
        · omega
        · have hplace := hready.inPlace j hj hjl hjr'
          rw [InPlace, hold j (by omega) hjr, hold _ (by omega) hjr'] at hplace
          rwa [hnew j (by omega) hjr hjc', hnew _ (by omega) hjr' hjc]
  · intro _ j hjl hjc
    have hplace := hready.inPlace j (by omega) hjl (by omega)
    rw [InPlace, hjc, hold j (by omega) (by omega), hold c (by omega) (by omega)] at hplace
    rwa [hcr, hnewOld, hnew j (by omega) (by omega) (by omega)]

theorem bubbledown_inPlace [Ranking isBefore] (hr : 1 ≤ r) (hrl : r < len)
    (hlen : len = list.length) (hlast : slot list item len = item) (hfuel : len ≤ r + fuel)
    (hready : DownReady isBefore (fill list r item) item len r) :
    ∀ i, 2 ≤ i → i < len →
      InPlace isBefore (bubbledown isBefore item len fuel list r) item i := by
  induction fuel generalizing list r with
  | zero => omega
  | succ fuel ih =>
    rw [bubbledown]
    split
    · rename_i hmore
      have hc := child_eq isBefore list item r
      dsimp only
      split
      · rename_i hbefore
        intro j hj hjl
        by_cases hjr : j / 2 = r
        · have hbefore : isBefore (slot list item (child isBefore list item r)) item = false := by
            simpa using hbefore
          rw [InPlace, hjr, slot_fill_same hr (by omega),
            slot_fill_other hr (by omega) (by omega)]
          exact trans hbefore (child_first hjr)
        · exact hready.inPlace j hj hjl hjr
      · rename_i hbefore
        obtain ⟨hclen, hready⟩ := hready.move hr hmore hlen hlast (by simpa using hbefore)
        refine ih (by omega) hclen (by rw [length_fill]; exact hlen) ?_ (by omega) hready
        rw [slot_fill_other hr (by omega) (by omega)]
        exact hlast
    · exact fun j hj hjl => hready.inPlace j hj hjl (by omega)

theorem Ordered.root_first [Ranking isBefore] (h : Ordered isBefore list) (hi : 1 ≤ i)
    (hlen : i ≤ list.length) : isBefore (slot list d i) (slot list d 1) = false := by
  induction i using Nat.strongRecOn with
  | ind i ih =>
    rcases Nat.lt_or_ge i 2 with hlt | hge
    · obtain rfl : i = 1 := by omega
      exact Ranking.irrefl _
    · exact trans (ih (i / 2) (by omega) (by omega) (by omega)) (h d i hge hlen)

theorem eq_dropLast_append (d : α) (hne : list ≠ []) :
    list = list.dropLast ++ [slot list d list.length] := by
  have hlast := List.dropLast_append_getLast hne
  rw [List.getLast_eq_getElem] at hlast
  have hpos := List.length_pos_iff.2 hne
  rw [slot, List.getD_eq_getElem?_getD, List.getElem?_eq_getElem (by omega), Option.getD_some]
  exact hlast.symm

theorem fill_append_singleton : fill (list ++ [v]) (list.length + 1) v = list ++ [v] := by
  rw [fill, Nat.add_sub_cancel]
  rw [List.set_append_right _ _ (Nat.le_refl _), Nat.sub_self]
  rfl

theorem slot_append_left (hi : 1 ≤ i) (hlen : i ≤ list.length) {l : List α} :
    slot (list ++ l) d i = slot list d i := by
  rw [slot, slot, List.getD_eq_getElem?_getD, List.getD_eq_getElem?_getD,
    List.getElem?_append_left (by omega)]

theorem slot_fill_last (hi : 1 ≤ i) (hlen : i ≤ list.length) :
    slot (fill list i (slot list d list.length)) d list.length = slot list d list.length := by
  by_cases hil : i = list.length
  · rw [← hil, slot_fill_same hi hlen]
  · rw [slot_fill_other hi (by omega) hil]

/-- The values after `insert`. -/
def insertList (isBefore : α → α → Bool) (list : List α) (item : α) : List α :=
  bubbleup isBefore item (list.length + 1) (list ++ [item]) (list.length + 1)

/-- The values after `remove`. -/
def removeList (isBefore : α → α → Bool) : List α → List α
  | [] => []
  | ret :: rest =>
    let len := rest.length + 1
    let itm := slot (ret :: rest) ret len
    (bubbledown isBefore itm len len (ret :: rest) 1).dropLast

theorem insertList_perm (list : List α) (item : α) :
    (insertList isBefore list item).Perm (item :: list) := by
  have hlen : list.length + 1 ≤ (list ++ [item]).length := by rw [List.length_append]; rfl
  refine (bubbleup_perm (by omega) hlen).trans ?_
  rw [fill_append_singleton]
  exact List.perm_append_singleton item list

theorem removeList_perm (ret : α) (rest : List α) :
    (removeList isBefore (ret :: rest)).Perm rest := by
  rw [removeList]
  have hlast : slot (fill (ret :: rest) 1 (slot (ret :: rest) ret (rest.length + 1))) ret
      (rest.length + 1) = slot (ret :: rest) ret (rest.length + 1) :=
    slot_fill_last (Nat.le_refl 1) (Nat.le_add_left 1 rest.length)
  generalize slot (ret :: rest) ret (rest.length + 1) = itm at *
  have hperm : (bubbledown isBefore itm (rest.length + 1) (rest.length + 1) (ret :: rest) 1).Perm
      (itm :: rest) := bubbledown_perm (Nat.le_refl 1) (Nat.le_refl _) (by omega)
  have hslot : slot (bubbledown isBefore itm (rest.length + 1) (rest.length + 1) (ret :: rest) 1)
      ret (rest.length + 1) = itm :=
    bubbledown_last (Nat.le_refl 1) (Nat.le_refl _) (by omega) hlast
  generalize bubbledown isBefore itm (rest.length + 1) (rest.length + 1) (ret :: rest) 1 = list
    at *
  have hlen : list.length = rest.length + 1 := hperm.length_eq
  have hne : list ≠ [] := List.length_pos_iff.1 (by omega)
  rw [eq_dropLast_append ret hne, hlen, hslot] at hperm
  exact (List.perm_append_right_iff [itm]).1
    (hperm.trans (List.perm_append_singleton itm rest).symm)

theorem insertList_ordered [Ranking isBefore] (h : Ordered isBefore list) (item : α) :
    Ordered isBefore (insertList isBefore list item) := by
  have hlen : list.length + 1 ≤ (list ++ [item]).length := by rw [List.length_append]; rfl
  refine bubbleup_ordered (by omega) hlen (Nat.le_refl _) ?_
  rw [fill_append_singleton]
  constructor
  · intro i hi hil hne
    rw [List.length_append, List.length_singleton] at hil
    rw [InPlace, slot_append_left (by omega) (by omega), slot_append_left (by omega) (by omega)]
    exact h item i hi (by omega)
  · intro _ i _ hil hii
    rw [List.length_append, List.length_singleton] at hil
    omega

theorem removeList_ordered [Ranking isBefore] (h : Ordered isBefore list) :
    Ordered isBefore (removeList isBefore list) := by
  cases list with
  | nil => exact h
  | cons ret rest =>
    rw [removeList]
    generalize hitm : slot (ret :: rest) ret (rest.length + 1) = itm
    have hperm : (bubbledown isBefore itm (rest.length + 1) (rest.length + 1) (ret :: rest) 1).Perm
        (itm :: rest) := bubbledown_perm (Nat.le_refl 1) (Nat.le_refl _) (by omega)
    have hlength : _ = rest.length + 1 := hperm.length_eq
    rcases Nat.eq_zero_or_pos rest.length with hrest | hrest
    · intro d i hi hil
      rw [List.length_dropLast, hlength] at hil
      omega
    · have hready : DownReady isBefore (fill (ret :: rest) 1 itm) itm (rest.length + 1) 1 := by
        constructor
        · intro i hi hil hne
          rw [InPlace, slot_fill_other (Nat.le_refl 1) (by omega) (by omega),
            slot_fill_other (Nat.le_refl 1) (by omega) (by omega)]
          exact h itm i hi (by rw [List.length_cons]; omega)
        · intro hroot
          omega
      have hlast : slot (ret :: rest) itm (rest.length + 1) = itm := by
        rw [slot_congr itm ret (Nat.le_add_left 1 _) (Nat.le_refl _), hitm]
      have hplace : ∀ i, 2 ≤ i → i < rest.length + 1 → InPlace isBefore
          (bubbledown isBefore itm (rest.length + 1) (rest.length + 1) (ret :: rest) 1) itm i :=
        bubbledown_inPlace (Nat.le_refl 1) (by omega) rfl hlast (by omega) hready
      generalize bubbledown isBefore itm (rest.length + 1) (rest.length + 1) (ret :: rest) 1 = list
        at *
      refine ordered_of (d := itm) fun i hi hil => ?_
      rw [List.length_dropLast, hlength] at hil
      have hplace := hplace i hi (by omega)
      have hne : list ≠ [] := List.length_pos_iff.1 (by omega)
      rw [eq_dropLast_append itm hne, InPlace,
        slot_append_left (by omega) (by rw [List.length_dropLast]; omega),
        slot_append_left (by omega) (by rw [List.length_dropLast]; omega)] at hplace
      exact hplace

end Heap

open Heap

/-- **A heap**, its values in order. -/
structure Heap (isBefore : α → α → Bool) where
  list : List α
  ordered : Ordered isBefore list

namespace Heap

variable {isBefore : α → α → Bool} {h : Heap isBefore} {item ret : α}

/-- `new Heap()`. -/
def new (isBefore : α → α → Bool) : Heap isBefore :=
  ⟨[], fun _ i hi hlen => by rw [List.length_nil] at hlen; omega⟩

/-- **`peek`.** -/
def peek (h : Heap isBefore) : Option α := h.list.head?

variable [Ranking isBefore]

/-- **`insert`.** -/
def insert (h : Heap isBefore) (item : α) : Heap isBefore :=
  ⟨insertList isBefore h.list item, insertList_ordered h.ordered item⟩

/-- **`remove`**: what it leaves; it returns what `peek` did. -/
def remove (h : Heap isBefore) : Heap isBefore :=
  ⟨removeList isBefore h.list, removeList_ordered h.ordered⟩

omit [Ranking isBefore] in
theorem peek_eq_none : h.peek = none ↔ h.list = [] := List.head?_eq_none_iff

theorem insert_perm : (h.insert item).list.Perm (item :: h.list) := insertList_perm h.list item

theorem remove_perm (hpeek : h.peek = some ret) : (ret :: h.remove.list).Perm h.list := by
  obtain ⟨rest, hrest⟩ := List.head?_eq_some_iff.1 hpeek
  change (ret :: removeList isBefore h.list).Perm h.list
  rw [hrest]
  exact (removeList_perm ret rest).cons ret

theorem peek_first (hpeek : h.peek = some ret) {a : α} (ha : a ∈ h.list) :
    isBefore a ret = false := by
  obtain ⟨rest, hrest⟩ := List.head?_eq_some_iff.1 hpeek
  obtain ⟨i, hi, rfl⟩ := List.mem_iff_getElem.1 ha
  have hfirst := h.ordered.root_first (d := ret) (i := i + 1) (by omega) (by omega)
  have hroot : slot h.list ret 1 = ret := by
    rw [hrest]
    rfl
  rw [hroot, slot, Nat.add_sub_cancel, List.getD_eq_getElem?_getD, List.getElem?_eq_getElem hi,
    Option.getD_some] at hfirst
  exact hfirst

end Heap

end TsEthereum
