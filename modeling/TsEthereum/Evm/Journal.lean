import TsEthereum.Common.Snapshots
import Mathlib.Data.Finset.SDiff
import Mathlib.Data.Finset.Erase
import Mathlib.Logic.Function.Basic

/-!
# The journal

`evm/journal.ts`: the addresses and slots that are warm and the accounts that
are touched, and a flat log of what was added, each item with the height it was
made at. `revert` takes the items off the log down to the first one that is
lower, and undoes them. It follows snapshots of the sets (`follows`), but for
the RIPEMD160 address, which stays touched; so a revert restores the sets of
the matching checkpoint (`revert_restores`).

What is only reported (`accessList`, `preimages`) and the warm addresses that
are never undone (`alwaysWarmJournal`) are left out: no other field depends on
them.
-/

namespace TsEthereum

abbrev AddressString : Type := String
abbrev SlotString : Type := String

def RIPEMD160_ADDRESS_STRING : AddressString := "0000000000000000000000000000000000000003"

/-- A `JournalDiffItem`: the warm addresses to remove, the warm slots of each
address, and the touched accounts. -/
structure JournalDiffItem where
  addressSet : Finset AddressString
  slotsMap : AddressString → Finset SlotString
  touchedSet : Finset AddressString

/-- An item that is pushed. -/
def JournalDiffItem.empty : JournalDiffItem := ⟨∅, fun _ => ∅, ∅⟩

/-- The warm addresses with their warm slots, and the touched accounts. -/
structure JournalSets where
  journal : AddressString → Option (Finset SlotString)
  touched : Finset AddressString

/-- **The `Journal`.** The log is kept the last item first. -/
structure Journal extends JournalSets where
  journalDiff : List (ℕ × JournalDiffItem)
  journalHeight : ℕ

namespace Journal

/-- `cleanJournal`. -/
def clean : Journal where
  journal := fun _ => none
  touched := ∅
  journalDiff := [(0, .empty)]
  journalHeight := 0

/-- The last item of the log is changed. -/
def record (f : JournalDiffItem → JournalDiffItem) :
    List (ℕ × JournalDiffItem) → List (ℕ × JournalDiffItem)
  | [] => []
  | (height, diff) :: rest => (height, f diff) :: rest

variable (j : Journal)

/-- **`touchAccount`**. -/
def touchAccount (address : AddressString) : Journal :=
  if address ∈ j.touched then j
  else
    { j with
      touched := insert address j.touched
      journalDiff := record (fun diff =>
        { diff with touchedSet := insert address diff.touchedSet }) j.journalDiff }

/-- **`addWarmedAddress`**. -/
def addWarmedAddress (address : AddressString) : Journal :=
  if (j.journal address).isSome then j
  else
    { j with
      journal := Function.update j.journal address (some ∅)
      journalDiff := record (fun diff =>
        { diff with addressSet := insert address diff.addressSet }) j.journalDiff }

/-- The slot of an address that is warm. -/
def addSlot (address : AddressString) (slot : SlotString) (slots : Finset SlotString) : Journal :=
  if slot ∈ slots then j
  else
    { j with
      journal := Function.update j.journal address (some (insert slot slots))
      journalDiff := record (fun diff =>
        { diff with
          slotsMap := Function.update diff.slotsMap address
            (insert slot (diff.slotsMap address)) }) j.journalDiff }

/-- **`addWarmedStorage`**. -/
def addWarmedStorage (address : AddressString) (slot : SlotString) : Journal :=
  match j.journal address with
  | some slots => j.addSlot address slot slots
  | none => (j.addWarmedAddress address).addSlot address slot ∅

/-- An item is pushed at a height. -/
def pushDiff (height : ℕ) : Journal :=
  { j with journalHeight := height, journalDiff := (height, .empty) :: j.journalDiff }

/-- **`checkpoint`**. -/
def checkpoint : Journal := j.pushDiff (j.journalHeight + 1)

/-- **`commit`**. -/
def commit : Journal := j.pushDiff (j.journalHeight - 1)

/-- An item is undone: its addresses are removed, then its slots, and its
touched accounts but RIPEMD160, which is kept touched. -/
def undo (diff : JournalDiffItem) (s : JournalSets) : JournalSets where
  journal address :=
    if address ∈ diff.addressSet then none
    else (s.journal address).map fun slots => slots \ diff.slotsMap address
  touched := s.touched \ diff.touchedSet.erase RIPEMD160_ADDRESS_STRING

/-- **The loop of `revert`**: items that are not lower are undone. It stops at
the first that is lower, or at the end of the log, and what it has not passed
stays. -/
def revertDiffs (height : ℕ) : List (ℕ × JournalDiffItem) → JournalSets →
    JournalSets × List (ℕ × JournalDiffItem)
  | [], s => (s, [])
  | (h, diff) :: rest, s =>
    if h < height then (s, (h, diff) :: rest)
    else if rest.isEmpty then (undo diff s, [(h, diff)])
    else revertDiffs height rest (undo diff s)

/-- **`revert`**. -/
def revert : Journal :=
  let (s, rest) := revertDiffs j.journalHeight j.journalDiff j.toJournalSets
  { s with journalDiff := rest, journalHeight := j.journalHeight - 1 }

end Journal

/-- A write to the journal. -/
inductive JournalWrite where
  | addWarmedAddress (address : AddressString)
  | addWarmedStorage (address : AddressString) (slot : SlotString)
  /-- `putAccount` and `deleteAccount` touch the account. -/
  | touch (address : AddressString)

/-- **A call on the journal.** -/
def Journal.step (j : Journal) : SnapshotOp JournalWrite → Journal
  | .write (.addWarmedAddress address) => j.addWarmedAddress address
  | .write (.addWarmedStorage address slot) => j.addWarmedStorage address slot
  | .write (.touch address) => j.touchAccount address
  | .checkpoint => j.checkpoint
  | .commit => j.commit
  | .revert => j.revert

/-! ## Undoing the log -/

namespace JournalSets

/-- The sets without RIPEMD160. -/
def view (s : JournalSets) : JournalSets :=
  { s with touched := s.touched.erase RIPEMD160_ADDRESS_STRING }

theorem view_eq_iff {s t : JournalSets} : s.view = t.view ↔
    s.journal = t.journal ∧
      ∀ a, a ≠ RIPEMD160_ADDRESS_STRING → (a ∈ s.touched ↔ a ∈ t.touched) := by
  rw [view, view, JournalSets.mk.injEq, Finset.ext_iff]
  refine and_congr_right fun _ => forall_congr' fun a => ?_
  rw [Finset.mem_erase, Finset.mem_erase, and_congr_right_iff]

/-- **What a write adds to the sets**, without RIPEMD160. -/
def write (s : JournalSets) : JournalWrite → JournalSets
  | .addWarmedAddress address =>
    if (s.journal address).isSome then s
    else { s with journal := Function.update s.journal address (some ∅) }
  | .addWarmedStorage address slot =>
    { s with
      journal := Function.update s.journal address
        (some (insert slot ((s.journal address).getD ∅))) }
  | .touch address =>
    { s with touched := (insert address s.touched).erase RIPEMD160_ADDRESS_STRING }

end JournalSets

namespace Journal

variable {j : Journal} {s t : JournalSets} {E rest : List (ℕ × JournalDiffItem)} {height : ℕ}
variable {saved : List JournalSets}

/-- All items are undone, the last first. -/
def undoAll (diffs : List (ℕ × JournalDiffItem)) (s : JournalSets) : JournalSets :=
  diffs.foldl (fun s item => undo item.2 s) s

theorem view_undo (diff : JournalDiffItem) (h : s.view = t.view) :
    (undo diff s).view = (undo diff t).view := by
  obtain ⟨hjournal, htouched⟩ := JournalSets.view_eq_iff.1 h
  refine JournalSets.view_eq_iff.2 ⟨by rw [undo, undo, hjournal], fun a ha => ?_⟩
  rw [undo, undo, Finset.mem_sdiff, Finset.mem_sdiff, htouched a ha]

theorem view_undoAll (diffs : List (ℕ × JournalDiffItem)) (h : s.view = t.view) :
    (undoAll diffs s).view = (undoAll diffs t).view := by
  induction diffs generalizing s t with
  | nil => exact h
  | cons item diffs ih => exact ih (view_undo item.2 h)

theorem revertDiffs_append (hE : ∀ item ∈ E, height ≤ item.1) (hne : rest ≠ [])
    (hrest : ∀ item ∈ rest.head?, item.1 < height) (s : JournalSets) :
    revertDiffs height (E ++ rest) s = (undoAll E s, rest) := by
  induction E generalizing s with
  | nil =>
    obtain ⟨⟨h, diff⟩, rest, rfl⟩ := List.exists_cons_of_ne_nil hne
    rw [List.nil_append, revertDiffs, if_pos (hrest (h, diff) rfl)]
    rfl
  | cons item E ih =>
    obtain ⟨h, diff⟩ := item
    have hle : height ≤ h := hE (h, diff) (List.mem_cons_self ..)
    have hsome : (E ++ rest).isEmpty = false := by simp [hne]
    rw [List.cons_append, revertDiffs, if_neg (Nat.not_lt.2 hle), hsome, if_neg (by decide),
      ih (List.forall_mem_cons.1 hE).2]
    rfl

/-- **The log is in levels**, one for each open checkpoint: undoing the items of
a level leads to the sets that were saved, and the level below it is lower. -/
inductive Levels : List (ℕ × JournalDiffItem) → ℕ → JournalSets → List JournalSets → Prop
  | ground {diff : JournalDiffItem} {rest : List (ℕ × JournalDiffItem)} {s : JournalSets} :
      Levels ((0, diff) :: rest) 0 s []
  | level {height : ℕ} {diff : JournalDiffItem} {E rest : List (ℕ × JournalDiffItem)}
      {s t : JournalSets} {saved : List JournalSets}
      (hE : ∀ item ∈ E, height + 1 ≤ item.1) (hrest : Levels rest height t saved)
      (hundo : (undoAll ((height + 1, diff) :: E) s).view = t.view) :
      Levels ((height + 1, diff) :: E ++ rest) (height + 1) s (t.view :: saved)

theorem Levels.head (h : Levels rest height s saved) :
    rest ≠ [] ∧ ∀ item ∈ rest.head?, item.1 = height := by
  cases h with
  | ground =>
    refine ⟨List.cons_ne_nil _ _, ?_⟩
    rintro item ⟨⟩
    rfl
  | level =>
    refine ⟨List.cons_ne_nil _ _, ?_⟩
    rintro item ⟨⟩
    rfl

theorem Levels.congr (h : Levels rest height s saved) (hview : t.view = s.view) :
    Levels rest height t saved := by
  cases h with
  | ground => exact .ground
  | level hE hrest hundo => exact .level hE hrest ((view_undoAll _ hview).trans hundo)

theorem Levels.record (h : Levels rest height s saved) {f : JournalDiffItem → JournalDiffItem}
    (hundo : ∀ diff, (undo (f diff) t).view = (undo diff s).view) :
    Levels (record f rest) height t saved := by
  cases h with
  | ground => exact .ground
  | level hE hrest hsaved => exact .level hE hrest ((view_undoAll _ (hundo _)).trans hsaved)

theorem undo_empty (s : JournalSets) : undo .empty s = s := by
  rw [undo, JournalDiffItem.empty, JournalSets.mk.injEq]
  refine ⟨funext fun a => ?_, ?_⟩
  · rw [if_neg (Finset.notMem_empty a)]
    simp
  · rw [Finset.erase_eq_of_notMem (Finset.notMem_empty _), Finset.sdiff_empty]

theorem Levels.checkpoint (h : Levels rest height s saved) :
    Levels ((height + 1, .empty) :: rest) (height + 1) s (s.view :: saved) :=
  .level (E := []) (fun _ hmem => absurd hmem List.not_mem_nil) h
    (congrArg JournalSets.view (undo_empty s))

theorem Levels.commit (h : Levels rest height s saved) (hne : saved ≠ []) :
    Levels ((height - 1, .empty) :: rest) (height - 1) s saved.tail := by
  cases h with
  | ground => exact absurd rfl hne
  | @level _ diff E rest _ t saved hE hrest hundo =>
    cases hrest with
    | ground => exact .ground
    | @level height' diff' E' rest' _ t' saved' hE' hrest' hundo' =>
      have hjoined : Levels ((height' + 1, .empty) ::
          ((height' + 1 + 1, diff) :: E ++ (height' + 1, diff') :: E') ++ rest') (height' + 1) s
            (t'.view :: saved') := .level ?_ hrest' ?_
      · rwa [List.cons_append, List.append_assoc] at hjoined
      · intro item hmem
        rcases List.mem_append.1 hmem with hmem | hmem
        · rcases List.mem_cons.1 hmem with rfl | hmem
          · exact Nat.le_succ _
          · exact Nat.le_of_succ_le (hE item hmem)
        · rcases List.mem_cons.1 hmem with rfl | hmem
          · exact le_rfl
          · exact hE' item hmem
      · rw [undoAll, List.foldl_cons, undo_empty, List.foldl_append]
        exact (view_undoAll _ hundo).trans hundo'

theorem Levels.revert {j : Journal} (h : Levels j.journalDiff j.journalHeight j.toJournalSets saved)
    (hne : saved ≠ []) :
    Levels j.revert.journalDiff j.revert.journalHeight j.revert.toJournalSets saved.tail ∧
      saved.head? = some j.revert.view := by
  obtain ⟨s, log, height⟩ := j
  dsimp only at h
  cases h with
  | ground => exact absurd rfl hne
  | @level height diff E rest _ t saved hE hrest hundo =>
    have hloop : revertDiffs (height + 1) ((height + 1, diff) :: E ++ rest) s =
        (undoAll ((height + 1, diff) :: E) s, rest) := revertDiffs_append (fun item hmem => by
        rcases List.mem_cons.1 hmem with rfl | hmem
        · exact le_rfl
        · exact hE item hmem) hrest.head.1
      (fun item hmem => by rw [hrest.head.2 item hmem]; exact Nat.lt_succ_self _) s
    rw [Journal.revert]
    dsimp only
    rw [hloop]
    exact ⟨hrest.congr hundo, congrArg some hundo.symm⟩

/-! ## Every run -/

/-- **The journal stands for its sets**, without RIPEMD160, and those saved. -/
def Stands (j : Journal) (s : Snapshots JournalSets) : Prop :=
  s.current = j.view ∧ Levels j.journalDiff j.journalHeight j.toJournalSets s.saved

theorem Levels.addWarmedAddress {j : Journal} (address : AddressString)
    (h : Levels j.journalDiff j.journalHeight j.toJournalSets saved) :
    Levels (j.addWarmedAddress address).journalDiff (j.addWarmedAddress address).journalHeight
      (j.addWarmedAddress address).toJournalSets saved := by
  unfold Journal.addWarmedAddress
  split
  · exact h
  · next hcold =>
    refine h.record fun diff => congrArg JournalSets.view ?_
    rw [undo, undo, JournalSets.mk.injEq]
    refine ⟨funext fun a => ?_, rfl⟩
    rcases eq_or_ne a address with rfl | hne
    · have hnone : j.journal a = none := by simpa using hcold
      simp [hnone]
    · simp [hne]

theorem Levels.addSlot {j : Journal} {address : AddressString} {slots : Finset SlotString}
    (slot : SlotString) (hslots : j.journal address = some slots)
    (h : Levels j.journalDiff j.journalHeight j.toJournalSets saved) :
    Levels (j.addSlot address slot slots).journalDiff (j.addSlot address slot slots).journalHeight
      (j.addSlot address slot slots).toJournalSets saved := by
  unfold Journal.addSlot
  split
  · exact h
  · next hcold =>
    refine h.record fun diff => congrArg JournalSets.view ?_
    rw [undo, undo, JournalSets.mk.injEq]
    refine ⟨funext fun a => ?_, rfl⟩
    rcases eq_or_ne a address with rfl | hne
    · have hsame : insert slot slots \ insert slot (diff.slotsMap a) = slots \ diff.slotsMap a := by
        rw [Finset.insert_sdiff_insert, Finset.sdiff_insert_of_notMem hcold]
      simp [hslots, hsame]
    · simp [hne]

theorem Levels.touchAccount {j : Journal} (address : AddressString)
    (h : Levels j.journalDiff j.journalHeight j.toJournalSets saved) :
    Levels (j.touchAccount address).journalDiff (j.touchAccount address).journalHeight
      (j.touchAccount address).toJournalSets saved := by
  unfold Journal.touchAccount
  split
  · exact h
  · next hnot =>
    refine h.record fun diff => JournalSets.view_eq_iff.2 ⟨rfl, fun a ha => ?_⟩
    rw [undo, undo, Finset.mem_sdiff, Finset.mem_sdiff, Finset.mem_erase, Finset.mem_erase,
      Finset.mem_insert, Finset.mem_insert]
    rcases eq_or_ne a address with rfl | hne
    · simp [hnot, ha]
    · simp [hne]

theorem journal_addSlot {j : Journal} {address : AddressString} {slots : Finset SlotString}
    (slot : SlotString) (hslots : j.journal address = some slots) :
    (j.addSlot address slot slots).toJournalSets =
      { j.toJournalSets with
        journal := Function.update j.journal address (some (insert slot slots)) } := by
  unfold Journal.addSlot
  split
  · next hmem => rw [Finset.insert_eq_of_mem hmem, ← hslots, Function.update_eq_self]
  · rfl

theorem Levels.write {j : Journal} (h : Levels j.journalDiff j.journalHeight j.toJournalSets saved)
    (w : JournalWrite) :
    Levels (j.step (.write w)).journalDiff (j.step (.write w)).journalHeight
        (j.step (.write w)).toJournalSets saved ∧
      (j.step (.write w)).view = j.view.write w := by
  cases w with
  | addWarmedAddress address =>
    refine ⟨h.addWarmedAddress address, ?_⟩
    change (j.addWarmedAddress address).view = _
    unfold Journal.addWarmedAddress JournalSets.write
    split
    · next hwarm => exact (if_pos hwarm).symm
    · next hcold => exact (if_neg hcold).symm
  | addWarmedStorage address slot =>
    change Levels (j.addWarmedStorage address slot).journalDiff
      (j.addWarmedStorage address slot).journalHeight
      (j.addWarmedStorage address slot).toJournalSets saved ∧
        (j.addWarmedStorage address slot).view = _
    unfold JournalSets.write
    rcases hslots : j.journal address with _ | slots
    · have heq : j.addWarmedStorage address slot =
          (j.addWarmedAddress address).addSlot address slot ∅ := by
        rw [Journal.addWarmedStorage, hslots]
      have hwarmed : (j.addWarmedAddress address).journal address = some ∅ := by
        unfold Journal.addWarmedAddress
        rw [hslots, if_neg (by decide)]
        exact Function.update_self ..
      rw [heq]
      refine ⟨(h.addWarmedAddress address).addSlot slot hwarmed, ?_⟩
      dsimp only
      rw [journal_addSlot slot hwarmed, show j.view.journal address = none from hslots,
        Option.getD_none]
      unfold Journal.addWarmedAddress
      rw [hslots, if_neg (by decide)]
      dsimp only [JournalSets.view]
      rw [Function.update_idem]
    · have heq : j.addWarmedStorage address slot = j.addSlot address slot slots := by
        rw [Journal.addWarmedStorage, hslots]
      rw [heq]
      refine ⟨h.addSlot slot hslots, ?_⟩
      dsimp only
      rw [journal_addSlot slot hslots, show j.view.journal address = some slots from hslots,
        Option.getD_some]
      rfl
  | touch address =>
    refine ⟨h.touchAccount address, ?_⟩
    change (j.touchAccount address).view = _
    unfold Journal.touchAccount JournalSets.write JournalSets.view
    split
    · next hmem =>
      refine congrArg (JournalSets.mk j.journal) (Finset.ext fun a => ?_)
      simp only [Finset.mem_erase, Finset.mem_insert]
      refine and_congr_right fun ha => ⟨fun h => .inr ⟨ha, h⟩, ?_⟩
      rintro (rfl | h)
      · exact hmem
      · exact h.2
    · refine congrArg (JournalSets.mk j.journal) (Finset.ext fun a => ?_)
      simp only [Finset.mem_erase, Finset.mem_insert]
      refine and_congr_right fun ha => or_congr_right ?_
      exact (and_iff_right ha).symm

theorem follows :
    FollowsSnapshots JournalSets.write Journal.step Stands fun _ _ => True where
  onWrite := by
    rintro j s w ⟨hcurrent, hlevels⟩ -
    obtain ⟨hlevels', hview⟩ := hlevels.write w
    refine ⟨?_, hlevels'⟩
    rw [hview, ← hcurrent]
    rfl
  onCheckpoint := by
    rintro j s ⟨hcurrent, hlevels⟩ -
    refine ⟨hcurrent, ?_⟩
    change Levels _ _ _ (s.current :: s.saved)
    rw [hcurrent]
    exact hlevels.checkpoint
  onCommit := by
    rintro j s ⟨hcurrent, hlevels⟩ - hne
    exact ⟨hcurrent, hlevels.commit hne⟩
  onRevert := by
    rintro j s ⟨-, hlevels⟩ - hne
    obtain ⟨hlevels', hsaved⟩ := hlevels.revert hne
    refine ⟨?_, hlevels'⟩
    change s.saved.head?.getD s.current = _
    rw [hsaved]
    rfl

theorem mem_touched_revertDiffs (log : List (ℕ × JournalDiffItem)) (s : JournalSets) :
    RIPEMD160_ADDRESS_STRING ∈ (revertDiffs height log s).1.touched ↔
      RIPEMD160_ADDRESS_STRING ∈ s.touched := by
  have hundo (diff : JournalDiffItem) (s : JournalSets) :
      RIPEMD160_ADDRESS_STRING ∈ (undo diff s).touched ↔ RIPEMD160_ADDRESS_STRING ∈ s.touched := by
    rw [undo, Finset.mem_sdiff, and_iff_left (Finset.notMem_erase _ _)]
  induction log generalizing s with
  | nil => exact Iff.rfl
  | cons item log ih =>
    rw [revertDiffs]
    split
    · exact Iff.rfl
    · split
      · exact hundo _ _
      · exact (ih _).trans (hundo _ _)

/-- **The journal reverts exactly**: whatever is committed or reverted in
between, a revert restores the warm addresses with their slots and the touched
accounts to what they were at its checkpoint, but for RIPEMD160, which stays
touched. -/
theorem revert_restores (pre body : List (SnapshotOp JournalWrite)) (hpre : Nested pre)
    (hbody : Matched body) :
    let j := pre.foldl step clean
    let j' := (pre ++ reverted body).foldl step clean
    j'.journal = j.journal ∧
      (∀ address, address ≠ RIPEMD160_ADDRESS_STRING →
        (address ∈ j'.touched ↔ address ∈ j.touched)) ∧
      (RIPEMD160_ADDRESS_STRING ∈ j'.touched ↔
        RIPEMD160_ADDRESS_STRING ∈ ((pre ++ .checkpoint :: body).foldl step clean).touched) := by
  intro j j'
  obtain ⟨s, ⟨hcurrent, -⟩, hcurrent', -⟩ := follows.exists_restored (c := clean)
    (s := clean.view) ⟨rfl, .ground⟩ hpre hbody fun _ _ _ => trivial
  obtain ⟨hjournal, htouched⟩ := JournalSets.view_eq_iff.1 (hcurrent'.symm.trans hcurrent)
  refine ⟨hjournal, htouched, ?_⟩
  have hlast : j' = ((pre ++ .checkpoint :: body).foldl step clean).revert := by
    rw [show j' = (pre ++ reverted body).foldl step clean from rfl, reverted, ← List.cons_append,
      ← List.append_assoc, List.foldl_append]
    rfl
  rw [hlast]
  exact mem_touched_revertDiffs _ _

/-- Slots are warmed at two heights, and touched accounts reverted. -/
def warmed : List (SnapshotOp JournalWrite) :=
  [.write (.addWarmedStorage "aa" "01"), .checkpoint, .write (.addWarmedStorage "aa" "02"), .commit,
    .checkpoint, .write (.touch RIPEMD160_ADDRESS_STRING), .write (.touch "bb"), .revert,
    .write (.addWarmedAddress "bb")]

theorem revert_restores_warmed :
    ((warmed ++ reverted warmed).foldl step clean).journal = (warmed.foldl step clean).journal ∧
      RIPEMD160_ADDRESS_STRING ∈ ((warmed ++ reverted warmed).foldl step clean).touched := by
  have h := revert_restores warmed warmed ⟨0, rfl⟩ rfl
  exact ⟨h.1, h.2.2.2 (by decide +kernel)⟩

end Journal

end TsEthereum
