import TsEthereum.Common.Snapshots
import TsEthereum.Evm.World

/-!
# Transient storage

All levels share one log of the values that were there before, and an index into it
for each open checkpoint. The log above an index leads back to what was there at that
checkpoint (`Levels`), and so transient storage follows snapshots (`follows`).
-/

namespace TsEthereum.Evm

namespace TransientStorage

/-- A write: an address, a key and a value. -/
structure Write where
  address : Bytes20
  key : Bytes
  value : Bytes

/-- Thirty-two zeros. -/
def zeros : Bytes := List.replicate 32 0

/-- **`get`.** -/
def get (t : TransientStorage) (address : Bytes20) (key : Bytes) : Bytes :=
  if h : key.length = 32 then t.storage address ⟨key, h⟩ else zeros

/-- **`put`**, of a key and a value of any length. -/
def tryPut (t : TransientStorage) (write : Write) : Except String TransientStorage :=
  if h : write.key.length = 32 then
    if 32 < write.value.length then
      .error "Transient storage value cannot be longer than 32 bytes"
    else .ok (t.put write.address ⟨write.key, h⟩ write.value)
  else .error "Transient storage key must be 32 bytes long"

/-- A call; where it throws nothing is changed. -/
def step (t : TransientStorage) : SnapshotOp Write → TransientStorage
  | .write write => (t.tryPut write).toOption.getD t
  | .checkpoint => t.checkpoint
  | .commit => t.commit.getD t
  | .revert => t.revert.getD t

/-! ## The log -/

/-- A slot is set. -/
def setSlot (storage : Bytes20 → Bytes32 → Bytes) (address : Bytes20) (key : Bytes32)
    (value : Bytes) : Bytes20 → Bytes32 → Bytes :=
  Function.update storage address (Function.update (storage address) key value)

/-- **Changes are undone**, the last first. -/
def undone (storage : Bytes20 → Bytes32 → Bytes) (changes : List (Bytes20 × Bytes32 × Bytes)) :
    Bytes20 → Bytes32 → Bytes :=
  changes.foldl (fun storage change => setSlot storage change.1 change.2.1 change.2.2) storage

variable {t : TransientStorage} {storage saved : Bytes20 → Bytes32 → Bytes}
  {changes journal : List (Bytes20 × Bytes32 × Bytes)} {mark : ℕ} {indices : List ℕ}
  {levels : List (Bytes20 → Bytes32 → Bytes)} {address : Bytes20} {key : Bytes32}

theorem undo_storage (t : TransientStorage) : t.undo.storage = undone t.storage t.changeJournal := by
  have hfold : ∀ (changes : List (Bytes20 × Bytes32 × Bytes)) (t : TransientStorage),
      (changes.foldl (fun t change => t.set change.1 change.2.1 change.2.2) t).storage =
        undone t.storage changes := by
    intro changes
    induction changes with
    | nil => exact fun _ => rfl
    | cons change changes ih => exact fun t => ih _
  exact hfold t.changeJournal t

theorem setSlot_setSlot (storage : Bytes20 → Bytes32 → Bytes) (address : Bytes20) (key : Bytes32)
    (value : Bytes) :
    setSlot (setSlot storage address key value) address key (storage address key) = storage := by
  simp only [setSlot, Function.update_self, Function.update_idem, Function.update_eq_self]

theorem setSlot_of_ne {address' : Bytes20} {key' : Bytes32}
    (hne : ¬ (address' = address ∧ key' = key)) (value : Bytes) :
    setSlot storage address' key' value address key = storage address key := by
  rw [setSlot]
  by_cases haddress : address' = address
  · subst haddress
    have hkey : key ≠ key' := fun hc => hne ⟨rfl, hc.symm⟩
    rw [Function.update_self, Function.update_of_ne hkey]
  · rw [Function.update_of_ne (Ne.symm haddress)]

theorem undone_of_forall_ne (h : ∀ change ∈ changes, ¬ (change.1 = address ∧ change.2.1 = key)) :
    undone storage changes address key = storage address key := by
  induction changes generalizing storage with
  | nil => rfl
  | cons change changes ih =>
    refine (ih (List.forall_mem_cons.1 h).2).trans ?_
    exact setSlot_of_ne (h change List.mem_cons_self) change.2.2

/-! ## Levels -/

/-- **The log is in levels**: above the last index it leads back to what was saved last, and so on
from there. -/
inductive Levels : (Bytes20 → Bytes32 → Bytes) → List (Bytes20 × Bytes32 × Bytes) → List ℕ →
    List (Bytes20 → Bytes32 → Bytes) → Prop
  | ground (storage : Bytes20 → Bytes32 → Bytes) (journal : List (Bytes20 × Bytes32 × Bytes))
      (indices : List ℕ) : Levels storage journal indices []
  | level {storage saved : Bytes20 → Bytes32 → Bytes}
      {journal : List (Bytes20 × Bytes32 × Bytes)} {mark : ℕ} {indices : List ℕ}
      {levels : List (Bytes20 → Bytes32 → Bytes)} (hle : mark ≤ journal.length)
      (hundo : undone storage (journal.take (journal.length - mark)) = saved)
      (hrest : Levels saved (journal.drop (journal.length - mark)) indices levels) :
      Levels storage journal (mark :: indices) (saved :: levels)

theorem Levels.put (h : Levels storage journal indices levels) (address : Bytes20) (key : Bytes32)
    (value : Bytes) :
    Levels (setSlot storage address key value)
      ((address, key, storage address key) :: journal) indices levels := by
  cases h with
  | ground => exact .ground _ _ _
  | @level _ _ _ mark _ _ hle hundo hrest =>
    have hcount : journal.length + 1 - mark = journal.length - mark + 1 := by omega
    refine .level (Nat.le_succ_of_le hle) ?_ ?_
    · rw [List.length_cons, hcount, List.take_succ_cons]
      change undone (setSlot (setSlot storage address key value) address key
        (storage address key)) _ = _
      rw [setSlot_setSlot]
      exact hundo
    · rw [List.length_cons, hcount, List.drop_succ_cons]
      exact hrest

theorem Levels.checkpoint (h : Levels storage journal indices levels) :
    Levels storage journal (journal.length :: indices) (storage :: levels) := by
  refine .level (le_refl _) ?_ ?_
  · rw [Nat.sub_self, List.take_zero]
    rfl
  · rw [Nat.sub_self, List.drop_zero]
    exact h

theorem Levels.commit (h : Levels storage journal (mark :: indices) (saved :: levels)) :
    Levels storage journal indices levels := by
  cases h with
  | level hle hundo hrest =>
    cases hrest with
    | ground => exact .ground _ _ _
    | @level _ _ _ mark' _ _ hle' hundo' hrest' =>
      rw [List.length_drop] at hle' hundo' hrest'
      have hcount : journal.length - mark' = journal.length - mark +
          (journal.length - (journal.length - mark) - mark') := by omega
      refine .level (by omega) ?_ ?_
      · rw [hcount, List.take_add, undone, List.foldl_append]
        change undone (undone storage _) _ = _
        rw [hundo]
        exact hundo'
      · rw [hcount, ← List.drop_drop]
        exact hrest'

/-- **Transient storage stands for snapshots.** -/
def Stands (t : TransientStorage) (s : Snapshots (Bytes20 → Bytes32 → Bytes)) : Prop :=
  t.storage = s.current ∧ Levels s.current t.changeJournal t.indices s.saved

/-- What a write makes of the slots. -/
def write (storage : Bytes20 → Bytes32 → Bytes) (w : Write) : Bytes20 → Bytes32 → Bytes :=
  if h : w.key.length = 32 then
    if 32 < w.value.length then storage else setSlot storage w.address ⟨w.key, h⟩ w.value
  else storage

theorem step_write (t : TransientStorage) (w : Write) :
    t.step (.write w) = t ∧ write t.storage w = t.storage ∨
      ∃ h : w.key.length = 32, t.step (.write w) = t.put w.address ⟨w.key, h⟩ w.value ∧
        write t.storage w = setSlot t.storage w.address ⟨w.key, h⟩ w.value := by
  have hwrite : t.step (.write w) = (t.tryPut w).toOption.getD t := rfl
  by_cases hkey : w.key.length = 32
  · by_cases hvalue : 32 < w.value.length
    · left
      rw [hwrite, tryPut, write, dif_pos hkey, dif_pos hkey, if_pos hvalue, if_pos hvalue]
      exact ⟨rfl, rfl⟩
    · right
      refine ⟨hkey, ?_⟩
      rw [hwrite, tryPut, write, dif_pos hkey, dif_pos hkey, if_neg hvalue, if_neg hvalue]
      exact ⟨rfl, rfl⟩
  · left
    rw [hwrite, tryPut, write, dif_neg hkey, dif_neg hkey]
    exact ⟨rfl, rfl⟩

theorem follows : FollowsSnapshots write step Stands fun _ _ => True where
  onWrite := by
    rintro t s w ⟨hcurrent, hlevels⟩ -
    change Stands (t.step (.write w)) ⟨write s.current w, s.saved⟩
    rcases step_write t w with ⟨hstep, hwrite⟩ | ⟨hkey, hstep, hwrite⟩
    · rw [hstep, ← hcurrent, hwrite]
      exact ⟨rfl, hcurrent ▸ hlevels⟩
    · rw [hstep, ← hcurrent, hwrite]
      rw [← hcurrent] at hlevels
      exact ⟨rfl, hlevels.put w.address ⟨w.key, hkey⟩ w.value⟩
  onCheckpoint := by
    rintro t s ⟨hcurrent, hlevels⟩ -
    exact ⟨hcurrent, hlevels.checkpoint⟩
  onCommit := by
    rintro t ⟨current, _ | ⟨saved, levels⟩⟩ ⟨hcurrent, hlevels⟩ - hne
    · exact absurd rfl hne
    · obtain ⟨storage, journal, indices⟩ := t
      cases hlevels with
      | level hle hundo hrest =>
        have hlast := Levels.level hle hundo hrest
        exact ⟨hcurrent, hlast.commit⟩
  onRevert := by
    rintro t ⟨current, _ | ⟨saved, levels⟩⟩ ⟨hcurrent, hlevels⟩ - hne
    · exact absurd rfl hne
    · obtain ⟨storage, journal, indices⟩ := t
      obtain rfl : storage = current := hcurrent
      cases hlevels with
      | level hle hundo hrest =>
        refine ⟨?_, hrest⟩
        refine (undo_storage _).trans ?_
        exact hundo

/-- No put is of the slot. -/
def Untouched (address : Bytes20) (key : Bytes) (ops : List (SnapshotOp Write)) : Prop :=
  ∀ w, .write w ∈ ops → ¬ (w.address = address ∧ w.key = key)

/-- Nothing was recorded for a slot, which is zeros. -/
def Clean (address : Bytes20) (key : Bytes32) (t : TransientStorage) : Prop :=
  t.storage address key = zeros ∧
    ∀ change ∈ t.changeJournal, ¬ (change.1 = address ∧ change.2.1 = key)

theorem Clean.step (h : Clean address key t) {op : SnapshotOp Write}
    (hop : ∀ w, op = .write w → ¬ (w.address = address ∧ w.key = key.1)) :
    Clean address key (t.step op) := by
  obtain ⟨hzeros, hjournal⟩ := h
  cases op with
  | write w =>
    have hne := hop w rfl
    rcases step_write t w with ⟨hstep, -⟩ | ⟨hkey, hstep, -⟩
    · rw [hstep]
      exact ⟨hzeros, hjournal⟩
    · have hslot : ¬ (w.address = address ∧ (⟨w.key, hkey⟩ : Bytes32) = key) := by
        rintro ⟨haddress, hsame⟩
        exact hne ⟨haddress, congrArg Subtype.val hsame⟩
      rw [hstep]
      refine ⟨(setSlot_of_ne hslot w.value).trans hzeros, fun change hmem => ?_⟩
      rcases List.mem_cons.1 hmem with rfl | hmem
      · exact hslot
      · exact hjournal change hmem
  | checkpoint => exact ⟨hzeros, hjournal⟩
  | commit =>
    rw [TransientStorage.step, commit]
    split
    · exact ⟨hzeros, hjournal⟩
    · exact ⟨hzeros, hjournal⟩
  | revert =>
    rw [TransientStorage.step, revert]
    split
    · exact ⟨hzeros, hjournal⟩
    · refine ⟨?_, fun change hmem => hjournal change (List.mem_of_mem_drop hmem)⟩
      refine (congrFun (congrFun (undo_storage _) address) key).trans ?_
      exact (undone_of_forall_ne fun change hmem =>
        hjournal change (List.mem_of_mem_take hmem)).trans hzeros

theorem get_of_untouched {key : Bytes} {ops : List (SnapshotOp Write)}
    (h : Untouched address key ops) : (ops.foldl step new).get address key = zeros := by
  rw [get]
  split
  · rename_i hkey
    have hclean : Clean address ⟨key, hkey⟩ (ops.foldl step new) := by
      have hrun : ∀ ops' : List (SnapshotOp Write), (∀ op ∈ ops', op ∈ ops) →
          ∀ t, Clean address ⟨key, hkey⟩ t → Clean address ⟨key, hkey⟩ (ops'.foldl step t) := by
        intro ops' hsub
        induction ops' with
        | nil => exact fun _ ht => ht
        | cons op ops' ih =>
          intro t ht
          refine ih (List.forall_mem_cons.1 hsub).2 _ (ht.step ?_)
          rintro w rfl
          exact h w (hsub _ List.mem_cons_self)
      exact hrun ops (fun _ hmem => hmem) new ⟨rfl, fun _ hmem => absurd hmem List.not_mem_nil⟩
    exact hclean.1
  · rfl

/-- **A revert restores every slot** to what it was at its checkpoint, whatever was committed in
between; a commit leaves every slot; and a slot that was never set reads as zeros. -/
theorem get_reverted (pre body : List (SnapshotOp Write)) (hpre : Nested pre)
    (hbody : Matched body) (address : Bytes20) (key : Bytes) :
    ((pre ++ reverted body).foldl step new).get address key =
        (pre.foldl step new).get address key ∧
      ((pre ++ [SnapshotOp.commit]).foldl step new).get address key =
        (pre.foldl step new).get address key ∧
      (Untouched address key pre → (pre.foldl step new).get address key = zeros) := by
  obtain ⟨s, ⟨hcurrent, -⟩, ⟨hcurrent', -⟩⟩ := follows.exists_restored (c := new)
    (s := new.storage) ⟨rfl, .ground _ _ _⟩ hpre hbody fun _ _ _ => trivial
  refine ⟨?_, ?_, get_of_untouched⟩
  · rw [get, get, hcurrent, hcurrent']
  · rw [List.foldl_append, List.foldl_cons, List.foldl_nil]
    change ((pre.foldl step new).commit.getD (pre.foldl step new)).get address key = _
    rw [commit]
    split
    · rfl
    · rfl

/-- One slot is written on three levels. -/
def sampleBody : List (SnapshotOp Write) :=
  [.write ⟨RIPEMD160_ADDRESS, zeros, [1]⟩, .checkpoint, .write ⟨RIPEMD160_ADDRESS, zeros, [2]⟩,
    .checkpoint, .write ⟨RIPEMD160_ADDRESS, zeros, [3]⟩, .commit, .commit]

theorem get_reverted_sample :
    let pre := .checkpoint :: sampleBody
    ((pre ++ reverted sampleBody).foldl step new).get RIPEMD160_ADDRESS zeros =
        (pre.foldl step new).get RIPEMD160_ADDRESS zeros ∧
      ((pre ++ [SnapshotOp.commit]).foldl step new).get RIPEMD160_ADDRESS zeros =
        (pre.foldl step new).get RIPEMD160_ADDRESS zeros ∧
      (Untouched RIPEMD160_ADDRESS zeros pre →
        (pre.foldl step new).get RIPEMD160_ADDRESS zeros = zeros) :=
  get_reverted (.checkpoint :: sampleBody) sampleBody ⟨1, rfl⟩ rfl RIPEMD160_ADDRESS zeros

end TransientStorage

end TsEthereum.Evm
