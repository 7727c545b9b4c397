import TsEthereum.Common.Runs
import TsEthereum.State.Account

/-!
# The window of the transaction index

`TxIndex.updateIndex` is called for one block after the other and not awaited, so that its calls go
on side by side while the chain grows. A save reads the height twice: what it writes is of a block
that is within the limit when it begins, and when it has written it deletes the one block that is
the limit behind. So a block is deleted when some save ends at the height that it expires at, and
one that no save ends at is passed over.
-/

namespace TsEthereum

namespace Execution

/-- A canonical block, as much of it as is read here. -/
structure IndexedBlock where
  hash : Bytes32
  /-- The hashes of its transactions. -/
  transactions : List Bytes32
  deriving DecidableEq

/-- A `TxHashIndex`. -/
structure TxHashIndex where
  blockHash : Bytes32
  txIndex : ℕ
  deriving DecidableEq

/-- **What is left of a call**: puts, after which the height is read again, or deletions. -/
inductive IndexTask where
  | save (puts : List (Bytes32 × TxHashIndex))
  | delete (txs : List Bytes32)
  deriving DecidableEq

/-- **The index, with the canonical chain and the calls.** A block's number is its place. -/
structure TxIndex where
  canonical : List IndexedBlock
  index : Bytes32 → Option TxHashIndex
  /-- The number of the last block that a save has been called for. -/
  saved : ℕ
  tasks : List IndexTask

/-- What happens. -/
inductive IndexEvent where
  /-- A batch is stored. -/
  | putBlocks (batch : List IndexedBlock)
  /-- `updateIndex(Save)` is called for the next block. -/
  | updateIndex
  /-- A call goes on to its next `await`. -/
  | resume (call : ℕ)

namespace TxIndex

variable (txLookupLimit : ℕ) (s : TxIndex)

def height : ℕ := s.canonical.length - 1

/-- What is put for a block. -/
def putsOf (block : IndexedBlock) : List (Bytes32 × TxHashIndex) :=
  block.transactions.zipIdx.map fun tx => (tx.1, ⟨block.hash, tx.2⟩)

/-- A save, up to its first `await`. -/
def beginSave (number : ℕ) (block : IndexedBlock) : IndexTask :=
  if txLookupLimit = 0 ∨ (s.height : ℤ) - txLookupLimit < number then .save (putsOf block)
  else .save []

/-- A save, after its puts. -/
def endSave : IndexTask :=
  if 0 < txLookupLimit then
    let limit : ℤ := s.height - txLookupLimit
    if limit < 0 then .delete []
    else
      match s.canonical[limit.toNat]? with
      | some block => .delete block.transactions
      | none => .delete []
  else .delete []

/-- A call goes on. -/
def resume (call : ℕ) : TxIndex :=
  match s.tasks[call]? with
  | some (.save ((tx, value) :: puts)) =>
    { s with
      index := Function.update s.index tx (some value)
      tasks := s.tasks.set call (.save puts) }
  | some (.save []) => { s with tasks := s.tasks.set call (s.endSave txLookupLimit) }
  | some (.delete (tx :: txs)) =>
    { s with
      index := Function.update s.index tx none
      tasks := s.tasks.set call (.delete txs) }
  | some (.delete []) => s
  | none => s

/-- **What an event leaves.** -/
def step : IndexEvent → TxIndex
  | .putBlocks batch => { s with canonical := s.canonical ++ batch }
  | .updateIndex =>
    match s.canonical[s.saved + 1]? with
    | some block =>
      { s with
        saved := s.saved + 1
        tasks := s.tasks ++ [s.beginSave txLookupLimit (s.saved + 1) block] }
    | none => s
  | .resume call => s.resume txLookupLimit call

/-- With a genesis block only. -/
def new (genesis : IndexedBlock) : TxIndex := ⟨[genesis], fun _ => none, 0, []⟩

/-! ## What the index is to be -/

/-- Where a transaction is. -/
structure Placed (tx : Bytes32) (number : ℕ) (block : IndexedBlock) (txIndex : ℕ) : Prop where
  canonical : s.canonical[number]? = some block
  transaction : block.transactions[txIndex]? = some tx

/-- A transaction is in one place. -/
def Distinct : Prop :=
  ∀ (tx : Bytes32) (number : ℕ) (block : IndexedBlock) (txIndex number' : ℕ)
    (block' : IndexedBlock) (txIndex' : ℕ), s.Placed tx number block txIndex →
    s.Placed tx number' block' txIndex' → number = number' ∧ txIndex = txIndex'

/-- **All calls have completed**, one for each block. -/
structure Completed : Prop where
  saved : s.saved = s.height
  tasks : ∀ task ∈ s.tasks, task = .delete []

/-- **The index is of the window**: of the blocks above the height less the limit. -/
def IsWindow : Prop :=
  ∀ tx value, s.index tx = some value ↔
    ∃ number block txIndex, s.Placed tx number block txIndex ∧
      (s.height : ℤ) - txLookupLimit < number ∧ value = ⟨block.hash, txIndex⟩

/-- A put that is still to be made. -/
def Putting (tx : Bytes32) (value : TxHashIndex) : Prop :=
  ∃ puts, .save puts ∈ s.tasks ∧ (tx, value) ∈ puts

/-- A deletion that is still to be made. -/
def Deleting (tx : Bytes32) : Prop := ∃ txs, .delete txs ∈ s.tasks ∧ tx ∈ txs

/-- **A transaction is out of the index**, or on its way. -/
structure Leaving (tx : Bytes32) : Prop where
  putting : ∀ value, ¬ s.Putting tx value
  index : s.index tx = none ∨ s.Deleting tx

/-- **No block is passed over**: the blocks that expire below a new height have left the index
before it is stored. -/
def KeepsPace : IndexEvent → Prop
  | .putBlocks batch => ∀ tx number block txIndex, s.Placed tx number block txIndex →
      s.height ≤ number + txLookupLimit → number + txLookupLimit < s.height + batch.length →
      s.Leaving tx
  | _ => True

/-- **What every event keeps.** A block that expires at the height itself may still be there, as
long as some save is still to end. -/
structure Inv : Prop where
  nonempty : 0 < s.canonical.length
  saved : s.saved < s.canonical.length
  genesis : ∀ block, s.canonical[0]? = some block → block.transactions = []
  index : ∀ tx value, s.index tx = some value → ∃ number block txIndex,
    s.Placed tx number block txIndex ∧ number ≤ s.saved ∧ value = ⟨block.hash, txIndex⟩
  putting : ∀ tx value, s.Putting tx value → ∃ number block txIndex,
    s.Placed tx number block txIndex ∧ number ≤ s.saved ∧ value = ⟨block.hash, txIndex⟩
  deleting : ∀ tx, s.Deleting tx → ∃ number block txIndex,
    s.Placed tx number block txIndex ∧ number + txLookupLimit ≤ s.height
  window : ∀ tx number block txIndex, s.Placed tx number block txIndex → number ≤ s.saved →
    s.height < number + txLookupLimit →
    s.index tx = some ⟨block.hash, txIndex⟩ ∨ s.Putting tx ⟨block.hash, txIndex⟩
  expired : ∀ tx number block txIndex, s.Placed tx number block txIndex →
    number + txLookupLimit < s.height → s.Leaving tx
  expiring : ∀ tx number block txIndex, s.Placed tx number block txIndex →
    number + txLookupLimit = s.height →
    s.index tx = none ∨ s.Deleting tx ∨ s.saved < s.height ∨ ∃ puts, .save puts ∈ s.tasks

variable {txLookupLimit : ℕ} {s : TxIndex}

theorem mem_putsOf {block : IndexedBlock} {tx : Bytes32} {value : TxHashIndex} :
    (tx, value) ∈ putsOf block ↔
      ∃ txIndex, block.transactions[txIndex]? = some tx ∧ value = ⟨block.hash, txIndex⟩ := by
  rw [putsOf, List.mem_map]
  constructor
  · rintro ⟨⟨tx', txIndex⟩, hmem, heq⟩
    obtain ⟨rfl, rfl⟩ := Prod.mk.inj heq
    exact ⟨txIndex, List.mem_zipIdx_iff_getElem?.1 hmem, rfl⟩
  · rintro ⟨txIndex, htx, rfl⟩
    exact ⟨(tx, txIndex), List.mem_zipIdx_iff_getElem?.2 htx, rfl⟩

theorem height_add_one (h : s.Inv txLookupLimit) : s.height + 1 = s.canonical.length :=
  Nat.sub_add_cancel h.nonempty

theorem Inv.isWindow (h : s.Inv txLookupLimit) (hcompleted : s.Completed) :
    s.IsWindow txLookupLimit := by
  have hputting : ∀ tx value, ¬ s.Putting tx value := by
    rintro tx value ⟨puts, hmem, -⟩
    cases hcompleted.tasks _ hmem
  have hdeleting : ∀ tx, ¬ s.Deleting tx := by
    rintro tx ⟨txs, hmem, htx⟩
    cases hcompleted.tasks _ hmem
    cases htx
  intro tx value
  constructor
  · intro hindex
    obtain ⟨number, block, txIndex, hplaced, -, rfl⟩ := h.index tx value hindex
    refine ⟨number, block, txIndex, hplaced, ?_, rfl⟩
    have hsome : s.index tx ≠ none := by rw [hindex]; exact Option.some_ne_none _
    rcases lt_trichotomy (number + txLookupLimit) s.height with hlt | heq | hgt
    · exact absurd ((h.expired tx number block txIndex hplaced hlt).index.resolve_right
        (hdeleting tx)) hsome
    · -- the last save has ended at this height
      rcases h.expiring tx number block txIndex hplaced heq with hnone | hdel | hsaved | ⟨_, hmem⟩
      · exact absurd hnone hsome
      · exact absurd hdel (hdeleting tx)
      · exact absurd hcompleted.saved hsaved.ne
      · cases hcompleted.tasks _ hmem
    · omega
  · rintro ⟨number, block, txIndex, hplaced, hnumber, rfl⟩
    have hlt := (List.getElem?_eq_some_iff.1 hplaced.canonical).1
    have hlength := height_add_one h
    have hsaved := hcompleted.saved
    exact (h.window tx number block txIndex hplaced (by omega) (by omega)).resolve_right
      (hputting tx _)

/-! ## The events -/

theorem Placed.block_eq {tx tx' : Bytes32} {number : ℕ} {block block' : IndexedBlock}
    {txIndex txIndex' : ℕ} (h : s.Placed tx number block txIndex)
    (h' : s.Placed tx' number block' txIndex') : block = block' :=
  Option.some.inj (h.canonical.symm.trans h'.canonical)

theorem placed_append {batch : List IndexedBlock} {tx : Bytes32} {number : ℕ} {block : IndexedBlock}
    {txIndex : ℕ} (h : s.Placed tx number block txIndex) :
    ({ s with canonical := s.canonical ++ batch } : TxIndex).Placed tx number block txIndex :=
  ⟨by rw [List.getElem?_append_left (List.getElem?_eq_some_iff.1 h.canonical).1, h.canonical],
    h.transaction⟩

theorem placed_of_append {batch : List IndexedBlock} {tx : Bytes32} {number : ℕ}
    {block : IndexedBlock} {txIndex : ℕ}
    (h : ({ s with canonical := s.canonical ++ batch } : TxIndex).Placed tx number block txIndex)
    (hlt : number < s.canonical.length) : s.Placed tx number block txIndex := by
  refine ⟨?_, h.transaction⟩
  rw [← h.canonical]
  exact (List.getElem?_append_left hlt).symm

theorem Inv.found (h : s.Inv txLookupLimit) {tx : Bytes32} {value : TxHashIndex}
    (hvalue : s.index tx = some value ∨ s.Putting tx value) :
    ∃ number block txIndex, s.Placed tx number block txIndex ∧ number ≤ s.saved ∧
      value = ⟨block.hash, txIndex⟩ :=
  hvalue.elim (h.index tx value) (h.putting tx value)

theorem Inv.value_eq (h : s.Inv txLookupLimit) (hdistinct : s.Distinct) {tx : Bytes32}
    {value value' : TxHashIndex} (hvalue : s.index tx = some value ∨ s.Putting tx value)
    (hvalue' : s.index tx = some value' ∨ s.Putting tx value') : value = value' := by
  obtain ⟨number, block, txIndex, hplaced, -, rfl⟩ := h.found hvalue
  obtain ⟨number', block', txIndex', hplaced', -, rfl⟩ := h.found hvalue'
  obtain ⟨rfl, rfl⟩ := hdistinct tx _ _ _ _ _ _ hplaced hplaced'
  rw [hplaced.block_eq hplaced']

theorem Inv.putBlocks (h : s.Inv txLookupLimit) {batch : List IndexedBlock}
    (hdistinct : (s.step txLookupLimit (.putBlocks batch)).Distinct)
    (hpace : s.KeepsPace txLookupLimit (.putBlocks batch)) :
    (s.step txLookupLimit (.putBlocks batch)).Inv txLookupLimit := by
  have hlength := height_add_one h
  have hheight : (s.step txLookupLimit (.putBlocks batch)).height = s.height + batch.length := by
    have := h.nonempty
    simp only [step, height, List.length_append]
    omega
  have hsaved := h.saved
  -- what is put or deleted is of the chain as it was
  have hold : ∀ tx number block txIndex,
      (s.step txLookupLimit (.putBlocks batch)).Placed tx number block txIndex →
      (∃ value, s.index tx = some value ∨ s.Putting tx value) →
      s.Placed tx number block txIndex ∧ number ≤ s.saved := by
    rintro tx number block txIndex hplaced ⟨value, hvalue⟩
    obtain ⟨number', block', txIndex', hplaced', hle, -⟩ := h.found hvalue
    obtain ⟨rfl, rfl⟩ := hdistinct tx _ _ _ _ _ _ hplaced (placed_append hplaced')
    exact ⟨placed_of_append hplaced (by omega), hle⟩
  refine ⟨?_, ?_, ?_, ?_, ?_, ?_, ?_, ?_, ?_⟩
  · rw [step, List.length_append]
    have := h.nonempty
    omega
  · change s.saved < (s.canonical ++ batch).length
    rw [List.length_append]
    omega
  · intro block hblock
    refine h.genesis block ?_
    rw [← hblock]
    exact (List.getElem?_append_left h.nonempty).symm
  · intro tx value hindex
    obtain ⟨number, block, txIndex, hplaced, hle, hvalue⟩ := h.index tx value hindex
    exact ⟨number, block, txIndex, placed_append hplaced, hle, hvalue⟩
  · intro tx value hputting
    obtain ⟨number, block, txIndex, hplaced, hle, hvalue⟩ := h.putting tx value hputting
    exact ⟨number, block, txIndex, placed_append hplaced, hle, hvalue⟩
  · intro tx hdeleting
    obtain ⟨number, block, txIndex, hplaced, hle⟩ := h.deleting tx hdeleting
    exact ⟨number, block, txIndex, placed_append hplaced, by omega⟩
  · intro tx number block txIndex hplaced hle hlt
    have hle' : number ≤ s.saved := hle
    exact h.window tx number block txIndex (placed_of_append hplaced (by omega)) hle' (by omega)
  · intro tx number block txIndex hplaced hlt
    by_cases hin : ∃ value, s.index tx = some value ∨ s.Putting tx value
    · obtain ⟨hplaced', hle⟩ := hold tx number block txIndex hplaced hin
      have hleaving : s.Leaving tx := by
        by_cases hexpired : number + txLookupLimit < s.height
        · exact h.expired tx number block txIndex hplaced' hexpired
        · exact hpace tx number block txIndex hplaced' (by omega) (by omega)
      exact ⟨hleaving.putting, hleaving.index⟩
    · rw [not_exists] at hin
      refine ⟨fun value hputting => hin value (.inr hputting), .inl ?_⟩
      cases hindex : s.index tx with
      | none => exact hindex
      | some value => exact absurd (.inl hindex) (hin value)
  · intro tx number block txIndex hplaced heq
    rcases Nat.eq_zero_or_pos batch.length with hzero | hpos
    · -- an empty batch
      have hnil := List.length_eq_zero_iff.1 hzero
      have hplaced' : s.Placed tx number block txIndex := by
        rw [hnil] at hplaced
        exact ⟨by rw [← hplaced.canonical]; exact congrArg (·[number]?) (List.append_nil _).symm,
          hplaced.transaction⟩
      rw [hheight, hzero] at heq
      rw [hheight, hzero]
      exact h.expiring tx number block txIndex hplaced' heq
    · have hlt : s.saved < (s.step txLookupLimit (.putBlocks batch)).height := by omega
      exact .inr (.inr (.inl hlt))

/-- **What a save is to put** is of its block, all of it where that is within the limit. -/
theorem beginSave_spec (s : TxIndex) (hlimit : 0 < txLookupLimit) (number : ℕ)
    (block : IndexedBlock) :
    ∃ puts, s.beginSave txLookupLimit number block = .save puts ∧
      (∀ tx value, (tx, value) ∈ puts →
        (∃ txIndex, block.transactions[txIndex]? = some tx ∧ value = ⟨block.hash, txIndex⟩) ∧
          s.height < number + txLookupLimit) ∧
      (s.height < number + txLookupLimit → ∀ (txIndex : ℕ) (tx : Bytes32),
        block.transactions[txIndex]? = some tx → (tx, ⟨block.hash, txIndex⟩) ∈ puts) := by
  rw [beginSave]
  split
  · exact ⟨putsOf block, rfl, fun tx value hmem => ⟨mem_putsOf.1 hmem, by omega⟩,
      fun _ txIndex tx htx => mem_putsOf.2 ⟨txIndex, htx, rfl⟩⟩
  · exact ⟨[], rfl, fun tx value hmem => absurd hmem List.not_mem_nil, fun hlow => by omega⟩

theorem Inv.updateIndex (hlimit : 0 < txLookupLimit) (h : s.Inv txLookupLimit)
    (hdistinct : s.Distinct) :
    (s.step txLookupLimit .updateIndex).Inv txLookupLimit := by
  rw [step]
  cases hblock : s.canonical[s.saved + 1]? with
  | none => exact h
  | some block =>
    have hlt := (List.getElem?_eq_some_iff.1 hblock).1
    have hlength := height_add_one h
    obtain ⟨puts, hputs, hwithin, hall⟩ := s.beginSave_spec hlimit (s.saved + 1) block
    have hputting : ∀ tx value, (∃ puts', .save puts' ∈
        s.tasks ++ [s.beginSave txLookupLimit (s.saved + 1) block] ∧ (tx, value) ∈ puts') ↔
        s.Putting tx value ∨ (tx, value) ∈ puts := by
      intro tx value
      rw [hputs]
      constructor
      · rintro ⟨puts', hmem, hput⟩
        rcases List.mem_append.1 hmem with hmem | hmem
        · exact .inl ⟨puts', hmem, hput⟩
        · obtain rfl := IndexTask.save.inj (List.mem_singleton.1 hmem)
          exact .inr hput
      · rintro (⟨puts', hmem, hput⟩ | hput)
        · exact ⟨puts', List.mem_append_left _ hmem, hput⟩
        · exact ⟨puts, List.mem_append_right _ (List.mem_singleton_self _), hput⟩
    have hdeleting : ∀ tx, (∃ txs, .delete txs ∈
        s.tasks ++ [s.beginSave txLookupLimit (s.saved + 1) block] ∧ tx ∈ txs) ↔ s.Deleting tx := by
      intro tx
      rw [hputs]
      constructor
      · rintro ⟨txs, hmem, htx⟩
        rcases List.mem_append.1 hmem with hmem | hmem
        · exact ⟨txs, hmem, htx⟩
        · cases List.mem_singleton.1 hmem
      · rintro ⟨txs, hmem, htx⟩
        exact ⟨txs, List.mem_append_left _ hmem, htx⟩
    refine ⟨h.nonempty, hlt, h.genesis, ?_, ?_, ?_, ?_, ?_, ?_⟩
    · intro tx value hindex
      obtain ⟨number, block', txIndex, hplaced, hle, hvalue⟩ := h.index tx value hindex
      exact ⟨number, block', txIndex, ⟨hplaced.1, hplaced.2⟩, Nat.le_succ_of_le hle, hvalue⟩
    · intro tx value hput
      rcases (hputting tx value).1 hput with hput | hput
      · obtain ⟨number, block', txIndex, hplaced, hle, hvalue⟩ := h.putting tx value hput
        exact ⟨number, block', txIndex, ⟨hplaced.1, hplaced.2⟩, Nat.le_succ_of_le hle, hvalue⟩
      · obtain ⟨⟨txIndex, htx, hvalue⟩, -⟩ := hwithin tx value hput
        exact ⟨s.saved + 1, block, txIndex, ⟨hblock, htx⟩, le_rfl, hvalue⟩
    · intro tx hdel
      obtain ⟨number, block', txIndex, hplaced, hle⟩ := h.deleting tx ((hdeleting tx).1 hdel)
      exact ⟨number, block', txIndex, ⟨hplaced.1, hplaced.2⟩, hle⟩
    · intro tx number block' txIndex hplaced hle hwindow
      have hplaced' : s.Placed tx number block' txIndex := ⟨hplaced.1, hplaced.2⟩
      have hle' : number ≤ s.saved + 1 := hle
      rcases Nat.le_succ_iff.1 hle' with hle' | rfl
      · refine (h.window tx number block' txIndex hplaced' hle' hwindow).imp_right fun hput => ?_
        exact (hputting tx _).2 (.inl hput)
      · obtain rfl : block' = block := Option.some.inj (hplaced'.canonical.symm.trans hblock)
        have hwindow' : s.height < s.saved + 1 + txLookupLimit := hwindow
        exact .inr ((hputting tx _).2 (.inr (hall hwindow' txIndex tx hplaced'.transaction)))
    · intro tx number block' txIndex hplaced hexpired
      have hplaced' : s.Placed tx number block' txIndex := ⟨hplaced.1, hplaced.2⟩
      have hleaving := h.expired tx number block' txIndex hplaced' hexpired
      refine ⟨fun value hput => ?_, hleaving.index.imp_right (hdeleting tx).2⟩
      rcases (hputting tx value).1 hput with hput | hput
      · exact hleaving.putting value hput
      · obtain ⟨⟨txIndex', htx, -⟩, hlow⟩ := hwithin tx value hput
        obtain ⟨rfl, -⟩ := hdistinct tx _ _ _ _ _ _ hplaced' ⟨hblock, htx⟩
        have hexpired' : s.saved + 1 + txLookupLimit < s.height := hexpired
        omega
    · intro tx number block' txIndex hplaced heq
      refine .inr (.inr (.inr ⟨puts, ?_⟩))
      change .save puts ∈ s.tasks ++ [s.beginSave txLookupLimit (s.saved + 1) block]
      rw [hputs]
      exact List.mem_append_right _ (List.mem_singleton_self _)

section

variable {tasks : List IndexTask} {call : ℕ} {old new : IndexTask}

theorem mem_of_mem_set {task : IndexTask} (h : task ∈ tasks.set call new) :
    task = new ∨ task ∈ tasks :=
  (List.mem_or_eq_of_mem_set h).symm

theorem mem_set_of_mem (new : IndexTask) (hold : tasks[call]? = some old) {task : IndexTask}
    (h : task ∈ tasks) : task = old ∨ task ∈ tasks.set call new := by
  obtain ⟨i, hi⟩ := List.getElem?_of_mem h
  by_cases hcall : call = i
  · subst hcall
    exact .inl (Option.some.inj (hi.symm.trans hold))
  · refine .inr (List.mem_of_getElem? (i := i) ?_)
    rw [List.getElem?_set_ne hcall, hi]

theorem new_mem_set (hold : tasks[call]? = some old) : new ∈ tasks.set call new :=
  List.mem_set (List.getElem?_eq_some_iff.1 hold).1 _

end

/-- **What a call leaves when it goes on**: what it puts was to be put, what is not to be deleted
stays, and what it is to delete has expired. -/
structure Resumes (txLookupLimit : ℕ) (s s' : TxIndex) : Prop where
  canonical : s'.canonical = s.canonical
  saved : s'.saved = s.saved
  index : ∀ tx value, s'.index tx = some value → s.index tx = some value ∨ s.Putting tx value
  putting : ∀ tx value, s'.Putting tx value → s.Putting tx value
  deleting : ∀ tx, s'.Deleting tx → s.Deleting tx ∨
    ∃ number block txIndex, s.Placed tx number block txIndex ∧ number + txLookupLimit ≤ s.height
  kept : ∀ tx value, ¬ s.Deleting tx → s.index tx = some value ∨ s.Putting tx value →
    s'.index tx = some value ∨ s'.Putting tx value
  leaving : ∀ tx, s.Leaving tx → s'.index tx = none ∨ s'.Deleting tx
  expiring : ∀ tx number block txIndex, s.Placed tx number block txIndex →
    number + txLookupLimit = s.height →
    s'.index tx = none ∨ s'.Deleting tx ∨ s.saved < s.height ∨ ∃ puts, .save puts ∈ s'.tasks

theorem Inv.of_resumes {s' : TxIndex} (h : s.Inv txLookupLimit) (hdistinct : s.Distinct)
    (hresumes : Resumes txLookupLimit s s') : s'.Inv txLookupLimit := by
  have hheight : s'.height = s.height := by rw [height, height, hresumes.canonical]
  have hplaced : ∀ {tx number block txIndex}, s'.Placed tx number block txIndex ↔
      s.Placed tx number block txIndex := by
    intro tx number block txIndex
    constructor
    · rintro ⟨hcanonical, htransaction⟩
      exact ⟨by rw [← hresumes.canonical, hcanonical], htransaction⟩
    · rintro ⟨hcanonical, htransaction⟩
      exact ⟨by rw [hresumes.canonical, hcanonical], htransaction⟩
  have hfound : ∀ tx value, s.index tx = some value ∨ s.Putting tx value →
      ∃ number block txIndex, s'.Placed tx number block txIndex ∧ number ≤ s'.saved ∧
        value = ⟨block.hash, txIndex⟩ := by
    intro tx value hvalue
    obtain ⟨number, block, txIndex, hplaced', hrest⟩ := h.found hvalue
    rw [← hresumes.saved] at hrest
    exact ⟨number, block, txIndex, hplaced.2 hplaced', hrest⟩
  refine ⟨?_, ?_, ?_, fun tx value hindex => hfound tx value (hresumes.index tx value hindex),
    fun tx value hput => hfound tx value (.inr (hresumes.putting tx value hput)), ?_, ?_, ?_, ?_⟩
  · rw [hresumes.canonical]
    exact h.nonempty
  · rw [hresumes.saved, hresumes.canonical]
    exact h.saved
  · rw [hresumes.canonical]
    exact h.genesis
  · intro tx hdel
    obtain ⟨number, block, txIndex, hplaced', hle⟩ :=
      (hresumes.deleting tx hdel).elim (h.deleting tx) id
    exact ⟨number, block, txIndex, hplaced.2 hplaced', hheight ▸ hle⟩
  · intro tx number block txIndex hplaced' hle hwindow
    rw [hresumes.saved] at hle
    rw [hheight] at hwindow
    refine hresumes.kept tx _ (fun hdel => ?_) (h.window tx number block txIndex (hplaced.1 hplaced')
      hle hwindow)
    -- what is to be deleted is not in the window
    obtain ⟨number', block', txIndex', hplaced'', hle'⟩ := h.deleting tx hdel
    obtain ⟨rfl, -⟩ := hdistinct tx _ _ _ _ _ _ (hplaced.1 hplaced') hplaced''
    omega
  · intro tx number block txIndex hplaced' hexpired
    rw [hheight] at hexpired
    have hleaving := h.expired tx number block txIndex (hplaced.1 hplaced') hexpired
    exact ⟨fun value hput => hleaving.putting value (hresumes.putting tx value hput),
      hresumes.leaving tx hleaving⟩
  · intro tx number block txIndex hplaced' heq
    rw [hheight] at heq
    rw [hresumes.saved, hheight]
    exact hresumes.expiring tx number block txIndex (hplaced.1 hplaced') heq

theorem Inv.put (h : s.Inv txLookupLimit) (hdistinct : s.Distinct) {call : ℕ} {tx : Bytes32}
    {value : TxHashIndex} {puts : List (Bytes32 × TxHashIndex)}
    (hold : s.tasks[call]? = some (.save ((tx, value) :: puts))) :
    ({ s with
      index := Function.update s.index tx (some value)
      tasks := s.tasks.set call (.save puts) } : TxIndex).Inv txLookupLimit := by
  have hput : s.Putting tx value := ⟨_, List.mem_of_getElem? hold, List.mem_cons_self⟩
  refine h.of_resumes hdistinct ⟨rfl, rfl, ?_, ?_, ?_, ?_, ?_, ?_⟩
  · intro tx' value' hindex
    change Function.update s.index tx (some value) tx' = some value' at hindex
    rw [Function.update_apply] at hindex
    split at hindex
    · rename_i heq
      rw [heq, ← Option.some.inj hindex]
      exact .inr hput
    · exact .inl hindex
  · rintro tx' value' ⟨puts', hmem, hput'⟩
    rcases mem_of_mem_set hmem with heq | hmem
    · obtain rfl := IndexTask.save.inj heq
      exact ⟨_, List.mem_of_getElem? hold, List.mem_cons_of_mem _ hput'⟩
    · exact ⟨puts', hmem, hput'⟩
  · rintro tx' ⟨txs, hmem, htx⟩
    rcases mem_of_mem_set hmem with heq | hmem
    · cases heq
    · exact .inl ⟨txs, hmem, htx⟩
  · intro tx' value' _ hvalue
    by_cases heq : tx' = tx
    · subst heq
      rw [h.value_eq hdistinct hvalue (.inr hput)]
      exact .inl (Function.update_self _ _ _)
    · rcases hvalue with hindex | ⟨puts', hmem, hput'⟩
      · exact .inl ((Function.update_of_ne heq _ _).trans hindex)
      · refine .inr ?_
        rcases mem_set_of_mem (.save puts) hold hmem with hsave | hmem
        · obtain rfl := IndexTask.save.inj hsave
          rcases List.mem_cons.1 hput' with hhere | hput'
          · exact absurd (Prod.mk.inj hhere).1 heq
          · exact ⟨puts, new_mem_set hold, hput'⟩
        · exact ⟨puts', hmem, hput'⟩
  · intro tx' hleaving
    have hne : tx' ≠ tx := by
      rintro rfl
      exact hleaving.putting value hput
    refine hleaving.index.imp (fun hnone => (Function.update_of_ne hne _ _).trans hnone) ?_
    rintro ⟨txs, hmem, htx⟩
    rcases mem_set_of_mem (.save puts) hold hmem with heq | hmem
    · cases heq
    · exact ⟨txs, hmem, htx⟩
  · exact fun _ _ _ _ _ _ => .inr (.inr (.inr ⟨puts, new_mem_set hold⟩))

theorem Inv.delete (h : s.Inv txLookupLimit) (hdistinct : s.Distinct) {call : ℕ} {tx : Bytes32}
    {txs : List Bytes32} (hold : s.tasks[call]? = some (.delete (tx :: txs))) :
    ({ s with
      index := Function.update s.index tx none
      tasks := s.tasks.set call (.delete txs) } : TxIndex).Inv txLookupLimit := by
  have hdelete : s.Deleting tx := ⟨_, List.mem_of_getElem? hold, List.mem_cons_self⟩
  have hsaves : ∀ puts, .save puts ∈ s.tasks → .save puts ∈ s.tasks.set call (.delete txs) := by
    intro puts hmem
    rcases mem_set_of_mem (.delete txs) hold hmem with heq | hmem
    · cases heq
    · exact hmem
  -- what is not in the index, or to be deleted, stays so
  have hgone : ∀ tx', s.index tx' = none ∨ s.Deleting tx' →
      Function.update s.index tx none tx' = none ∨
        ∃ txs', .delete txs' ∈ s.tasks.set call (.delete txs) ∧ tx' ∈ txs' := by
    intro tx' hgone
    by_cases heq : tx' = tx
    · subst heq
      exact .inl (Function.update_self _ _ _)
    · refine hgone.imp (fun hnone => (Function.update_of_ne heq _ _).trans hnone) ?_
      rintro ⟨txs', hmem, htx⟩
      rcases mem_set_of_mem (.delete txs) hold hmem with hhere | hmem
      · obtain rfl := IndexTask.delete.inj hhere
        exact ⟨txs, new_mem_set hold, (List.mem_cons.1 htx).resolve_left heq⟩
      · exact ⟨txs', hmem, htx⟩
  refine h.of_resumes hdistinct
    ⟨rfl, rfl, ?_, ?_, ?_, ?_, fun tx' hleaving => hgone tx' hleaving.index, ?_⟩
  · intro tx' value' hindex
    change Function.update s.index tx none tx' = some value' at hindex
    rw [Function.update_apply] at hindex
    split at hindex
    · cases hindex
    · exact .inl hindex
  · rintro tx' value' ⟨puts', hmem, hput'⟩
    rcases mem_of_mem_set hmem with heq | hmem
    · cases heq
    · exact ⟨puts', hmem, hput'⟩
  · rintro tx' ⟨txs', hmem, htx⟩
    rcases mem_of_mem_set hmem with heq | hmem
    · obtain rfl := IndexTask.delete.inj heq
      exact .inl ⟨_, List.mem_of_getElem? hold, List.mem_cons_of_mem _ htx⟩
    · exact .inl ⟨txs', hmem, htx⟩
  · intro tx' value' hnot hvalue
    have hne : tx' ≠ tx := by
      rintro rfl
      exact hnot hdelete
    rcases hvalue with hindex | ⟨puts, hmem, hput'⟩
    · exact .inl ((Function.update_of_ne hne _ _).trans hindex)
    · exact .inr ⟨puts, hsaves puts hmem, hput'⟩
  · intro tx' number block txIndex hplaced heq
    rcases h.expiring tx' number block txIndex hplaced heq with hnone | hdel | hsaved | ⟨puts, hmem⟩
    · exact (hgone tx' (.inl hnone)).imp_right .inl
    · exact (hgone tx' (.inr hdel)).imp_right .inl
    · exact .inr (.inr (.inl hsaved))
    · exact .inr (.inr (.inr ⟨puts, hsaves puts hmem⟩))

theorem endSave_spec (s : TxIndex) (hlimit : 0 < txLookupLimit) :
    ∃ txs, s.endSave txLookupLimit = .delete txs ∧
      (∀ tx ∈ txs, ∃ number block txIndex, s.Placed tx number block txIndex ∧
        number + txLookupLimit ≤ s.height) ∧
      ∀ number block, number + txLookupLimit = s.height → s.canonical[number]? = some block →
        txs = block.transactions := by
  rw [TxIndex.endSave, if_pos hlimit]
  dsimp only
  split
  · exact ⟨[], rfl, fun tx htx => absurd htx List.not_mem_nil, fun number block hnumber _ => by omega⟩
  · split
    · rename_i block hblock
      refine ⟨block.transactions, rfl, fun tx htx => ?_, fun number block' hnumber hblock' => ?_⟩
      · obtain ⟨txIndex, hindex⟩ := List.getElem?_of_mem htx
        exact ⟨_, block, txIndex, ⟨hblock, hindex⟩, by omega⟩
      · obtain rfl : ((s.height : ℤ) - txLookupLimit).toNat = number := by omega
        rw [Option.some.inj (hblock.symm.trans hblock')]
    · rename_i hnone
      refine ⟨[], rfl, fun tx htx => absurd htx List.not_mem_nil, fun number block' hnumber hblock' => ?_⟩
      obtain rfl : ((s.height : ℤ) - txLookupLimit).toNat = number := by omega
      rw [hnone] at hblock'
      cases hblock'

theorem Inv.endSave (hlimit : 0 < txLookupLimit) (h : s.Inv txLookupLimit) (hdistinct : s.Distinct)
    {call : ℕ} (hold : s.tasks[call]? = some (.save [])) :
    ({ s with tasks := s.tasks.set call (s.endSave txLookupLimit) } : TxIndex).Inv
      txLookupLimit := by
  obtain ⟨txs, htxs, hexpired, hexpiring⟩ := s.endSave_spec hlimit
  rw [htxs]
  refine h.of_resumes hdistinct ⟨rfl, rfl, fun _ _ => .inl, ?_, ?_, ?_, ?_, ?_⟩
  · rintro tx value ⟨puts, hmem, hput⟩
    rcases mem_of_mem_set hmem with heq | hmem
    · cases heq
    · exact ⟨puts, hmem, hput⟩
  · rintro tx ⟨txs', hmem, htx⟩
    rcases mem_of_mem_set hmem with heq | hmem
    · obtain rfl := IndexTask.delete.inj heq
      exact .inr (hexpired tx htx)
    · exact .inl ⟨txs', hmem, htx⟩
  · rintro tx value _ (hindex | ⟨puts, hmem, hput⟩)
    · exact .inl hindex
    · rcases mem_set_of_mem (.delete txs) hold hmem with heq | hmem
      · obtain rfl := IndexTask.save.inj heq
        cases hput
      · exact .inr ⟨puts, hmem, hput⟩
  · intro tx hleaving
    refine hleaving.index.imp_right ?_
    rintro ⟨txs', hmem, htx⟩
    rcases mem_set_of_mem (.delete txs) hold hmem with heq | hmem
    · cases heq
    · exact ⟨txs', hmem, htx⟩
  · intro tx number block txIndex hplaced heq
    refine .inr (.inl ⟨txs, new_mem_set hold, ?_⟩)
    rw [hexpiring number block heq hplaced.canonical]
    exact List.mem_of_getElem? hplaced.transaction

theorem Distinct.congr {s' : TxIndex} (h : s'.Distinct) (hgrows : s.canonical <+: s'.canonical) :
    s.Distinct := by
  have hplaced : ∀ tx number block txIndex, s.Placed tx number block txIndex →
      s'.Placed tx number block txIndex := by
    rintro tx number block txIndex ⟨hcanonical, htransaction⟩
    obtain ⟨batch, hbatch⟩ := hgrows
    refine ⟨?_, htransaction⟩
    rw [← hbatch, List.getElem?_append_left (List.getElem?_eq_some_iff.1 hcanonical).1, hcanonical]
  intro tx number block txIndex number' block' txIndex' h1 h2
  exact h tx number block txIndex number' block' txIndex' (hplaced _ _ _ _ h1) (hplaced _ _ _ _ h2)

theorem canonical_grows (s : TxIndex) (event : IndexEvent) :
    s.canonical <+: (s.step txLookupLimit event).canonical := by
  cases event with
  | putBlocks batch => exact List.prefix_append _ _
  | updateIndex =>
    rw [TxIndex.step]
    split
    · exact List.prefix_rfl
    · exact List.prefix_rfl
  | resume call =>
    rw [TxIndex.step, resume]
    split <;> exact List.prefix_rfl

theorem Inv.step (hlimit : 0 < txLookupLimit) (h : s.Inv txLookupLimit) (event : IndexEvent)
    (hdistinct : (s.step txLookupLimit event).Distinct) (hpace : s.KeepsPace txLookupLimit event) :
    (s.step txLookupLimit event).Inv txLookupLimit := by
  have hdistinct' := hdistinct.congr (canonical_grows s event)
  cases event with
  | putBlocks batch => exact h.putBlocks hdistinct hpace
  | updateIndex => exact h.updateIndex hlimit hdistinct'
  | resume call =>
    rw [TxIndex.step, resume]
    split
    · rename_i hold
      exact h.put hdistinct' hold
    · rename_i hold
      exact h.endSave hlimit hdistinct' hold
    · rename_i hold
      exact h.delete hdistinct' hold
    · exact h
    · exact h

theorem inv_new {genesis : IndexedBlock} (hgenesis : genesis.transactions = []) :
    (new genesis).Inv txLookupLimit := by
  have hplaced : ∀ tx number block txIndex, ¬ (new genesis).Placed tx number block txIndex := by
    rintro tx number block txIndex ⟨hcanonical, htransaction⟩
    obtain rfl := List.mem_singleton.1 (List.mem_of_getElem? hcanonical)
    rw [hgenesis] at htransaction
    cases htransaction
  refine ⟨Nat.one_pos, Nat.one_pos, ?_, ?_, ?_, ?_, ?_, ?_, ?_⟩
  · intro block hblock
    obtain rfl := List.mem_singleton.1 (List.mem_of_getElem? hblock)
    exact hgenesis
  · intro tx value hindex
    cases hindex
  · rintro tx value ⟨puts, hmem, -⟩
    cases hmem
  · rintro tx ⟨txs, hmem, -⟩
    cases hmem
  · exact fun tx number block txIndex h => absurd h (hplaced tx number block txIndex)
  · exact fun tx number block txIndex h => absurd h (hplaced tx number block txIndex)
  · exact fun tx number block txIndex h => absurd h (hplaced tx number block txIndex)

/-- **In every run that keeps pace, the index is of the window** whenever all calls have
completed. -/
theorem isWindow_of_keepsPace (txLookupLimit : ℕ) (genesis : IndexedBlock)
    (events : List IndexEvent) (hlimit : 0 < txLookupLimit) (hgenesis : genesis.transactions = [])
    (hdistinct : (events.foldl (TxIndex.step txLookupLimit) (new genesis)).Distinct)
    (hpace : AlongRun (TxIndex.step txLookupLimit) (KeepsPace txLookupLimit) (new genesis) events)
    (hcompleted : (events.foldl (TxIndex.step txLookupLimit) (new genesis)).Completed) :
    (events.foldl (TxIndex.step txLookupLimit) (new genesis)).IsWindow txLookupLimit := by
  have hinv := hpace.inv (P := fun s => s.Distinct → s.Inv txLookupLimit)
    (fun s event hs hpace hdistinct =>
      (hs (hdistinct.congr (canonical_grows s event))).step hlimit event hdistinct hpace)
    (fun _ => inv_new hgenesis)
  exact (hinv hdistinct).isWindow hcompleted

/-- A word that starts with a byte. -/
def sampleWord (byte : UInt8) : Bytes32 :=
  ⟨byte :: List.replicate 31 0, by rw [List.length_cons, List.length_replicate]⟩

/-- A block with one transaction. -/
def sampleIndexed (byte : UInt8) : IndexedBlock := ⟨sampleWord byte, [sampleWord byte]⟩

def sampleIndexedGenesis : IndexedBlock := ⟨sampleWord 0, []⟩

theorem placed_sample {tx : Bytes32} {number : ℕ} {block : IndexedBlock} {txIndex : ℕ}
    (hs : s.canonical <+:
      [sampleIndexedGenesis, sampleIndexed 1, sampleIndexed 2, sampleIndexed 3])
    (h : s.Placed tx number block txIndex) :
    txIndex = 0 ∧ (number = 1 ∧ tx = sampleWord 1 ∨ number = 2 ∧ tx = sampleWord 2 ∨
      number = 3 ∧ tx = sampleWord 3) := by
  have hblock : [sampleIndexedGenesis, sampleIndexed 1, sampleIndexed 2, sampleIndexed 3][number]? =
      some block := by
    obtain ⟨batch, hbatch⟩ := hs
    rw [← hbatch, List.getElem?_append_left (List.getElem?_eq_some_iff.1 h.canonical).1,
      h.canonical]
  have hone : ∀ byte : UInt8, (sampleIndexed byte).transactions[txIndex]? = some tx →
      txIndex = 0 ∧ tx = sampleWord byte := by
    intro byte htx
    cases txIndex with
    | zero => exact ⟨rfl, (Option.some.inj htx).symm⟩
    | succ txIndex => cases htx
  have htx := h.transaction
  match number, hblock with
  | 0, hblock =>
    obtain rfl := Option.some.inj hblock
    cases htx
  | 1, hblock =>
    obtain rfl := Option.some.inj hblock
    exact ⟨(hone 1 htx).1, .inl ⟨rfl, (hone 1 htx).2⟩⟩
  | 2, hblock =>
    obtain rfl := Option.some.inj hblock
    exact ⟨(hone 2 htx).1, .inr (.inl ⟨rfl, (hone 2 htx).2⟩)⟩
  | 3, hblock =>
    obtain rfl := Option.some.inj hblock
    exact ⟨(hone 3 htx).1, .inr (.inr ⟨rfl, (hone 3 htx).2⟩)⟩

theorem distinct_sample (hs : s.canonical <+:
    [sampleIndexedGenesis, sampleIndexed 1, sampleIndexed 2, sampleIndexed 3]) : s.Distinct := by
  intro tx number block txIndex number' block' txIndex' h h'
  obtain ⟨rfl, hplace⟩ := placed_sample hs h
  obtain ⟨rfl, hplace'⟩ := placed_sample hs h'
  refine ⟨?_, rfl⟩
  have h12 : sampleWord 1 ≠ sampleWord 2 := by decide
  have h13 : sampleWord 1 ≠ sampleWord 3 := by decide
  have h23 : sampleWord 2 ≠ sampleWord 3 := by decide
  rcases hplace with ⟨rfl, rfl⟩ | ⟨rfl, rfl⟩ | ⟨rfl, rfl⟩ <;>
    rcases hplace' with ⟨rfl, heq⟩ | ⟨rfl, heq⟩ | ⟨rfl, heq⟩ <;>
    first
    | rfl
    | exact absurd heq ‹_›
    | exact absurd heq.symm ‹_›

/-- Three blocks, one after the other, each with its call completed. -/
def sampleOneByOne : List IndexEvent :=
  [.putBlocks [sampleIndexed 1], .updateIndex, .resume 0, .resume 0,
    .putBlocks [sampleIndexed 2], .updateIndex, .resume 1, .resume 1, .resume 1,
    .putBlocks [sampleIndexed 3], .updateIndex, .resume 2, .resume 2, .resume 2]

theorem isWindow_of_keepsPace_sampleOneByOne :
    (sampleOneByOne.foldl (TxIndex.step 1) (new sampleIndexedGenesis)).IsWindow 1 := by
  refine isWindow_of_keepsPace 1 sampleIndexedGenesis sampleOneByOne (by decide) rfl
    (distinct_sample List.prefix_rfl) ?_ ⟨rfl, by decide⟩
  refine ⟨?_, trivial, trivial, trivial, ?_, trivial, trivial, trivial, trivial, ?_, trivial,
    trivial, trivial, trivial, trivial⟩
  · intro tx number block txIndex hplaced hle hlt
    exact absurd hlt (by change ¬ number + 1 < 0 + 1; omega)
  · intro tx number block txIndex hplaced hle hlt
    obtain ⟨-, hplace⟩ := placed_sample (by decide) hplaced
    have hlt' : number + 1 < 1 + 1 := hlt
    omega
  · intro tx number block txIndex hplaced hle hlt
    obtain ⟨-, hplace⟩ := placed_sample (by decide) hplaced
    have hle' : 2 ≤ number + 1 := hle
    have hlt' : number + 1 < 2 + 1 := hlt
    obtain rfl : tx = sampleWord 1 := by
      rcases hplace with ⟨-, htx⟩ | ⟨rfl, -⟩ | ⟨rfl, -⟩
      · exact htx
      · omega
      · omega
    refine ⟨?_, .inl (by decide)⟩
    rintro value ⟨puts, hmem, -⟩
    have hmem' : IndexTask.save puts ∈ [IndexTask.delete [], IndexTask.delete []] := hmem
    simp at hmem'

/-- A block, and then two at once. -/
def sampleBatches : List IndexEvent :=
  [.putBlocks [sampleIndexed 1], .updateIndex, .resume 0, .resume 0,
    .putBlocks [sampleIndexed 2, sampleIndexed 3], .updateIndex, .updateIndex, .resume 1, .resume 1,
    .resume 2, .resume 2, .resume 2]

/-- **The first block is passed over**: no save ends at the height 2. -/
theorem not_isWindow_sampleBatches :
    ¬ ∀ (txLookupLimit : ℕ) (genesis : IndexedBlock) (events : List IndexEvent),
      0 < txLookupLimit → genesis.transactions = [] →
      (events.foldl (TxIndex.step txLookupLimit) (new genesis)).Distinct →
      (events.foldl (TxIndex.step txLookupLimit) (new genesis)).Completed →
      (events.foldl (TxIndex.step txLookupLimit) (new genesis)).IsWindow txLookupLimit := by
  intro hall
  have hwindow := hall 1 sampleIndexedGenesis sampleBatches (by decide) rfl
    (distinct_sample List.prefix_rfl) ⟨rfl, by decide⟩
  obtain ⟨number, block, txIndex, hplaced, hlt, -⟩ :=
    (hwindow (sampleWord 1) ⟨sampleWord 1, 0⟩).1 (by decide)
  have hlt' : (3 : ℤ) - 1 < number := hlt
  obtain ⟨-, ⟨rfl, -⟩ | ⟨rfl, -⟩ | ⟨rfl, heq⟩⟩ := placed_sample List.prefix_rfl hplaced
  · omega
  · omega
  · exact absurd heq (by decide)

end TxIndex

end Execution

end TsEthereum
