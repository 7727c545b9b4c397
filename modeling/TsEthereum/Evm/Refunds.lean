import TsEthereum.Common.Except
import TsEthereum.Common.Potential
import TsEthereum.Evm.Journal
import TsEthereum.Evm.Metering

/-!
# The refund counter over a transaction

`Interpreter._baseCall` with the handler of EIP-2200: a call starts with the
refund counter of its caller and hands its own back when it ends without an error;
when it fails its storage writes are reverted and the caller keeps its counter.
The counter of a frame always covers the slots that were not zero when the
transaction started and now are (`CounterCovers`), so `subRefund` never traps
(`refund_not_exhausted`).

Gas is not tracked: each write comes with the gas its frame has left, so what is
shown of every run holds of those that can pay.
-/

namespace TsEthereum.Evm

/-- A storage slot of an address. -/
abbrev Slot : Type := AddressString × SlotString

/-- What is stored in a slot. -/
abbrev StorageBytes : Type := {bytes : Bytes // bytes.length ≤ 32}

/-- A frame of the call stack: whose storage it writes, its refund counter, and the
storage at its checkpoint. -/
structure CallFrame where
  address : AddressString
  isStatic : Bool
  gasRefund : ℤ
  saved : Slot → StorageBytes

/-- **A transaction as it runs**: the storage, the values `originalStorageCache` has
recorded, and the frames, the running one first. -/
structure Transaction where
  storage : Slot → StorageBytes
  originals : Slot → Option StorageBytes
  frames : List CallFrame

/-- The word an `SSTORE` writes, what the journal says of the slot and the gas its
frame has left. -/
structure SstoreOp where
  key : SlotString
  val : ℕ
  warm : Bool
  gasLeft : ℤ
  val_lt : val < 2 ^ 256

/-- What happens to a transaction. A call may run the code of any address on the
storage of any. -/
inductive TransactionEvent where
  | sstore (op : SstoreOp)
  | call (address : AddressString) (isStatic : Bool)
  | ret
  | fail

/-- The transaction starts with a zero counter and no original value recorded. -/
def Transaction.start (storage : Slot → StorageBytes) (address : AddressString) (isStatic : Bool) :
    Transaction where
  storage := storage
  originals := fun _ => none
  frames := [⟨address, isStatic, 0, storage⟩]

namespace Transaction

variable (t : Transaction)

/-- **`originalStorageCache.get`**: the first value read is the one recorded. -/
def original (slot : Slot) : StorageBytes := (t.originals slot).getD (t.storage slot)

/-- What the handler reads for a write of a frame. -/
def input (frame : CallFrame) (op : SstoreOp) : SstoreInput where
  isStatic := frame.isStatic
  gasLeft := op.gasLeft
  val := op.val
  current := t.storage (frame.address, op.key)
  original := t.original (frame.address, op.key)
  writeAccountStorage := 0
  val_lt := op.val_lt
  length_current := (t.storage (frame.address, op.key)).2
  length_original := (t.original (frame.address, op.key)).2

/-- **The handler on a write of a frame.** -/
def charge (common : ChainSpec) (hardfork : Hardfork) (constantGas : ℤ) (frame : CallFrame)
    (op : SstoreOp) : Except SstoreError (ℤ × SstoreFrame) :=
  dynamicGasSstoreEIP2200 common hardfork (t.input frame op) ⟨frame.gasRefund, op.warm⟩ constantGas

/-- The running frame ends without an error: its writes are committed, and its
caller gets its counter. -/
def commit : Transaction :=
  match t.frames with
  | [] => t
  | [_] => { t with frames := [] }
  | callee :: caller :: rest =>
    { t with frames := { caller with gasRefund := callee.gasRefund } :: rest }

/-- The running frame ends with an error: its writes are reverted, and its caller
keeps its counter. -/
def revert : Transaction :=
  match t.frames with
  | [] => t
  | callee :: rest => { t with storage := callee.saved, frames := rest }

/-- An error that is not an `EVMError` ends the transaction, which is reverted. -/
def abort : Transaction :=
  { t with
    storage := (t.frames.getLast?.map (·.saved)).getD t.storage
    frames := [] }

/-- The values a write reads first are recorded as the original ones. -/
def record (slot : Slot) : Transaction :=
  { t with originals := Function.update t.originals slot (some (t.original slot)) }

/-- A slot is written by the running frame, which has its new counter. -/
def write (frame : CallFrame) (rest : List CallFrame) (op : SstoreOp) (gasRefund : ℤ) : Transaction :=
  { t with
    storage := Function.update t.storage (frame.address, op.key)
      ⟨stackBytes op.val, length_stackBytes_le op.val_lt⟩
    frames := { frame with gasRefund := gasRefund } :: rest }

/-- **An `SSTORE`**: the handler, then the gas, then the write. A trap ends the
frame, also where the gas runs out after the handler changed the counter. -/
def sstore (common : ChainSpec) (hardfork : Hardfork) (constantGas : ℤ) (frame : CallFrame)
    (rest : List CallFrame) (op : SstoreOp) : Transaction :=
  let recorded := if frame.isStatic then t else t.record (frame.address, op.key)
  match t.charge common hardfork constantGas frame op with
  | .error .TypeError => recorded.abort
  | .error _ => recorded.revert
  | .ok (gas, f) =>
    if op.gasLeft - gas < 0 then recorded.revert
    else recorded.write frame rest op f.gasRefund

/-- **A step of the transaction.** -/
def step (common : ChainSpec) (hardfork : Hardfork) (constantGas : ℤ) (t : Transaction) :
    TransactionEvent → Transaction
  | .sstore op =>
    match t.frames with
    | [] => t
    | frame :: rest => t.sstore common hardfork constantGas frame rest op
  | .call address isStatic =>
    match t.frames with
    | [] => t
    | caller :: rest =>
      { t with frames := ⟨address, isStatic, caller.gasRefund, t.storage⟩ :: caller :: rest }
  | .ret => t.commit
  | .fail => t.revert

end Transaction

/-! ## What the handler does to the counter -/

/-- The amount a parameter stands for. -/
def paramAmount : Option ParamValue → ℕ
  | some (.bigint n) => n
  | _ => 0

theorem bigInt_eq_ok {param : Option ParamValue} {amount : ℤ} :
    bigInt param = .ok amount ↔ ∃ n : ℕ, param = some (.bigint n) ∧ amount = n := by
  rcases param with _ | _ | n
  · simp [bigInt]
  · simp [bigInt]
  · simp [bigInt, eq_comm]

theorem bigInt_ne_exhausted (param : Option ParamValue) : bigInt param ≠ .error .REFUND_EXHAUSTED := by
  rcases param with _ | _ | n <;> simp [bigInt]

variable {f f' : SstoreFrame} {original current value : Bytes} {clear : Option ParamValue}
  {zero nonzero : Except SstoreError ℤ}

theorem grantClear_ok (h : grantClear value clear f = .ok f') :
    f'.gasRefund = f.gasRefund + if value.length = 0 then paramAmount clear else 0 := by
  unfold grantClear at h
  split at h
  · rename_i hv
    obtain ⟨amount, hamount, hf⟩ := bind_eq_ok.1 h
    obtain ⟨n, rfl, rfl⟩ := bigInt_eq_ok.1 hamount
    obtain rfl : f.refundGas n = f' := Except.ok.inj hf
    rw [if_pos hv]
    rfl
  · rename_i hv
    obtain rfl : f = f' := Except.ok.inj h
    rw [if_neg hv, Nat.cast_zero, add_zero]

/-- A dirty slot takes the clear refund back when it is zero, and else grants it
when it becomes zero. -/
theorem clearRefund_ok (h : clearRefund original current value clear f = .ok f') :
    f.gasRefund + (if original.length ≠ 0 ∧ current.length ≠ 0 ∧ value.length = 0 then
        (paramAmount clear : ℤ) else 0) -
      (if original.length ≠ 0 ∧ current.length = 0 then (paramAmount clear : ℤ) else 0) =
      f'.gasRefund := by
  unfold clearRefund at h
  split at h
  · rename_i ho
    have ho : original.length ≠ 0 := by omega
    split at h
    · rename_i hc
      obtain ⟨amount, hamount, hf⟩ := bind_eq_ok.1 h
      obtain ⟨n, rfl, rfl⟩ := bigInt_eq_ok.1 hamount
      unfold SstoreFrame.subRefund at hf
      obtain ⟨-, hf⟩ := ite_error_eq_ok.1 hf
      obtain rfl := Except.ok.inj hf
      simp [ho, hc, paramAmount]
    · rename_i hc
      split at h
      · rename_i hv
        obtain ⟨amount, hamount, hf⟩ := bind_eq_ok.1 h
        obtain ⟨n, rfl, rfl⟩ := bigInt_eq_ok.1 hamount
        obtain rfl : f.refundGas n = f' := Except.ok.inj hf
        simp [ho, hc, hv, paramAmount, SstoreFrame.refundGas]
      · rename_i hv
        obtain rfl : f = f' := Except.ok.inj h
        simp [hc, hv]
  · rename_i ho
    have ho : original.length = 0 := by omega
    obtain rfl : f = f' := Except.ok.inj h
    simp [ho]

/-- **It traps only when a slot that is zero takes back more than the counter
has.** -/
theorem clearRefund_exhausted (h : clearRefund original current value clear f = .error .REFUND_EXHAUSTED) :
    original.length ≠ 0 ∧ current.length = 0 ∧ f.gasRefund < paramAmount clear := by
  unfold clearRefund at h
  split at h
  · rename_i ho
    split at h
    · rename_i hc
      rcases bind_eq_error.1 h with hbig | ⟨amount, hamount, hsub⟩
      · exact absurd hbig (bigInt_ne_exhausted clear)
      · obtain ⟨n, rfl, rfl⟩ := bigInt_eq_ok.1 hamount
        unfold SstoreFrame.subRefund at hsub
        split at hsub
        · rename_i hlow
          exact ⟨by omega, hc, by simp only [paramAmount]; omega⟩
        · cases hsub
    · split at h
      · rcases bind_eq_error.1 h with hbig | ⟨amount, -, hpure⟩
        · exact absurd hbig (bigInt_ne_exhausted clear)
        · cases hpure
      · cases h
  · cases h

theorem resetRefund_ok (hzero : ∀ amount, zero = .ok amount → 0 ≤ amount)
    (hnonzero : ∀ amount, nonzero = .ok amount → 0 ≤ amount)
    (h : resetRefund original value zero nonzero f = .ok f') : f.gasRefund ≤ f'.gasRefund := by
  have hgrant : ∀ {x : Except SstoreError ℤ}, (∀ amount, x = .ok amount → 0 ≤ amount) →
      (x >>= fun amount => pure (f.refundGas amount)) = .ok f' → f.gasRefund ≤ f'.gasRefund := by
    intro x hx h
    obtain ⟨amount, hamount, hf⟩ := bind_eq_ok.1 h
    obtain rfl : f.refundGas amount = f' := Except.ok.inj hf
    have := hx amount hamount
    simp only [SstoreFrame.refundGas]
    omega
  unfold resetRefund at h
  split at h
  · split at h
    · exact hgrant hzero h
    · exact hgrant hnonzero h
  · obtain rfl : f = f' := Except.ok.inj h
    exact le_rfl

theorem bigIntSub_ne_exhausted (a b : Option ParamValue) : bigIntSub a b ≠ .error .REFUND_EXHAUSTED := by
  intro h
  rcases bind_eq_error.1 h with h | ⟨_, -, h⟩
  · exact bigInt_ne_exhausted _ h
  · rcases bind_eq_error.1 h with h | ⟨_, -, h⟩
    · exact bigInt_ne_exhausted _ h
    · cases h

theorem grantClear_ne_exhausted (value : Bytes) (clear : Option ParamValue) (f : SstoreFrame) :
    grantClear value clear f ≠ .error .REFUND_EXHAUSTED := by
  intro h
  unfold grantClear at h
  split at h
  · rcases bind_eq_error.1 h with h | ⟨_, -, h⟩
    · exact bigInt_ne_exhausted _ h
    · cases h
  · cases h

theorem resetRefund_ne_exhausted (hzero : zero ≠ .error .REFUND_EXHAUSTED)
    (hnonzero : nonzero ≠ .error .REFUND_EXHAUSTED) (original value : Bytes) (f : SstoreFrame) :
    resetRefund original value zero nonzero f ≠ .error .REFUND_EXHAUSTED := by
  intro h
  unfold resetRefund at h
  split at h
  · split at h
    · rcases bind_eq_error.1 h with h | ⟨_, -, h⟩
      · exact hzero h
      · cases h
    · rcases bind_eq_error.1 h with h | ⟨_, -, h⟩
      · exact hnonzero h
      · cases h
  · cases h

theorem noop_le_of_eip {eip eip' : ℕ} {param : ParamName} {n m : ℕ}
    (hparam : param = .sstoreInitEIP2200Gas ∨ param = .sstoreCleanEIP2200Gas)
    (hset : EIP_PARAMS eip param = some (.bigint n))
    (hnoop : EIP_PARAMS eip' .sstoreNoopEIP2200Gas = some (.bigint m)) : m ≤ n := by
  have hm : m ≤ 800 := by
    unfold EIP_PARAMS at hnoop
    split at hnoop <;> (simp_all [EIP1_PARAMS, EIP1013_PARAMS, EIP1679_PARAMS, EIP1716_PARAMS,
      EIP2929_PARAMS, EIP3529_PARAMS, EIP6800_PARAMS]; try omega)
  have hn : 2900 ≤ n := by
    unfold EIP_PARAMS at hset
    rcases hparam with rfl | rfl <;> split at hset <;> simp_all [EIP1_PARAMS, EIP1013_PARAMS,
      EIP1679_PARAMS, EIP1716_PARAMS, EIP2929_PARAMS, EIP3529_PARAMS, EIP6800_PARAMS] <;> omega
  omega

/-- **The refund for a slot that is set back is not negative**, at any hardfork of
any chain. -/
theorem bigIntSub_nonneg {common : ChainSpec} {hardfork : Hardfork} {param : ParamName} {amount : ℤ}
    (hparam : param = .sstoreInitEIP2200Gas ∨ param = .sstoreCleanEIP2200Gas)
    (h : bigIntSub (common.getParamAtHardfork param hardfork)
      (common.getParamAtHardfork .sstoreNoopEIP2200Gas hardfork) = .ok amount) : 0 ≤ amount := by
  obtain ⟨a, ha, h⟩ := bind_eq_ok.1 h
  obtain ⟨b, hb, h⟩ := bind_eq_ok.1 h
  obtain rfl : a - b = amount := Except.ok.inj h
  obtain ⟨n, hn, rfl⟩ := bigInt_eq_ok.1 ha
  obtain ⟨m, hm, rfl⟩ := bigInt_eq_ok.1 hb
  obtain ⟨eip, hset⟩ := ChainSpec.exists_eip_of_getParam hn
  obtain ⟨eip', hnoop⟩ := ChainSpec.exists_eip_of_getParam hm
  have := noop_le_of_eip hparam hset hnoop
  omega

/-- A slot that was not zero originally and is now. -/
def Cleared (original current : ℕ) : Prop := original ≠ 0 ∧ current = 0

instance (original current : ℕ) : Decidable (Cleared original current) :=
  inferInstanceAs (Decidable (_ ∧ _))

theorem gasRefund_coldAccess (common : ChainSpec) (hardfork : Hardfork) (f : SstoreFrame) :
    (coldAccess common hardfork f).2.gasRefund = f.gasRefund := by
  unfold coldAccess SstoreFrame.addWarmedStorage
  split_ifs <;> rfl

section

variable {common : ChainSpec} {hardfork : Hardfork} {runState : SstoreInput} {gas charged : ℤ}

/-- **A write moves the counter with the slot**: by the clear refund up when it
clears the slot, down when it sets a cleared one, and never further down. -/
theorem gasRefund_of_ok
    (h : dynamicGasSstoreEIP2200 common hardfork runState f gas = .ok (charged, f')) :
    f.gasRefund + paramAmount (common.getParamAtHardfork .sstoreClearRefundEIP2200Gas hardfork) *
        ((if Cleared (ofBigEndian runState.original) runState.val then 1 else 0) -
          if Cleared (ofBigEndian runState.original) (ofBigEndian runState.current) then 1 else 0) ≤
      f'.gasRefund := by
  have hcold := gasRefund_coldAccess common hardfork f
  have hvalue := length_stackBytes_le runState.val_lt
  unfold dynamicGasSstoreEIP2200 at h
  simp only at h
  obtain ⟨-, h⟩ := ite_error_eq_ok.1 h
  obtain ⟨-, h⟩ := ite_error_eq_ok.1 h
  generalize coldAccess common hardfork f = access at h hcold
  split at h
  · rename_i hnoop
    -- nothing is written that is not there
    rw [setLengthLeftStorage_eq_iff runState.length_current hvalue, ofBigEndian_stackBytes] at hnoop
    obtain ⟨_, -, h⟩ := bind_eq_ok.1 h
    obtain ⟨_, -, h⟩ := bind_eq_ok.1 h
    obtain ⟨-, rfl⟩ := Prod.mk.inj (Except.ok.inj h)
    rw [hnoop, sub_self, mul_zero, add_zero, hcold]
  · split at h
    · rename_i hclean
      rw [setLengthLeftStorage_eq_iff runState.length_original runState.length_current] at hclean
      split at h
      · rename_i hzero
        -- a slot that was zero is never cleared
        rw [length_setLengthLeftStorage_eq_zero runState.length_original] at hzero
        obtain ⟨_, -, h⟩ := bind_eq_ok.1 h
        obtain ⟨_, -, h⟩ := bind_eq_ok.1 h
        obtain ⟨-, rfl⟩ := Prod.mk.inj (Except.ok.inj h)
        simp [Cleared, hzero, hcold]
      · rename_i hzero
        rw [length_setLengthLeftStorage_eq_zero runState.length_original] at hzero
        obtain ⟨g, hgrant, h⟩ := bind_eq_ok.1 h
        obtain ⟨_, -, h⟩ := bind_eq_ok.1 h
        obtain ⟨_, -, h⟩ := bind_eq_ok.1 h
        obtain ⟨-, rfl⟩ := Prod.mk.inj (Except.ok.inj h)
        have hgrant := grantClear_ok hgrant
        simp only [length_setLengthLeftStorage_eq_zero hvalue, ofBigEndian_stackBytes, hcold] at hgrant
        have hcurrent : ¬ Cleared (ofBigEndian runState.original) (ofBigEndian runState.current) := by
          intro hcleared
          exact hzero (hclean.trans hcleared.2)
        rw [if_neg hcurrent]
        by_cases hnew : runState.val = 0 <;> simp [Cleared, hzero, hnew, hgrant]
    · rename_i hchanged hdirty
      obtain ⟨g, hclear, h⟩ := bind_eq_ok.1 h
      obtain ⟨g', hreset, h⟩ := bind_eq_ok.1 h
      obtain ⟨_, -, h⟩ := bind_eq_ok.1 h
      obtain ⟨_, -, h⟩ := bind_eq_ok.1 h
      obtain ⟨-, rfl⟩ := Prod.mk.inj (Except.ok.inj h)
      have hclear := clearRefund_ok hclear
      have hreset := resetRefund_ok (fun _ => bigIntSub_nonneg (.inl rfl))
        (fun _ => bigIntSub_nonneg (.inr rfl)) hreset
      simp only [ne_eq, length_setLengthLeftStorage_eq_zero hvalue, ofBigEndian_stackBytes, hcold,
        length_setLengthLeftStorage_eq_zero runState.length_original,
        length_setLengthLeftStorage_eq_zero runState.length_current] at hclear
      rw [setLengthLeftStorage_eq_iff runState.length_current hvalue, ofBigEndian_stackBytes] at hchanged
      refine le_trans (le_of_eq ?_) hreset
      rw [← hclear]
      by_cases ho : ofBigEndian runState.original = 0
      · simp [Cleared, ho]
      by_cases hc : ofBigEndian runState.current = 0
      · have hv : runState.val ≠ 0 := fun hv => hchanged (hc.trans hv.symm)
        simp [Cleared, ho, hc, hv]
        ring
      · simp [Cleared, ho, hc]

/-- **The handler traps with exhausted refunds only at a cleared slot**, with less
than the clear refund in the counter. -/
theorem exhausted_of_error
    (h : dynamicGasSstoreEIP2200 common hardfork runState f gas = .error .REFUND_EXHAUSTED) :
    Cleared (ofBigEndian runState.original) (ofBigEndian runState.current) ∧
      f.gasRefund < paramAmount (common.getParamAtHardfork .sstoreClearRefundEIP2200Gas hardfork) := by
  have hcold := gasRefund_coldAccess common hardfork f
  have hpay : ∀ {a b : Option ParamValue} {k : ℤ → ℤ → ℤ × SstoreFrame},
      (bigInt a >>= fun x => bigInt b >>= fun y => pure (k x y)) ≠ .error .REFUND_EXHAUSTED := by
    intro a b k h
    rcases bind_eq_error.1 h with h | ⟨_, -, h⟩
    · exact bigInt_ne_exhausted _ h
    · rcases bind_eq_error.1 h with h | ⟨_, -, h⟩
      · exact bigInt_ne_exhausted _ h
      · cases h
  unfold dynamicGasSstoreEIP2200 at h
  simp only at h
  obtain ⟨-, h⟩ := (ite_error_eq_error (by simp)).1 h
  obtain ⟨-, h⟩ := (ite_error_eq_error (by simp)).1 h
  generalize coldAccess common hardfork f = access at h hcold
  split at h
  · exact absurd h hpay
  · split at h
    · split at h
      · exact absurd h hpay
      · rcases bind_eq_error.1 h with hgrant | ⟨_, -, h⟩
        · exact absurd hgrant (grantClear_ne_exhausted _ _ _)
        · exact absurd h hpay
    · rcases bind_eq_error.1 h with hclear | ⟨g, -, h⟩
      · obtain ⟨ho, hc, hlow⟩ := clearRefund_exhausted hclear
        rw [ne_eq, length_setLengthLeftStorage_eq_zero runState.length_original] at ho
        rw [length_setLengthLeftStorage_eq_zero runState.length_current] at hc
        exact ⟨⟨ho, hc⟩, by rwa [← hcold]⟩
      · rcases bind_eq_error.1 h with hreset | ⟨_, -, h⟩
        · exact absurd hreset (resetRefund_ne_exhausted (bigIntSub_ne_exhausted _ _)
            (bigIntSub_ne_exhausted _ _) _ _ _)
        · exact absurd h hpay

end

/-! ## The counters cover the cleared slots -/

/-- The slot was not zero when the transaction started, and is in this storage. -/
def ClearedSlot (base storage : Slot → StorageBytes) (slot : Slot) : Prop :=
  Cleared (ofBigEndian (base slot).1) (ofBigEndian (storage slot).1)

/-- **Each frame's counter covers its slots**: the running frame's those of the
storage as it is, and a caller's those of the storage its callee would go back to. -/
def Covered (base : Slot → StorageBytes) (clear : ℕ) : (Slot → StorageBytes) → List CallFrame → Prop
  | _, [] => True
  | storage, frame :: rest =>
    CounterCovers clear (ClearedSlot base storage) frame.gasRefund ∧
      Covered base clear frame.saved rest

/-- What holds of a transaction that started with the storage `base`: a recorded
original value is that of `base`, a slot with none recorded was never written, and
the counters cover the cleared slots. -/
structure Transaction.Stands (base : Slot → StorageBytes) (clear : ℕ) (t : Transaction) : Prop where
  originals : ∀ slot value, t.originals slot = some value → value = base slot
  storage : ∀ slot, t.originals slot = none → t.storage slot = base slot
  saved : ∀ slot, t.originals slot = none → ∀ frame ∈ t.frames, frame.saved slot = base slot
  covered : Covered base clear t.storage t.frames

theorem Transaction.originals_record (t : Transaction) (slot slot' : Slot) :
    (t.record slot).originals slot' = if slot' = slot then some (t.original slot) else t.originals slot' := by
  rw [← Function.update_apply]
  rfl

theorem Transaction.storage_write (t : Transaction) (frame : CallFrame) (rest : List CallFrame)
    (op : SstoreOp) (gasRefund : ℤ) (slot : Slot) :
    (t.write frame rest op gasRefund).storage slot =
      if slot = (frame.address, op.key) then ⟨stackBytes op.val, length_stackBytes_le op.val_lt⟩
      else t.storage slot := by
  rw [← Function.update_apply]
  rfl

namespace Transaction.Stands

variable {base : Slot → StorageBytes} {clear : ℕ} {t : Transaction} {frame : CallFrame}
  {rest : List CallFrame}

theorem start (base : Slot → StorageBytes) (clear : ℕ) (address : AddressString) (isStatic : Bool) :
    (Transaction.start base address isStatic).Stands base clear where
  originals := fun slot value h => by cases h
  storage := fun slot _ => rfl
  saved := by
    intro slot _ frame hframe
    obtain rfl := List.mem_singleton.1 hframe
    rfl
  covered := ⟨covers_of_forall_not fun slot h => h.1 h.2, trivial⟩

/-- **The original value of a slot is the one at the start**, whenever it is first
asked for. -/
theorem original_eq (h : t.Stands base clear) (slot : Slot) : t.original slot = base slot := by
  rw [Transaction.original]
  rcases horiginal : t.originals slot with _ | value
  · exact h.storage slot horiginal
  · exact h.originals slot value horiginal

theorem record (h : t.Stands base clear) (slot : Slot) : (t.record slot).Stands base clear where
  originals := by
    intro slot' value hvalue
    rw [originals_record] at hvalue
    split at hvalue
    · rename_i heq
      rw [← Option.some.inj hvalue, heq, h.original_eq]
    · exact h.originals slot' value hvalue
  storage := by
    intro slot' hnone
    rw [originals_record] at hnone
    split at hnone
    · cases hnone
    · exact h.storage slot' hnone
  saved := by
    intro slot' hnone
    rw [originals_record] at hnone
    split at hnone
    · cases hnone
    · exact h.saved slot' hnone
  covered := h.covered

theorem revert (h : t.Stands base clear) : t.revert.Stands base clear := by
  unfold Transaction.revert
  split
  · exact h
  · rename_i callee rest hframes
    have hcovered := h.covered
    rw [hframes] at hcovered
    exact
      { originals := h.originals
        storage := fun slot hnone => h.saved slot hnone callee (by simp [hframes])
        saved := fun slot hnone frame hframe => h.saved slot hnone frame (by simp [hframes, hframe])
        covered := hcovered.2 }

theorem commit (h : t.Stands base clear) : t.commit.Stands base clear := by
  unfold Transaction.commit
  split
  · exact h
  · exact
      { originals := h.originals
        storage := h.storage
        saved := fun slot _ frame hframe => absurd hframe List.not_mem_nil
        covered := trivial }
  · rename_i callee caller rest hframes
    have hcovered := h.covered
    rw [hframes] at hcovered
    refine
      { originals := h.originals
        storage := h.storage
        saved := fun slot hnone frame hframe => ?_
        covered := ⟨hcovered.1, hcovered.2.2⟩ }
    rcases List.mem_cons.1 hframe with rfl | hframe
    · exact h.saved slot hnone caller (by simp [hframes])
    · exact h.saved slot hnone frame (by simp [hframes, hframe])

theorem abort (h : t.Stands base clear) : t.abort.Stands base clear where
  originals := h.originals
  storage := by
    intro slot hnone
    rw [Transaction.abort]
    rcases hlast : t.frames.getLast? with _ | frame
    · exact h.storage slot hnone
    · exact h.saved slot hnone frame (List.mem_of_getLast? hlast)
  saved := fun slot _ frame hframe => absurd hframe List.not_mem_nil
  covered := trivial

theorem call (h : t.Stands base clear) (hframes : t.frames = frame :: rest) (address : AddressString)
    (isStatic : Bool) :
    ({ t with frames := ⟨address, isStatic, frame.gasRefund, t.storage⟩ :: frame :: rest } :
      Transaction).Stands base clear where
  originals := h.originals
  storage := h.storage
  saved := by
    intro slot hnone frame' hframe'
    rcases List.mem_cons.1 hframe' with rfl | hframe'
    · exact h.storage slot hnone
    · exact h.saved slot hnone frame' (hframes ▸ hframe')
  covered := by
    have hcovered := h.covered
    rw [hframes] at hcovered
    exact ⟨hcovered.1, hcovered⟩

theorem write (h : t.Stands base clear) (hframes : t.frames = frame :: rest) {op : SstoreOp}
    (hrecorded : t.originals (frame.address, op.key) ≠ none) {gasRefund : ℤ}
    (hcounter : frame.gasRefund + clear *
        ((if Cleared (ofBigEndian (base (frame.address, op.key)).1) op.val then 1 else 0) -
          if Cleared (ofBigEndian (base (frame.address, op.key)).1)
            (ofBigEndian (t.storage (frame.address, op.key)).1) then 1 else 0) ≤ gasRefund) :
    (t.write frame rest op gasRefund).Stands base clear where
  originals := h.originals
  storage := by
    intro slot hnone
    have hne : slot ≠ (frame.address, op.key) := by
      rintro rfl
      exact hrecorded hnone
    rw [storage_write, if_neg hne]
    exact h.storage slot hnone
  saved := by
    intro slot hnone frame' hframe'
    have hframe : frame.saved slot = base slot := h.saved slot hnone frame (by simp [hframes])
    rcases List.mem_cons.1 hframe' with rfl | hframe'
    · exact hframe
    · exact h.saved slot hnone frame' (by simp [hframes, hframe'])
  covered := by
    have hcovered := h.covered
    rw [hframes] at hcovered
    refine ⟨hcovered.1.update (by omega) (frame.address, op.key) (fun slot hne => ?_) ?_, hcovered.2⟩
    · rw [ClearedSlot, storage_write, if_neg hne, ClearedSlot]
    · refine le_trans (le_of_eq ?_) hcounter
      simp only [ClearedSlot, storage_write, if_pos, ofBigEndian_stackBytes]
      congr

variable {common : ChainSpec} {hardfork : Hardfork} {constantGas : ℤ}

theorem sstore (h : t.Stands base (paramAmount (common.getParamAtHardfork
      .sstoreClearRefundEIP2200Gas hardfork))) (hframes : t.frames = frame :: rest) (op : SstoreOp) :
    (t.sstore common hardfork constantGas frame rest op).Stands base (paramAmount
      (common.getParamAtHardfork .sstoreClearRefundEIP2200Gas hardfork)) := by
  have hrecord := h.record (frame.address, op.key)
  unfold Transaction.sstore
  rcases hcharge : t.charge common hardfork constantGas frame op with e | ⟨gas, f⟩
  · have hrecorded : (if frame.isStatic then t else t.record (frame.address, op.key)).Stands base
        (paramAmount (common.getParamAtHardfork .sstoreClearRefundEIP2200Gas hardfork)) := by
      split
      · exact h
      · exact hrecord
    cases e with
    | TypeError => exact hrecorded.abort
    | STATIC_STATE_CHANGE => exact hrecorded.revert
    | OUT_OF_GAS => exact hrecorded.revert
    | REFUND_EXHAUSTED => exact hrecorded.revert
  · -- the handler returned, so the frame is not static and the original value is recorded
    have hstatic : ¬ frame.isStatic := by
      intro hstatic
      have herror : t.charge common hardfork constantGas frame op = .error .STATIC_STATE_CHANGE :=
        if_pos hstatic
      rw [herror] at hcharge
      cases hcharge
    have hcounter := gasRefund_of_ok hcharge
    rw [show (t.input frame op).original = (base (frame.address, op.key)).1 from
      congrArg Subtype.val (h.original_eq _)] at hcounter
    simp only [if_neg hstatic]
    split
    · exact hrecord.revert
    · refine hrecord.write hframes ?_ hcounter
      rw [originals_record, if_pos rfl]
      simp

theorem step (h : t.Stands base (paramAmount (common.getParamAtHardfork
      .sstoreClearRefundEIP2200Gas hardfork))) (event : TransactionEvent) :
    (t.step common hardfork constantGas event).Stands base (paramAmount
      (common.getParamAtHardfork .sstoreClearRefundEIP2200Gas hardfork)) := by
  cases event with
  | sstore op =>
    unfold Transaction.step
    rcases hframes : t.frames with _ | ⟨frame, rest⟩
    · exact h
    · exact h.sstore hframes op
  | call address isStatic =>
    unfold Transaction.step
    rcases hframes : t.frames with _ | ⟨frame, rest⟩
    · exact h
    · exact h.call hframes address isStatic
  | ret => exact h.commit
  | fail => exact h.revert

theorem run (h : t.Stands base (paramAmount (common.getParamAtHardfork
      .sstoreClearRefundEIP2200Gas hardfork))) (events : List TransactionEvent) :
    (events.foldl (Transaction.step common hardfork constantGas) t).Stands base (paramAmount
      (common.getParamAtHardfork .sstoreClearRefundEIP2200Gas hardfork)) := by
  induction events generalizing t with
  | nil => exact h
  | cons event events ih => exact ih (h.step event)

end Transaction.Stands

/-- **The refund counter never underflows.** Whatever a transaction does after it
started with a zero counter, in any tree of calls that commit or revert, the handler
of EIP-2200 does not trap with exhausted refunds at the next write of the running
frame. -/
theorem refund_not_exhausted (common : ChainSpec) (hardfork : Hardfork) (constantGas : ℤ)
    (storage : Slot → StorageBytes) (address : AddressString) (isStatic : Bool)
    (events : List TransactionEvent) (op : SstoreOp) :
    ∀ frame ∈ (events.foldl (Transaction.step common hardfork constantGas)
        (.start storage address isStatic)).frames.head?,
      (events.foldl (Transaction.step common hardfork constantGas)
          (.start storage address isStatic)).charge common hardfork constantGas frame op ≠
        .error .REFUND_EXHAUSTED := by
  intro frame hframe herror
  have hstands : (events.foldl (Transaction.step common hardfork constantGas)
      (.start storage address isStatic)).Stands storage (paramAmount (common.getParamAtHardfork
        .sstoreClearRefundEIP2200Gas hardfork)) :=
    (Transaction.Stands.start storage _ address isStatic).run events
  generalize events.foldl (Transaction.step common hardfork constantGas)
    (.start storage address isStatic) = t at hframe herror hstands
  obtain ⟨rest, hframes⟩ : ∃ rest, t.frames = frame :: rest := by
    rcases hframes : t.frames with _ | ⟨head, rest⟩
    · rw [hframes] at hframe
      cases hframe
    · rw [hframes] at hframe
      obtain rfl : head = frame := Option.some.inj hframe
      exact ⟨rest, rfl⟩
  obtain ⟨hcleared, hlow⟩ := exhausted_of_error herror
  rw [show (t.input frame op).original = (storage (frame.address, op.key)).1 from
    congrArg Subtype.val (hstands.original_eq _)] at hcleared
  have hcovered := hstands.covered
  rw [hframes] at hcovered
  have := hcovered.1.amount_le (x := (frame.address, op.key)) hcleared
  simp only at hlow
  omega

/-! ## A refund taken back by a callee -/

/-- Every slot holds one. -/
def ones : Slot → StorageBytes := fun _ => ⟨[1], by decide⟩

/-- The first slot is cleared. -/
def clearFirst : SstoreOp := ⟨"00", 0, true, 100000, by decide⟩

/-- The first slot is set. -/
def setFirst : SstoreOp := ⟨"00", 2, true, 100000, by decide⟩

/-- A frame clears its first slot and calls its own address. -/
def clearAndCall : List TransactionEvent := [.sstore clearFirst, .call "01" false]

/-- The called frame has the clear refund in its counter. -/
def calledFrame : CallFrame where
  address := "01"
  isStatic := false
  gasRefund := 15000
  saved := (Transaction.step .all .istanbul 0 (.start ones "01" false) (.sstore clearFirst)).storage

/-- It sets the slot again, and takes the refund back. -/
theorem refund_not_exhausted_callee :
    (clearAndCall.foldl (Transaction.step .all .istanbul 0) (.start ones "01" false)).charge
      .all .istanbul 0 calledFrame setFirst ≠ .error .REFUND_EXHAUSTED :=
  refund_not_exhausted .all .istanbul 0 ones "01" false clearAndCall setFirst calledFrame rfl

end TsEthereum.Evm
