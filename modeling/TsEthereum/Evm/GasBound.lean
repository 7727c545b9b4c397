import TsEthereum.Evm.Message

/-!
# What a message can use

A message uses no more gas than its limit, and no less than none. A frame is charged
for a message after it, so it has to keep what the message may use: 63 of 64 parts of
what is left at most go to a message, and a stipend is added on both sides, after more
than it was charged for the transfer.
-/

namespace TsEthereum.Evm

variable {evm : EVM} {f f' : Frame} {w w' : World} {m : Message}

theorem Frame.useGas_eq_some {amount : ℤ} :
    f.useGas amount = some f' ↔
      amount ≤ f.gasLeft ∧ f' = { f with gasLeft := f.gasLeft - amount } := by
  rw [useGas]
  split
  · simp only [reduceCtorEq, false_iff, not_and]
    omega
  · rw [Option.some.injEq, eq_comm]
    constructor
    · intro h
      exact ⟨by omega, h⟩
    · intro h
      exact h.2

/-- A result uses at most a limit, and at least nothing. -/
def ExecResult.Within (result : ExecResult) (gasLimit : ℤ) : Prop :=
  0 ≤ result.executionGasUsed ∧ result.executionGasUsed ≤ gasLimit

namespace ExecResult.Within

variable {result : ExecResult} {gasLimit : ℤ}

theorem failed (h : 0 ≤ gasLimit) (error : EVMErrorMessage) :
    (result.failed error gasLimit).Within gasLimit := ⟨h, le_refl gasLimit⟩

theorem error (h : 0 ≤ gasLimit) (error : EVMErrorMessage) :
    (ExecResult.EVMErrorResult error gasLimit).Within gasLimit := ⟨h, le_refl gasLimit⟩

end ExecResult.Within

theorem Precompile.run_within (code : Precompile) (data : Bytes) {gasLimit : ℤ}
    (h : 0 ≤ gasLimit) : (code.run data gasLimit).Within gasLimit := by
  rw [run]
  split
  · exact .error h _
  · split
    · exact .error h _
    · split
      · exact .error h _
      · exact ⟨by simp only; omega, by simp only; omega⟩

theorem EVM.earlyExit_within (h : 0 ≤ m.gasLimit) (error : Option EVMErrorMessage) :
    (earlyExit m error).Within m.gasLimit := ⟨le_refl 0, h⟩

/-! ## What a frame may spend -/

/-- Between nothing and an amount is left. -/
def FrameEnd.Left (e : FrameEnd) (gasLeft : ℤ) : Prop :=
  0 ≤ e.frame.gasLeft ∧ e.frame.gasLeft ≤ gasLeft

/-- **A run of frames that makes no gas.** -/
def Bounded (exec : Exec) : Prop :=
  ∀ f w w' e, 0 ≤ f.gasLeft → exec f w = some (w', e) → e.Left f.gasLeft

/-- A message leaves its frame what it may use. -/
def EVM.Sent.Within (gasLeft : ℤ) : EVM.Sent → Prop
  | .trapped e => e.Left gasLeft
  | .skipped f _ _ => 0 ≤ f.gasLeft ∧ f.gasLeft ≤ gasLeft
  | .message f _ m => 0 ≤ m.gasLimit ∧ m.gasLimit ≤ f.gasLeft ∧ f.gasLeft ≤ gasLeft

/-- What is received makes no gas. -/
def EVM.Received.Within (gasLeft : ℤ) : EVM.Received → Prop
  | .trapped e => e.Left gasLeft
  | .pushed f _ => 0 ≤ f.gasLeft ∧ f.gasLeft ≤ gasLeft

theorem Frame.trap_left {gasLeft : ℤ} (h : 0 ≤ f.gasLeft) (hle : f.gasLeft ≤ gasLeft)
    (error : EVMErrorMessage) : (f.trap error).Left gasLeft := ⟨h, hle⟩

theorem Frame.outOfGas_left {gasLeft : ℤ} (h : 0 ≤ gasLeft) : f.outOfGas.Left gasLeft :=
  ⟨le_refl 0, h⟩

/-! ## Messages -/

section Messages

variable {exec : Exec} (hexec : Bounded exec)

include hexec

theorem EVM.interpret_left {code : Bytes} {e : FrameEnd} (hleft : 0 ≤ f.gasLeft)
    (h : evm.interpret exec f code w = some (w', e)) : e.Left f.gasLeft := by
  rw [interpret] at h
  split at h
  · exact hexec f w w' e hleft h
  · split at h
    · obtain ⟨-, rfl⟩ := Prod.mk.inj (Option.some.inj h)
      exact f.trap_left hleft le_rfl _
    · split at h
      · obtain ⟨-, rfl⟩ := Prod.mk.inj (Option.some.inj h)
        exact f.trap_left hleft le_rfl _
      · exact hexec { f with eof := true } w w' e hleft h

theorem EVM.runInterpreter_within {address : Bytes20} {code : Bytes} {m' : Message}
    {result : ExecResult} (hlimit : 0 ≤ m.gasLimit)
    (h : evm.runInterpreter exec m address code w = some (w', m', result)) :
    result.Within m.gasLimit ∧ m'.gasLimit = m.gasLimit := by
  rw [runInterpreter, Option.map_eq_some_iff] at h
  obtain ⟨⟨w₁, e⟩, hrun, heq⟩ := h
  simp only [Prod.mk.injEq] at heq
  obtain ⟨-, rfl, rfl⟩ := heq
  obtain ⟨hpos, hle⟩ : e.Left m.gasLimit := interpret_left hexec hlimit hrun
  refine ⟨?_, rfl⟩
  have hused : gasUsed m e = m.gasLimit - e.frame.gasLeft ∨ gasUsed m e = m.gasLimit := by
    rw [gasUsed]
    split
    · exact .inl rfl
    · exact .inl rfl
    · exact .inl rfl
    · exact .inr rfl
  constructor
  · change 0 ≤ gasUsed m e
    omega
  · change gasUsed m e ≤ m.gasLimit
    omega

theorem EVM.executeCall_within {address : Bytes20} {r : EVMResult} (hlimit : 0 ≤ m.gasLimit)
    (h : evm._executeCall exec m address w = some (w', r)) :
    r.execResult.Within m.gasLimit := by
  simp only [_executeCall] at h
  split at h
  · simp at h
  · split at h
    · obtain ⟨-, rfl⟩ := Prod.mk.inj (Option.some.inj h)
      exact earlyExit_within hlimit _
    · split at h
      · rename_i code _ _
        obtain ⟨-, rfl⟩ := Prod.mk.inj (Option.some.inj h)
        exact code.run_within m.data hlimit
      · split at h
        · simp at h
        · obtain ⟨⟨w₁, m₁, result⟩, hrun, heq⟩ := Option.map_eq_some_iff.1 h
          obtain ⟨-, rfl⟩ := Prod.mk.inj heq
          exact (runInterpreter_within hexec hlimit hrun).1

omit hexec in
theorem EVM.codeDeposit_within (evm : EVM) {initCode : Bytes} {result : ExecResult}
    (h : result.Within m.gasLimit) : (evm.codeDeposit m initCode result).1.Within m.gasLimit := by
  obtain ⟨hpos, hle⟩ := h
  have hlimit : 0 ≤ m.gasLimit := hpos.trans hle
  rw [codeDeposit]
  set returnFee : ℤ := if result.exceptionError = none then
    result.returnValue.length * evm.params.createDataGas else 0 with hfee
  have hfee : 0 ≤ returnFee := by
    rw [hfee]
    split
    · positivity
    · exact le_refl 0
  split
  · rename_i hpaid
    split
    · exact .failed hlimit _
    · exact ⟨by simp only; omega, hpaid.1⟩
  · split
    · split
      · exact .failed hlimit _
      · exact .failed hlimit _
    · split
      · rename_i hused
        exact ⟨by simp only [ExecResult.failed]; omega, hused⟩
      · exact .failed hlimit _

theorem EVM.createAt_within {initCode : Bytes} {address : Bytes20} {r : EVMResult}
    (hlimit : 0 ≤ m.gasLimit) (h : evm.createAt exec m initCode address w = some (w', r)) :
    r.execResult.Within m.gasLimit := by
  simp only [createAt] at h
  split at h
  · obtain ⟨-, rfl⟩ := Prod.mk.inj (Option.some.inj h)
    exact .error hlimit _
  · split at h
    · obtain ⟨-, rfl⟩ := Prod.mk.inj (Option.some.inj h)
      exact ⟨le_refl 0, hlimit⟩
    · obtain ⟨⟨w₁, m₁, result⟩, hrun, heq⟩ := Option.map_eq_some_iff.1 h
      obtain ⟨-, rfl⟩ := Prod.mk.inj heq
      obtain ⟨hwithin, heq⟩ := runInterpreter_within hexec (by exact hlimit) hrun
      have hdeposit : (evm.codeDeposit m₁ initCode result).1.Within m₁.gasLimit :=
        evm.codeDeposit_within (by rw [heq]; exact hwithin)
      rw [heq] at hdeposit
      exact hdeposit

theorem EVM.executeCreate_within {r : EVMResult} (hlimit : 0 ≤ m.gasLimit)
    (h : evm._executeCreate exec m w = some (w', .ok r)) : r.execResult.Within m.gasLimit := by
  rw [_executeCreate] at h
  split at h
  · simp at h
  · split at h
    · simp only [Option.some.injEq, Prod.mk.injEq, Except.ok.injEq] at h
      obtain ⟨-, rfl⟩ := h
      exact .error hlimit _
    · split at h
      · simp at h
      · obtain ⟨⟨w₁, r₁⟩, hcreate, heq⟩ := Option.map_eq_some_iff.1 h
        simp only [Prod.mk.injEq, Except.ok.injEq] at heq
        obtain ⟨-, rfl⟩ := heq
        exact createAt_within hexec hlimit hcreate

omit hexec in
theorem EVM.executionGasUsed_forfeit (r : EVMResult) :
    (forfeit r).execResult.executionGasUsed = r.execResult.executionGasUsed := by
  rw [forfeit]
  split
  · rfl
  · rfl

omit hexec in
theorem EVM.closeMessage_within {r r' : EVMResult} {gasLimit : ℤ}
    (h : evm.closeMessage w r = some (w', r')) (hr : r.execResult.Within gasLimit) :
    r'.execResult.Within gasLimit := by
  obtain ⟨w₁, -, heq⟩ := Option.map_eq_some_iff.1 h
  obtain ⟨-, rfl⟩ := Prod.mk.inj heq
  rw [ExecResult.Within, executionGasUsed_forfeit]
  exact hr

theorem EVM.execute_within {r : EVMResult} (hlimit : 0 ≤ m.gasLimit)
    (h : evm.execute exec m w = some (w', .ok r)) : r.execResult.Within m.gasLimit := by
  rw [execute] at h
  split at h
  · obtain ⟨⟨w₁, r₁⟩, hcall, heq⟩ := Option.map_eq_some_iff.1 h
    simp only [Prod.mk.injEq, Except.ok.injEq] at heq
    obtain ⟨-, rfl⟩ := heq
    exact executeCall_within hexec hlimit hcall
  · exact executeCreate_within hexec hlimit h

theorem EVM.runMessage_within {executionHardfork : Hardfork} {r : EVMResult}
    (hlimit : 0 ≤ m.gasLimit)
    (h : evm.runMessage exec executionHardfork m w = some (w', .ok r)) :
    r.execResult.Within m.gasLimit := by
  rw [runMessage] at h
  split at h
  · simp at h
  · split at h
    · simp at h
    · simp at h
    · rename_i hrun
      obtain ⟨⟨w₂, r₂⟩, hclose, heq⟩ := Option.map_eq_some_iff.1 h
      simp only [Prod.mk.injEq, Except.ok.injEq] at heq
      obtain ⟨-, rfl⟩ := heq
      exact closeMessage_within hclose (execute_within hexec hlimit hrun)

theorem EVM.runCall_within {opts : EVMRunCallOpts} {r : EVMResult}
    (hlimit : 0 ≤ opts.theMessage.gasLimit)
    (h : evm.runCall exec opts w = some (w', .ok r)) :
    r.execResult.Within opts.theMessage.gasLimit :=
  runMessage_within hexec hlimit h

end Messages

/-! ## What a message is given -/

section Sent

variable (htw : evm.hardforkGte .tangerineWhistle) {x gasLimit : ℤ}

include htw

theorem EVM.maxCallGas_le (hx : 0 ≤ x) (requested : ℤ) : evm.maxCallGas requested x ≤ x := by
  have hdiv : 0 ≤ x.tdiv 64 := Int.tdiv_nonneg hx (by omega)
  rw [maxCallGas, if_pos htw]
  simp only
  split
  · omega
  · omega

theorem EVM.maxCallGas_nonneg (hx : 0 ≤ x) {requested : ℤ} (h : 0 ≤ requested) :
    0 ≤ evm.maxCallGas requested x := by
  have hdiv : x.tdiv 64 ≤ x := Int.tdiv_le_self 64 hx
  rw [maxCallGas, if_pos htw]
  simp only
  split
  · omega
  · exact h

theorem EVM.dynamicGasCall_le {op : CallOp} (hx : 0 ≤ f.gasLeft - evm.callGas op)
    (h : evm.dynamicGasCall f op = .ok gasLimit) :
    0 ≤ gasLimit ∧ gasLimit ≤ f.gasLeft - evm.callGas op := by
  have heq : gasLimit = evm.maxCallGas op.currentGasLimit (f.gasLeft - evm.callGas op) := by
    simp only [dynamicGasCall] at h
    split at h
    · split at h
      · simp at h
      · split at h
        · simp at h
        · split at h
          · simp at h
          · exact (Except.ok.inj h).symm
    · exact (Except.ok.inj h).symm
    · split at h
      · simp at h
      · exact (Except.ok.inj h).symm
  rw [heq]
  exact ⟨maxCallGas_nonneg htw hx (by omega), maxCallGas_le htw hx _⟩

omit htw in
theorem EVM.extGasLimit_le (evm : EVM) (hx : 0 ≤ x) : evm.extGasLimit x ≤ x := by
  have hdiv : 0 ≤ x.tdiv 64 := Int.tdiv_nonneg hx (by omega)
  rw [extGasLimit]
  split
  · omega
  · omega

omit htw in
/-- A call of EIP-7069 is given at most what is left, if there is to be a message. -/
theorem EVM.dynamicGasExtcall_le {op : CallOp} (hx : 0 ≤ f.gasLeft - evm.callGas op)
    (h : evm.dynamicGasExtcall f op = .ok gasLimit) (hsent : gasLimit ≠ -1) :
    0 ≤ gasLimit ∧ gasLimit ≤ f.gasLeft - evm.callGas op := by
  simp only [dynamicGasExtcall] at h
  split at h
  · simp at h
  · split at h
    · simp at h
    · split at h
      · exact absurd (Except.ok.inj h).symm hsent
      · rename_i hcallee
        simp only [not_or] at hcallee
        rw [← Except.ok.inj h]
        exact ⟨by omega, evm.extGasLimit_le hx⟩

omit htw in
theorem EVM.callGas_nonneg (evm : EVM) (op : CallOp) : 0 ≤ evm.callGas op := by
  rw [callGas]
  split
  · split
    · omega
    · omega
  · omega
  · omega
  · omega

omit htw in
theorem EVM.baseCall_within (evm : EVM) {g : ℤ} (hm : 0 ≤ m.gasLimit) (hf : m.gasLimit ≤ f.gasLeft)
    (hg : f.gasLeft ≤ g) : (evm._baseCall f w m).Within g := by
  rw [_baseCall]
  split
  · exact ⟨by omega, hg⟩
  · exact ⟨hm, hf, hg⟩

/-- **A call leaves its frame what its message may use**: a stipend is added to both,
of at most what the transfer was charged. -/
theorem EVM.sendCall_within
    (hstipend : evm.params.callStipendGas ≤ evm.params.callValueTransferGas)
    (hleft : 0 ≤ f.gasLeft) (op : CallOp) : (evm.sendCall f w op).Within f.gasLeft := by
  have hgas := evm.callGas_nonneg op
  rw [sendCall]
  split
  · exact f.trap_left hleft le_rfl _
  · rename_i gasLimit hdynamic
    split
    · exact f.outOfGas_left hleft
    · rename_i f₁ huse
      obtain ⟨hpaid, rfl⟩ := Frame.useGas_eq_some.1 huse
      split
      · rename_i hext
        rw [if_pos hext] at hdynamic
        split
        · exact ⟨by simp only; omega, by simp only; omega⟩
        · rename_i hsent
          split
          · exact ⟨by simp only; omega, by simp only; omega⟩
          · obtain ⟨hpos, hle⟩ := dynamicGasExtcall_le (by omega) hdynamic hsent
            exact evm.baseCall_within hpos hle (by simp only; omega)
      · rename_i hext
        rw [if_neg hext] at hdynamic
        obtain ⟨hpos, hle⟩ := dynamicGasCall_le htw (by omega) hdynamic
        split
        · rename_i hvalue
          have htransfer : (evm.params.callStipendGas : ℤ) ≤ evm.callGas op := by
            rw [callGas]
            rcases hvalue.1 with hop | hop
            · rw [hop]
              simp only [if_pos hvalue.2]
              omega
            · rw [hop]
              simp only [if_pos hvalue.2]
              omega
          refine evm.baseCall_within ?_ ?_ ?_
          · change 0 ≤ gasLimit + evm.params.callStipendGas
            omega
          · change gasLimit + _ ≤ f.gasLeft - evm.callGas op + _
            omega
          · change f.gasLeft - evm.callGas op + _ ≤ f.gasLeft
            omega
        · exact evm.baseCall_within hpos hle (by simp only; omega)

omit htw in
theorem EVM.create_within (evm : EVM) {g : ℤ} (hm : 0 ≤ gasLimit) (hf : gasLimit ≤ f.gasLeft)
    (hg : f.gasLeft ≤ g) (op : CreateOp) : (evm._create f w op gasLimit).Within g := by
  rw [_create]
  split
  · exact ⟨by omega, hg⟩
  · split
    · exact ⟨by omega, hg⟩
    · simp only
      split
      · exact ⟨by simp only; omega, hg⟩
      · exact ⟨hm, hf, hg⟩

theorem EVM.sendCreate_within (hleft : 0 ≤ f.gasLeft) (op : CreateOp) :
    (evm.sendCreate f w op).Within f.gasLeft := by
  rw [sendCreate]
  split
  · exact f.trap_left hleft le_rfl _
  · split
    · exact f.trap_left hleft le_rfl _
    · simp only
      split
      · exact f.outOfGas_left hleft
      · rename_i f₁ huse
        obtain ⟨hpaid, rfl⟩ := Frame.useGas_eq_some.1 huse
        have hx : 0 ≤ f.gasLeft - op.gas := by omega
        have hpos := maxCallGas_nonneg htw hx hx
        have hle := maxCallGas_le htw hx (f.gasLeft - op.gas)
        have hcreate := evm.create_within (f := { f with gasLeft := f.gasLeft - op.gas }) (w := w)
          (g := f.gasLeft) hpos hle (by simp only; omega) op
        split
        · split
          · exact ⟨hx, by simp only [Frame.trap]; omega⟩
          · exact hcreate
        · split
          · exact ⟨hx, by simp only [Frame.trap]; omega⟩
          · split
            · exact ⟨hx, by simp only; omega⟩
            · exact hcreate

end Sent

/-! ## What a frame gets back -/

theorem EVM.gasLeft_takeOver {r : EVMResult} (h : evm.takeOver f w r = some f') :
    f'.gasLeft = f.gasLeft := by
  obtain ⟨contract, -, rfl⟩ := Option.map_eq_some_iff.1 h
  rfl

theorem EVM.receiveCall_within {r : EVMResult} {x : Received} (hr : r.execResult.Within f.gasLeft)
    (h : evm.receiveCall f w r = some x) : x.Within f.gasLeft := by
  obtain ⟨hpos, hle⟩ := hr
  have huse := Frame.useGas_eq_some.2 ⟨hle, rfl⟩
  rw [receiveCall, huse] at h
  simp only at h
  split at h
  · obtain ⟨f₁, htake, rfl⟩ := Option.map_eq_some_iff.1 h
    have hleft := gasLeft_takeOver htake
    exact ⟨by rw [hleft]; simp only; omega, by rw [hleft]; simp only; omega⟩
  · obtain rfl := Option.some.inj h
    exact ⟨by simp only; omega, by simp only; omega⟩

theorem EVM.receiveCreate_within {r : EVMResult} {x : Received}
    (hr : r.execResult.Within f.gasLeft) (h : evm.receiveCreate f w r = some x) :
    x.Within f.gasLeft := by
  obtain ⟨hpos, hle⟩ := hr
  have huse := Frame.useGas_eq_some.2 ⟨hle, rfl⟩
  rw [receiveCreate, huse] at h
  simp only at h
  split at h
  · obtain ⟨f₁, htake, rfl⟩ := Option.map_eq_some_iff.1 h
    have hleft := gasLeft_takeOver htake
    split
    · exact ⟨by rw [hleft]; simp only; omega, by rw [hleft]; simp only; omega⟩
    · exact ⟨by rw [hleft]; simp only; omega, by rw [hleft]; simp only; omega⟩
  · obtain rfl := Option.some.inj h
    exact ⟨by simp only; omega, by simp only; omega⟩

theorem EVM.gasLeft_selfDestruct (evm : EVM) (f : Frame) (w : World) (toAddress : Bytes20) :
    (evm._selfDestruct f w toAddress).1.gasLeft = f.gasLeft := by
  simp only [_selfDestruct]
  split
  · split
    · rfl
    · rfl
  · split
    · rfl
    · rfl

/-! ## Runs -/

theorem FrameEnd.Left.trans {e : FrameEnd} {g g' : ℤ} (h : e.Left g) (hle : g ≤ g') : e.Left g' :=
  ⟨h.1, h.2.trans hle⟩

/-- **A message that is sent and received makes no gas**, if what runs before and after
it makes none. -/
theorem EVM.deliver_left {exec : Exec} (hexec : Bounded exec) {sent : Sent} {g : ℤ}
    (hsent : sent.Within g) {receive : Frame → World → EVMResult → Option Received}
    (hreceive : ∀ f w r x, r.execResult.Within f.gasLeft → receive f w r = some x →
      x.Within f.gasLeft)
    {next : ℕ → Exec} (hnext : ∀ x, Bounded (next x)) {e : FrameEnd}
    (h : evm.deliver exec sent w receive next = some (w', e)) : e.Left g := by
  rcases sent with e₁ | ⟨f, w₁, x⟩ | ⟨f, w₁, m⟩
  · obtain ⟨-, rfl⟩ := Prod.mk.inj (Option.some.inj h)
    exact hsent
  · exact (hnext x f w₁ w' e hsent.1 h).trans hsent.2
  · obtain ⟨hlimit, hle, hfg⟩ := hsent
    simp only [deliver] at h
    split at h
    · simp at h
    · obtain ⟨-, rfl⟩ := Prod.mk.inj (Option.some.inj h)
      exact f.trap_left (by omega) hfg _
    · rename_i w₂ r hrun
      have hr : r.execResult.Within m.gasLimit := runCall_within hexec (by exact hlimit) hrun
      have hr : r.execResult.Within f.gasLeft := ⟨hr.1, hr.2.trans hle⟩
      split at h
      · simp at h
      · rename_i e₁ hreceived
        obtain ⟨-, rfl⟩ := Prod.mk.inj (Option.some.inj h)
        exact FrameEnd.Left.trans (hreceive f w₂ r _ hr hreceived) hfg
      · rename_i f₁ x hreceived
        obtain ⟨hpos, hle⟩ := hreceive f w₂ r _ hr hreceived
        exact (hnext x f₁ w₂ w' e hpos h).trans (hle.trans hfg)

section Run

variable (htw : evm.hardforkGte .tangerineWhistle)
  (hstipend : evm.params.callStipendGas ≤ evm.params.callValueTransferGas)

include htw hstipend

/-- **No program makes gas.** The induction is over the tree of its instructions, with
the programs of its messages. -/
theorem Program.run_bounded (program : Program) : Bounded (program.run evm) := by
  induction program with
  | halt returnValue error =>
    intro f w w' e hleft h
    obtain ⟨-, rfl⟩ := Prod.mk.inj (Option.some.inj h)
    exact ⟨hleft, le_rfl⟩
  | throw =>
    intro f w w' e hleft h
    simp [run] at h
  | observe next ih =>
    intro f w w' e hleft h
    exact ih f w f w w' e hleft h
  | useGas amount next ih =>
    intro f w w' e hleft h
    simp only [run] at h
    split at h
    · obtain ⟨-, rfl⟩ := Prod.mk.inj (Option.some.inj h)
      exact f.outOfGas_left hleft
    · rename_i f₁ huse
      obtain ⟨hpaid, rfl⟩ := Frame.useGas_eq_some.1 huse
      exact (ih _ w w' e (by simp only; omega) h).trans (by simp only; omega)
  | refundGas amount next ih =>
    intro f w w' e hleft h
    exact ih (f.refundGas amount) w w' e hleft h
  | subRefund amount next ih =>
    intro f w w' e hleft h
    simp only [run, Frame.subRefund] at h
    split at h
    · obtain ⟨-, rfl⟩ := Prod.mk.inj (Option.some.inj h)
      exact ⟨hleft, le_rfl⟩
    · rename_i f₁ hsub
      split at hsub
      · simp at hsub
      · obtain rfl := Option.some.inj hsub
        have hend := ih _ w w' e (by exact hleft) h
        exact hend
  | storageStore key value next ih =>
    intro f w w' e hleft h
    simp only [run] at h
    split at h
    · obtain ⟨-, rfl⟩ := Prod.mk.inj (Option.some.inj h)
      exact f.trap_left hleft le_rfl _
    · split at h
      · simp at h
      · rename_i f₁ w₁ hstore
        obtain ⟨contract, -, heq⟩ := Option.map_eq_some_iff.1 hstore
        obtain ⟨rfl, rfl⟩ := Prod.mk.inj heq
        have hend := ih _ _ w' e (by exact hleft) h
        exact hend
  | transientStorageStore key value next ih =>
    intro f w w' e hleft h
    simp only [run] at h
    split at h
    · obtain ⟨-, rfl⟩ := Prod.mk.inj (Option.some.inj h)
      exact f.trap_left hleft le_rfl _
    · exact ih f _ w' e hleft h
  | call op callee next ihcallee ihnext =>
    intro f w w' e hleft h
    exact EVM.deliver_left ihcallee (EVM.sendCall_within htw hstipend hleft op)
      (fun _ _ _ _ => EVM.receiveCall_within) ihnext h
  | create op init next ihinit ihnext =>
    intro f w w' e hleft h
    exact EVM.deliver_left ihinit (EVM.sendCreate_within htw hleft op)
      (fun _ _ _ _ => EVM.receiveCreate_within) ihnext h
  | selfDestruct gas toAddress =>
    intro f w w' e hleft h
    simp only [run] at h
    split at h
    · obtain ⟨-, rfl⟩ := Prod.mk.inj (Option.some.inj h)
      exact f.trap_left hleft le_rfl _
    · split at h
      · obtain ⟨-, rfl⟩ := Prod.mk.inj (Option.some.inj h)
        exact f.outOfGas_left hleft
      · rename_i f₁ huse
        obtain ⟨hpaid, rfl⟩ := Frame.useGas_eq_some.1 huse
        obtain ⟨-, rfl⟩ := Prod.mk.inj (Option.some.inj h)
        rw [FrameEnd.Left, EVM.gasLeft_selfDestruct]
        exact ⟨by simp only; omega, by simp only; omega⟩

end Run

/-! ## The frames of a run -/

/-- An instruction that sends a message: what it sends, what runs it, how its result
is received and what comes after. -/
structure Sending where
  sent : EVM.Sent
  callee : Program
  receive : Frame → World → EVMResult → Option EVM.Received
  next : ℕ → Program

/-- What an instruction sends. -/
def Program.sending (evm : EVM) : Program → Frame → World → Option Sending
  | .call op callee next, f, w => some ⟨evm.sendCall f w op, callee, evm.receiveCall, next⟩
  | .create op init next, f, w => some ⟨evm.sendCreate f w op, init, evm.receiveCreate, next⟩
  | _, _, _ => none

/-- **How a run goes on**: with the next instruction of a frame, or with the first of
the frame of a message. -/
inductive Continues (evm : EVM) : Program → Frame → World → Program → Frame → World → Prop
  | observe (next : Frame → World → Program) (f : Frame) (w : World) :
    Continues evm (.observe next) f w (next f w) f w
  | useGas {amount : ℕ} (next : Program) {f f' : Frame} (w : World) (h : f.useGas amount = some f') :
    Continues evm (.useGas amount next) f w next f' w
  | refundGas (amount : ℕ) (next : Program) (f : Frame) (w : World) :
    Continues evm (.refundGas amount next) f w next (f.refundGas amount) w
  | subRefund {amount : ℕ} (next : Program) {f f' : Frame} (w : World)
    (h : f.subRefund amount = some f') : Continues evm (.subRefund amount next) f w next f' w
  | storageStore {key : Bytes32} {value : Bytes} (next : Program) {f f' : Frame} {w w' : World}
    (h : EVM.storageStore f w key value = some (f', w')) :
    Continues evm (.storageStore key value next) f w next f' w'
  | transientStorageStore (key : Bytes32) (value : Bytes) (next : Program) (f : Frame) (w : World) :
    Continues evm (.transientStorageStore key value next) f w next f
      { w with transient := w.transient.put f.address key value }
  | skipped {p : Program} {f f' : Frame} {w w' : World} {s : Sending} {x : ℕ}
    (h : p.sending evm f w = some s) (hsent : s.sent = .skipped f' w' x) :
    Continues evm p f w (s.next x) f' w'
  | entered {p : Program} {f f' : Frame} {w w' : World} {s : Sending} {m : Message}
    (h : p.sending evm f w = some s) (hsent : s.sent = .message f' w' m) (address : Bytes20)
    (eof : Bool) (w₁ : World) :
    Continues evm p f w s.callee { EVM.startFrame m address w₁ with eof } w₁
  | received {p : Program} {f f₁ f' : Frame} {w w₁ w' : World} {s : Sending} {m : Message}
    {r : EVMResult} {x : ℕ} (h : p.sending evm f w = some s) (hsent : s.sent = .message f₁ w₁ m)
    (hrun : evm.runCall (s.callee.run evm) { message := some m } w₁ = some (w', .ok r))
    (hreceived : s.receive f₁ w' r = some (.pushed f' x)) :
    Continues evm p f w (s.next x) f' w'

/-- **The frames of a message**, each with what is left of its program. -/
inductive InMessage (evm : EVM) (program : Program) (m : Message) : Program → Frame → World → Prop
  | start (address : Bytes20) (eof : Bool) (w : World) :
    InMessage evm program m program { EVM.startFrame m address w with eof } w
  | next {p p' : Program} {f f' : Frame} {w w' : World} (h : InMessage evm program m p f w)
    (hnext : Continues evm p f w p' f' w') : InMessage evm program m p' f' w'

section Payments

variable (htw : evm.hardforkGte .tangerineWhistle)
  (hstipend : evm.params.callStipendGas ≤ evm.params.callValueTransferGas)

include htw hstipend

/-- An instruction leaves its frame what its message may use, and pays it from that. -/
theorem Program.sending_within {p : Program} {s : Sending} (hleft : 0 ≤ f.gasLeft)
    (h : p.sending evm f w = some s) :
    s.sent.Within f.gasLeft ∧
      ∀ f₁ w₁ r x, r.execResult.Within f₁.gasLeft → s.receive f₁ w₁ r = some x →
        x.Within f₁.gasLeft := by
  rw [sending.eq_def] at h
  split at h
  · obtain rfl := Option.some.inj h
    exact ⟨EVM.sendCall_within htw hstipend hleft _, fun _ _ _ _ => EVM.receiveCall_within⟩
  · obtain rfl := Option.some.inj h
    exact ⟨EVM.sendCreate_within htw hleft _, fun _ _ _ _ => EVM.receiveCreate_within⟩
  · simp at h

theorem Program.payment_le {p : Program} {s : Sending} {r : EVMResult} (hleft : 0 ≤ f.gasLeft)
    (h : p.sending evm f w = some s) {f₁ : Frame} {w₁ w₂ : World}
    (hsent : s.sent = .message f₁ w₁ m)
    (hrun : evm.runCall (s.callee.run evm) { message := some m } w₁ = some (w₂, .ok r)) :
    r.execResult.Within f₁.gasLeft := by
  have hwithin := (p.sending_within htw hstipend hleft h).1
  rw [hsent] at hwithin
  obtain ⟨hlimit, hle, -⟩ := hwithin
  have hr := EVM.runCall_within (s.callee.run_bounded htw hstipend) (by exact hlimit) hrun
  exact ⟨hr.1, hr.2.trans hle⟩

theorem Continues.gasLeft_nonneg {p p' : Program} (h : Continues evm p f w p' f' w')
    (hleft : 0 ≤ f.gasLeft) : 0 ≤ f'.gasLeft := by
  rcases h with _ | ⟨_, _, huse⟩ | _ | ⟨_, _, hsub⟩ | ⟨_, hstore⟩ | _ | ⟨h, hsent⟩ |
    ⟨h, hsent⟩ | ⟨h, hsent, hrun, hreceived⟩
  · exact hleft
  · obtain ⟨hpaid, rfl⟩ := Frame.useGas_eq_some.1 huse
    simp only
    omega
  · exact hleft
  · rw [Frame.subRefund] at hsub
    split at hsub
    · simp at hsub
    · obtain rfl := Option.some.inj hsub
      exact hleft
  · obtain ⟨contract, -, heq⟩ := Option.map_eq_some_iff.1 hstore
    obtain ⟨rfl, -⟩ := Prod.mk.inj heq
    exact hleft
  · exact hleft
  · have hwithin := (p.sending_within htw hstipend hleft h).1
    rw [hsent] at hwithin
    exact hwithin.1
  · have hwithin := (p.sending_within htw hstipend hleft h).1
    rw [hsent] at hwithin
    exact hwithin.1
  · have hpaid := p.payment_le htw hstipend hleft h hsent hrun
    exact ((p.sending_within htw hstipend hleft h).2 _ _ _ _ hpaid hreceived).1

theorem InMessage.gasLeft_nonneg {program p : Program} (hlimit : 0 ≤ m.gasLimit)
    (h : InMessage evm program m p f w) : 0 ≤ f.gasLeft := by
  induction h with
  | start address eof w => exact hlimit
  | next h hnext ih => exact hnext.gasLeft_nonneg htw hstipend ih

end Payments

/-- **The gas bound through nested messages.** Whatever the programs do, a message uses
at least nothing and at most its limit; and a frame that has sent a message, at any
depth below it, can pay what the message used. -/
theorem gas_bound_nested (evm : EVM) (htw : evm.hardforkGte .tangerineWhistle)
    (hstipend : evm.params.callStipendGas ≤ evm.params.callValueTransferGas)
    (program : Program) (opts : EVMRunCallOpts) (hlimit : 0 ≤ opts.theMessage.gasLimit) :
    (∀ w w' r, evm.runCall (program.run evm) opts w = some (w', .ok r) →
      0 ≤ r.execResult.executionGasUsed ∧
        r.execResult.executionGasUsed ≤ opts.theMessage.gasLimit) ∧
    ∀ p f w, InMessage evm program opts.theMessage p f w →
      ∀ s f' w' m w'' r, p.sending evm f w = some s → s.sent = .message f' w' m →
        evm.runCall (s.callee.run evm) { message := some m } w' = some (w'', .ok r) →
        0 ≤ r.execResult.executionGasUsed ∧ r.execResult.executionGasUsed ≤ m.gasLimit ∧
          f'.useGas r.execResult.executionGasUsed ≠ none := by
  constructor
  · intro w w' r h
    exact EVM.runCall_within (program.run_bounded htw hstipend) hlimit h
  · intro p f w hreached s f' w' m w'' r h hsent hrun
    have hleft := hreached.gasLeft_nonneg htw hstipend hlimit
    have hwithin := (p.sending_within htw hstipend hleft h).1
    rw [hsent] at hwithin
    have hbound := EVM.runCall_within (s.callee.run_bounded htw hstipend) (by exact hwithin.1) hrun
    refine ⟨hbound.1, hbound.2, ?_⟩
    have hpaid := p.payment_le htw hstipend hleft h hsent hrun
    rw [Frame.useGas_eq_some.2 ⟨hpaid.2, rfl⟩]
    simp

/-- A contract that calls once, with a value. -/
def callOnce : Program :=
  .call ⟨.CALL, 100, 1000, repeated 2, 5, []⟩ (.halt [] none) fun _ => .halt [] none

/-- A message of 7 to a code. -/
def sendSeven : EVMRunCallOpts where
  caller := some (repeated 1)
  gasLimit := some 50000
  to_ := some (repeated 3)
  value := 7
  code := some [0x00]

/-- It uses what the call costs, less the stipend that comes back. -/
theorem gas_bound_nested_callOnce :
    ∃ w' r, (someEVM .cancun).runCall (callOnce.run (someEVM .cancun)) sendSeven
        (someWorld (repeated 1) 10) = some (w', .ok r) ∧
      r.execResult.executionGasUsed = 6800 ∧
      0 ≤ r.execResult.executionGasUsed ∧ r.execResult.executionGasUsed ≤ 50000 :=
  ⟨_, _, rfl, rfl, (gas_bound_nested (someEVM .cancun) (by decide) (by decide) callOnce sendSeven
    (by decide)).1 (someWorld (repeated 1) 10) _ _ rfl⟩

end TsEthereum.Evm
