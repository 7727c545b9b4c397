import TsEthereum.Evm.Message

/-!
# What a message leaves

The checkpoints and the ether of a message. A frame keeps a copy of its account and
sends no more than that has: the copy has the balance of the state (`Coherent`), as it is
read anew after each message that changed it. So no message below another is thrown
for its value, each closes the checkpoint it opened, and every transfer is covered.

The checkpoint of a message in transient storage is opened by the hardfork of its
block and closed by that of the EVM (`runCall_balanced_iff`).
-/

namespace TsEthereum.Evm

open EVM

variable {evm : EVM} {exec : Exec} {f f' : Frame} {w w' w'' : World} {m : Message}

/-- The ether there is, with what was burned. -/
noncomputable def State.ether (s : State) : ℕ := s.total + s.burned

/-- **The nesting depths of two worlds are the same**, with what is saved in them. -/
structure SameDepths (w w' : World) : Prop where
  journalHeight : w'.journalHeight = w.journalHeight
  saved : w'.saved = w.saved
  indices : w'.transient.indices = w.transient.indices

namespace SameDepths

theorem refl (w : World) : SameDepths w w := ⟨rfl, rfl, rfl⟩

theorem trans (h : SameDepths w w') (h' : SameDepths w' w'') : SameDepths w w'' where
  journalHeight := h'.journalHeight.trans h.journalHeight
  saved := h'.saved.trans h.saved
  indices := h'.indices.trans h.indices

theorem putAccount (w : World) (address : Bytes20) (account : AccountFields) :
    SameDepths w (w.putAccount address account) := ⟨rfl, rfl, rfl⟩

end SameDepths

/-- The copy that a frame has of its account has the balance of the state. -/
def Coherent (f : Frame) (w : World) : Prop := f.contract.balance = w.state.balance f.address

/-! ## Ether -/

theorem ether_putAccount_of_eq {address : Bytes20} {account : AccountFields}
    (h : account.balance = w.state.balance address) :
    (w.putAccount address account).state.ether = w.state.ether := by
  change (w.state.putAccount address account).total + w.state.burned = _
  rw [State.total_congr (w.state.balance_putAccount_of_eq address account h)]
  rfl

theorem ether_putAccount (w : World) (address : Bytes20) (account : AccountFields) :
    (w.putAccount address account).state.ether + w.state.balance address =
      w.state.ether + account.balance := by
  have htotal := w.state.total_putAccount address account
  change (w.state.putAccount address account).total + w.state.burned + _ =
    w.state.total + w.state.burned + _
  omega

theorem reduceSenderBalance_ok
    (h : _reduceSenderBalance (w.state.account m.caller) m w = .ok w') :
    SameDepths w w' ∧ w'.state.ether + m.value = w.state.ether ∧
      m.value ≤ w.state.balance m.caller := by
  rw [_reduceSenderBalance] at h
  split at h
  · simp at h
  · rename_i hle
    obtain rfl := Except.ok.inj h
    have hcovered : m.value ≤ w.state.balance m.caller := Nat.le_of_not_lt hle
    have hput := ether_putAccount w m.caller
      { w.state.account m.caller with balance := (w.state.account m.caller).balance - m.value }
    refine ⟨.putAccount w _ _, ?_, hcovered⟩
    have heq : (w.state.account m.caller).balance = w.state.balance m.caller := rfl
    simp only [heq] at hput ⊢
    omega

theorem addToBalance_ok {toAccount : AccountFields} {address : Bytes20}
    (hbalance : toAccount.balance = w.state.balance address)
    (h : _addToBalance toAccount m address w = .ok w') :
    SameDepths w w' ∧ w'.state.ether = w.state.ether + m.value := by
  rw [_addToBalance] at h
  split at h
  · simp at h
  · obtain rfl := Except.ok.inj h
    have hput := ether_putAccount w address
      { toAccount with balance := toAccount.balance + m.value }
    refine ⟨.putAccount w _ _, ?_⟩
    simp only [hbalance] at hput ⊢
    omega

theorem SameDepths.attempt {x : Except EVMErrorMessage World} {error : Option EVMErrorMessage}
    (h : ∀ w', x = .ok w' → SameDepths w w') : SameDepths w (attempt w error x).1 := by
  rcases x with e | w₁
  · exact .refl w
  · exact h w₁ rfl

theorem attempt_snd_eq_none {x : Except EVMErrorMessage World} {error : Option EVMErrorMessage}
    (h : (attempt w error x).2 = none) : x = .ok (attempt w error x).1 ∧ error = none := by
  rcases x with e | w₁
  · simp [attempt] at h
  · exact ⟨rfl, h⟩

theorem SameDepths.transfer (m : Message) (address : Bytes20) (w : World) :
    SameDepths w (transfer m address w).1 := by
  rw [Evm.transfer]
  split
  · exact .refl w
  · exact (SameDepths.attempt fun _ h => (reduceSenderBalance_ok h).1).trans
      (SameDepths.attempt fun _ h => (addToBalance_ok rfl h).1)

/-- **A transfer without an error moves ether**, and makes none: also from an account
to itself. -/
theorem ether_transfer {address : Bytes20} (h : (transfer m address w).2 = none) :
    (transfer m address w).1.state.ether = w.state.ether := by
  simp only [transfer] at h ⊢
  split
  · rfl
  · rename_i hdelegate
    rw [if_neg hdelegate] at h
    obtain ⟨hadd, hreduce⟩ := attempt_snd_eq_none h
    obtain ⟨hreduce, -⟩ := attempt_snd_eq_none hreduce
    have hdebit := (reduceSenderBalance_ok hreduce).2.1
    have hcredit := (addToBalance_ok rfl hadd).2
    omega

theorem balance_contractAccount (evm : EVM) (address : Bytes20) (w : World) :
    (evm.contractAccount address w).balance = w.state.balance address := by
  rw [contractAccount]
  split
  · rfl
  · rfl

theorem SameDepths.endow (evm : EVM) (m : Message) (address : Bytes20) (w : World) :
    SameDepths w (evm.endow m address w).1 := by
  have hopen : SameDepths w (openContract address w) := ⟨rfl, rfl, rfl⟩
  refine hopen.trans (SameDepths.attempt fun _ h => ?_)
  exact (addToBalance_ok (balance_contractAccount evm address _) h).1

theorem ether_openContract (address : Bytes20) (w : World) :
    (openContract address w).state.ether = w.state.ether := by
  have hput : (w.putAccount address (w.state.account address)).state.ether = w.state.ether :=
    ether_putAccount_of_eq rfl
  change ((w.putAccount address (w.state.account address)).state.clearStorage address).total + _ = _
  rw [State.total_congr (State.balance_clearStorage _ address)]
  exact hput

theorem ether_endow {address : Bytes20} (h : (evm.endow m address w).2 = none) :
    (evm.endow m address w).1.state.ether = w.state.ether + m.value := by
  obtain ⟨hadd, -⟩ := attempt_snd_eq_none h
  have hcredit := (addToBalance_ok (balance_contractAccount evm address _) hadd).2
  rw [ether_openContract] at hcredit
  exact hcredit

theorem attempt_snd_ne {x : Except EVMErrorMessage World} {error : Option EVMErrorMessage}
    {e : EVMErrorMessage} (hx : x ≠ .error e) (he : error ≠ some e) :
    (attempt w error x).2 ≠ some e := by
  rcases x with e₁ | w₁
  · intro h
    exact hx (congrArg _ (Option.some.inj h))
  · exact he

theorem addToBalance_ne (toAccount : AccountFields) (m : Message) (address : Bytes20) (w : World) :
    _addToBalance toAccount m address w ≠ .error .CODESTORE_OUT_OF_GAS := by
  rw [_addToBalance]
  split
  · simp
  · simp

theorem transfer_snd_ne (m : Message) (address : Bytes20) (w : World) :
    (transfer m address w).2 ≠ some .CODESTORE_OUT_OF_GAS := by
  rw [transfer]
  split
  · simp
  · refine attempt_snd_ne (addToBalance_ne _ _ _ _) (attempt_snd_ne ?_ (by simp))
    rw [_reduceSenderBalance]
    split
    · simp
    · simp

theorem endow_snd_ne (evm : EVM) (m : Message) (address : Bytes20) (w : World) :
    (evm.endow m address w).2 ≠ some .CODESTORE_OUT_OF_GAS :=
  attempt_snd_ne (addToBalance_ne _ _ _ _) (by simp)

theorem Precompile.exceptionError_run_ne (code : Precompile) (data : Bytes) (gasLimit : ℤ) :
    (code.run data gasLimit).exceptionError ≠ some .CODESTORE_OUT_OF_GAS := by
  rw [run]
  split
  · rename_i error _
    exact fun h => error.2 (Option.some.inj h)
  · split
    · simp [ExecResult.OOGResult, ExecResult.EVMErrorResult]
    · split
      · rename_i error _
        exact fun h => error.2 (Option.some.inj h)
      · simp

/-! ## Frames and their messages -/

/-- What a frame leaves: the depths, and all ether. -/
structure Leaves (w w' : World) (e : FrameEnd) : Prop where
  depths : SameDepths w w'
  ether : w'.state.ether = w.state.ether
  exceptionError : e.exceptionError ≠ some .CODESTORE_OUT_OF_GAS

/-- **A run of frames that keeps the depths and the ether**, of frames that know their
balance. -/
def Sound (exec : Exec) : Prop :=
  ∀ f w w' e, Coherent f w → exec f w = some (w', e) → Leaves w w' e

theorem Leaves.trap {error : EVMErrorMessage} (h : error ≠ .CODESTORE_OUT_OF_GAS) :
    Leaves w w (f.trap error) where
  depths := .refl w
  ether := rfl
  exceptionError heq := h (Option.some.inj heq)

theorem Leaves.of_step {e : FrameEnd} (hdepths : SameDepths w w')
    (hether : w'.state.ether = w.state.ether) (h : Leaves w' w'' e) : Leaves w w'' e where
  depths := hdepths.trans h.depths
  ether := h.ether.trans hether
  exceptionError := h.exceptionError

theorem SameDepths.postMessageCleanup (evm : EVM) (m : Message) (w : World) :
    SameDepths w (evm.postMessageCleanup m w) ∧
      (evm.postMessageCleanup m w).state = w.state := by
  rw [EVM.postMessageCleanup]
  split
  · exact ⟨⟨rfl, rfl, rfl⟩, rfl⟩
  · exact ⟨.refl w, rfl⟩

section Messages

variable (hexec : Sound exec)

include hexec

theorem interpret_leaves {code : Bytes} {e : FrameEnd} (hf : Coherent f w)
    (h : evm.interpret exec f code w = some (w', e)) : Leaves w w' e := by
  rw [interpret] at h
  split at h
  · exact hexec f w w' e hf h
  · split at h
    · obtain ⟨rfl, rfl⟩ := Prod.mk.inj (Option.some.inj h)
      exact .trap (by decide)
    · split at h
      · obtain ⟨rfl, rfl⟩ := Prod.mk.inj (Option.some.inj h)
        exact .trap (by decide)
      · exact hexec { f with eof := true } w w' e hf h

theorem runInterpreter_leaves {address : Bytes20} {code : Bytes} {m' : Message}
    {result : ExecResult} (h : evm.runInterpreter exec m address code w = some (w', m', result)) :
    SameDepths w w' ∧ w'.state.ether = w.state.ether ∧
      result.exceptionError ≠ some .CODESTORE_OUT_OF_GAS := by
  rw [runInterpreter, Option.map_eq_some_iff] at h
  obtain ⟨⟨w₁, e⟩, hrun, heq⟩ := h
  simp only [Prod.mk.injEq] at heq
  obtain ⟨rfl, rfl, rfl⟩ := heq
  have hleaves := interpret_leaves hexec (by exact rfl) hrun
  exact ⟨hleaves.depths, hleaves.ether, hleaves.exceptionError⟩

/-- **A call** keeps the depths; without an error it keeps the ether, and its error is
none of the deposit of a code. -/
theorem executeCall_leaves {address : Bytes20} {r : EVMResult}
    (h : evm._executeCall exec m address w = some (w', r)) :
    SameDepths w w' ∧ (r.execResult.exceptionError = none → w'.state.ether = w.state.ether) ∧
      r.execResult.exceptionError ≠ some .CODESTORE_OUT_OF_GAS := by
  have htransfer := SameDepths.transfer m address w
  have herror := transfer_snd_ne m address w
  simp only [_executeCall] at h
  split at h
  · simp at h
  · split at h
    · obtain ⟨rfl, rfl⟩ := Prod.mk.inj (Option.some.inj h)
      exact ⟨htransfer, fun hnone => ether_transfer hnone, herror⟩
    · rename_i hgoes
      simp only [not_or, Bool.not_eq_true, Option.isSome_eq_false_iff, Option.isNone_iff_eq_none]
        at hgoes
      have hether := ether_transfer hgoes.2
      split at h
      · obtain ⟨rfl, rfl⟩ := Prod.mk.inj (Option.some.inj h)
        obtain ⟨hclean, hstate⟩ := SameDepths.postMessageCleanup evm m (transfer m address w).1
        refine ⟨htransfer.trans hclean, fun _ => ?_, Precompile.exceptionError_run_ne _ _ _⟩
        rw [hstate]
        exact hether
      · split at h
        · simp at h
        · obtain ⟨⟨w₁, m₁, result⟩, hrun, heq⟩ := Option.map_eq_some_iff.1 h
          obtain ⟨rfl, rfl⟩ := Prod.mk.inj heq
          obtain ⟨hdepths, hran, herror⟩ := runInterpreter_leaves hexec hrun
          obtain ⟨hclean, hstate⟩ := SameDepths.postMessageCleanup evm m₁ w₁
          refine ⟨(htransfer.trans hdepths).trans hclean, fun _ => ?_, herror⟩
          rw [hstate, hran]
          exact hether

omit hexec in
theorem saveCode_leaves (evm : EVM) (address : Bytes20) (result : ExecResult) (oog : Bool)
    (w : World) : SameDepths w (evm.saveCode address result oog w) ∧
      (evm.saveCode address result oog w).state.ether = w.state.ether := by
  rw [saveCode]
  split
  · refine ⟨⟨rfl, rfl, rfl⟩, ?_⟩
    change (w.state.putCode _ _ _).total + _ = _
    rw [State.total_congr (w.state.balance_putCode address _ _)]
    rfl
  · split
    · exact ⟨.putAccount w _ _, ether_putAccount_of_eq rfl⟩
    · exact ⟨.refl w, rfl⟩

/-- **A create, from its address on**: the contract has the value, if it has no error
that takes all back. -/
theorem createAt_leaves {initCode : Bytes} {address : Bytes20} {r : EVMResult}
    (h : evm.createAt exec m initCode address w = some (w', r)) :
    SameDepths w w' ∧
      (r.execResult.exceptionError = none ∨
          r.execResult.exceptionError = some .CODESTORE_OUT_OF_GAS →
        w'.state.ether = w.state.ether + m.value) := by
  simp only [createAt] at h
  split at h
  · obtain ⟨rfl, rfl⟩ := Prod.mk.inj (Option.some.inj h)
    refine ⟨.refl w, fun hno => ?_⟩
    simp [ExecResult.EVMErrorResult] at hno
  · have hendow := SameDepths.endow evm (evm.createdMessage m initCode address) address w
    split at h
    · obtain ⟨rfl, rfl⟩ := Prod.mk.inj (Option.some.inj h)
      refine ⟨hendow, fun hno => ether_endow ?_⟩
      rcases hno with hno | hno
      · exact hno
      · exact absurd hno (endow_snd_ne evm _ address w)
    · rename_i hgoes
      simp only [not_or, Bool.not_eq_true, Option.isSome_eq_false_iff, Option.isNone_iff_eq_none]
        at hgoes
      have hether := ether_endow hgoes.2
      obtain ⟨⟨w₁, m₁, result⟩, hrun, heq⟩ := Option.map_eq_some_iff.1 h
      obtain ⟨rfl, rfl⟩ := Prod.mk.inj heq
      obtain ⟨hdepths, hran, -⟩ := runInterpreter_leaves hexec hrun
      obtain ⟨hsave, hsaved⟩ := saveCode_leaves evm address (evm.codeDeposit m₁ initCode result).1
        (evm.codeDeposit m₁ initCode result).2 w₁
      obtain ⟨hclean, hstate⟩ := SameDepths.postMessageCleanup evm m₁
        (evm.saveCode address (evm.codeDeposit m₁ initCode result).1
          (evm.codeDeposit m₁ initCode result).2 w₁)
      refine ⟨((hendow.trans hdepths).trans hsave).trans hclean, fun _ => ?_⟩
      rw [hstate, hsaved, hran]
      exact hether

theorem executeCreate_leaves {r : EVMResult}
    (h : evm._executeCreate exec m w = some (w', .ok r)) :
    SameDepths w w' ∧
      (r.execResult.exceptionError = none ∨
          r.execResult.exceptionError = some .CODESTORE_OUT_OF_GAS →
        w'.state.ether = w.state.ether) := by
  rw [_executeCreate] at h
  split at h
  · simp at h
  · rename_i w₁ hreduce
    obtain ⟨hdepths, hdebit, -⟩ := reduceSenderBalance_ok hreduce
    split at h
    · simp only [Option.some.injEq, Prod.mk.injEq, Except.ok.injEq] at h
      obtain ⟨rfl, rfl⟩ := h
      refine ⟨hdepths, fun hno => ?_⟩
      simp [ExecResult.EVMErrorResult] at hno
    · split at h
      · simp at h
      · obtain ⟨⟨w₂, r₂⟩, hcreate, heq⟩ := Option.map_eq_some_iff.1 h
        simp only [Prod.mk.injEq, Except.ok.injEq] at heq
        obtain ⟨rfl, rfl⟩ := heq
        obtain ⟨hrest, hcredit⟩ := createAt_leaves hexec hcreate
        refine ⟨hdepths.trans hrest, fun hno => ?_⟩
        have hether := hcredit hno
        omega

omit hexec in
theorem executeCreate_error_iff {e : EVMErrorMessage} :
    evm._executeCreate exec m w = some (w', .error e) ↔
      w.state.balance m.caller < m.value ∧ w' = w ∧ e = .INSUFFICIENT_BALANCE := by
  rw [_executeCreate, _reduceSenderBalance]
  by_cases hlt : (w.state.account m.caller).balance < m.value
  · rw [if_pos hlt]
    simp only [Option.some.injEq, Prod.mk.injEq, Except.error.injEq]
    constructor
    · rintro ⟨rfl, rfl⟩
      exact ⟨hlt, rfl, rfl⟩
    · rintro ⟨-, rfl, rfl⟩
      exact ⟨rfl, rfl⟩
  · rw [if_neg hlt]
    simp only
    constructor
    · intro h
      split at h
      · simp at h
      · split at h
        · simp at h
        · simp [Option.map_eq_some_iff] at h
    · rintro ⟨hlt', -⟩
      exact absurd hlt' hlt

omit hexec in
theorem le_of_executeCreate_ok {r : EVMResult}
    (h : evm._executeCreate exec m w = some (w', .ok r)) : m.value ≤ w.state.balance m.caller := by
  refine Nat.le_of_not_lt fun hlt => ?_
  have herror : evm._executeCreate exec m w = some (w, .error .INSUFFICIENT_BALANCE) :=
    executeCreate_error_iff.2 ⟨hlt, rfl, rfl⟩
  rw [herror] at h
  simp at h

end Messages

/-! ## Checkpoints -/

theorem transientCommit_some (h : w.transientCommit = some w') :
    w.transient.indices ≠ [] ∧ w'.transient.indices = w.transient.indices.tail ∧
      w' = { w with transient := w'.transient } := by
  obtain ⟨t, hcommit, rfl⟩ := Option.map_eq_some_iff.1 h
  rw [TransientStorage.commit] at hcommit
  split at hcommit
  · simp at hcommit
  · rename_i hindices
    obtain rfl := Option.some.inj hcommit
    simp [hindices]

theorem transientRevert_some (h : w.transientRevert = some w') :
    w.transient.indices ≠ [] ∧ w'.transient.indices = w.transient.indices.tail ∧
      w' = { w with transient := w'.transient } := by
  obtain ⟨t, hrevert, rfl⟩ := Option.map_eq_some_iff.1 h
  rw [TransientStorage.revert] at hrevert
  split at hrevert
  · simp at hrevert
  · rename_i hindices
    obtain rfl := Option.some.inj hrevert
    simp [hindices]

theorem commit_of_saved {saved : List (State × Finset Bytes20)} {s : State × Finset Bytes20}
    (h : w.saved = s :: saved) :
    w.commit.journalHeight = w.journalHeight - 1 ∧ w.commit.saved = saved ∧
      w.commit.state = w.state ∧ w.commit.transient = w.transient := by
  rw [World.commit, h]
  exact ⟨rfl, rfl, rfl, rfl⟩

theorem revert_of_saved {saved : List (State × Finset Bytes20)} {s : State × Finset Bytes20}
    (h : w.saved = s :: saved) :
    w.revert.journalHeight = w.journalHeight - 1 ∧ w.revert.saved = saved ∧
      w.revert.state = s.1 ∧ w.revert.transient = w.transient := by
  rw [World.revert, h]
  exact ⟨rfl, rfl, rfl, rfl⟩

theorem openMessage_eq (evm : EVM) (hf : Hardfork) (w : World) :
    (evm.openMessage hf w).journalHeight = w.journalHeight + 1 ∧
      (evm.openMessage hf w).saved = (w.state, w.touched) :: w.saved ∧
      (evm.openMessage hf w).state = w.state ∧
      (evm.openMessage hf w).transient.indices =
        if evm.common.isEIPActiveAtHardfork 1153 hf then
          w.transient.changeJournal.length :: w.transient.indices
        else w.transient.indices := by
  rw [openMessage]
  split
  · exact ⟨rfl, rfl, rfl, rfl⟩
  · exact ⟨rfl, rfl, rfl, rfl⟩

/-- **What a message closes**: a checkpoint of the journal, and the last index of
transient storage where EIP-1153 is active at the fork. -/
theorem closeCheckpoint_some {hf : Hardfork} {w₁ : World} {reverts : Bool}
    (hdepths : SameDepths (evm.openMessage hf w) w₁)
    (h : evm.closeCheckpoint reverts w₁ = some w') :
    w'.journalHeight = w.journalHeight ∧ w'.saved = w.saved ∧
      w'.state = (if reverts then w.state else w₁.state) ∧
      (evm.isEIPActive 1153 → (evm.openMessage hf w).transient.indices ≠ []) ∧
      w'.transient.indices =
        if evm.isEIPActive 1153 then (evm.openMessage hf w).transient.indices.tail
        else (evm.openMessage hf w).transient.indices := by
  obtain ⟨hheight, hsaved, hstate, -⟩ := openMessage_eq evm hf w
  have hheight₁ := hdepths.journalHeight.trans hheight
  have hsaved₁ := hdepths.saved.trans hsaved
  obtain ⟨hcheight, hcsaved, hcstate, hctransient⟩ := commit_of_saved hsaved₁
  obtain ⟨hrheight, hrsaved, hrstate, hrtransient⟩ := revert_of_saved hsaved₁
  rw [closeCheckpoint] at h
  by_cases hactive : evm.isEIPActive 1153
  · simp only [hactive, if_true, true_imp_iff] at h ⊢
    cases reverts with
    | false =>
      obtain ⟨hne, htail, heq⟩ := transientCommit_some h
      rw [hctransient, hdepths.indices] at hne htail
      rw [heq]
      exact ⟨by simp only; omega, hcsaved, hcstate, hne, htail⟩
    | true =>
      obtain ⟨hne, htail, heq⟩ := transientRevert_some h
      rw [hrtransient, hdepths.indices] at hne htail
      rw [heq]
      exact ⟨by simp only; omega, hrsaved, hrstate, hne, htail⟩
  · simp only [hactive] at h ⊢
    cases reverts with
    | false =>
      obtain rfl := Option.some.inj h
      refine ⟨by omega, hcsaved, hcstate, by simp, ?_⟩
      rw [hctransient]
      exact hdepths.indices
    | true =>
      obtain rfl := Option.some.inj h
      refine ⟨by omega, hrsaved, hrstate, by simp, ?_⟩
      rw [hrtransient]
      exact hdepths.indices

theorem exceptionError_forfeit (r : EVMResult) :
    (forfeit r).execResult.exceptionError = r.execResult.exceptionError := by
  rw [forfeit]
  split
  · rfl
  · rfl

/-- What has no error, or one of the deposit of a code, keeps the ether that it moved;
what reverts has the state from before. -/
theorem exceptionError_of_not_reverts {r : EVMResult} (h : ¬ evm.reverts r) :
    r.execResult.exceptionError = none ∨
      r.execResult.exceptionError = some .CODESTORE_OUT_OF_GAS := by
  rw [reverts, decide_eq_true_eq, not_and_or, not_not, Bool.not_eq_true,
    Option.isSome_eq_false_iff, Option.isNone_iff_eq_none] at h
  rcases h with h | h
  · exact .inl h
  · exact .inr h.2

section Returns

variable (hexec : Sound exec) {hf : Hardfork}

include hexec

/-- **How a message ends**: thrown with its checkpoint open where the sender of a
create cannot pay, and else with it closed. -/
theorem runMessage_cases {result : Except EVMErrorMessage EVMResult}
    (h : evm.runMessage exec hf m w = some (w', result)) :
    (∃ e, result = .error e ∧ m.to_ = none ∧ w.state.balance m.caller < m.value ∧
        w' = evm.openMessage hf w) ∨
      ∃ r w₁, result = .ok r ∧ (m.to_ = none → m.value ≤ w.state.balance m.caller) ∧
        SameDepths (evm.openMessage hf w) w₁ ∧
        evm.closeCheckpoint (evm.reverts r) w₁ = some w' ∧
        (r.execResult.exceptionError = none ∨
            r.execResult.exceptionError = some .CODESTORE_OUT_OF_GAS →
          w₁.state.ether = w.state.ether) ∧
        (r.execResult.exceptionError = some .CODESTORE_OUT_OF_GAS → m.to_ = none) := by
  obtain ⟨-, -, hstate, -⟩ := openMessage_eq evm hf w
  rw [runMessage] at h
  split at h
  · simp at h
  · split at h
    · simp at h
    · rename_i w₁ e hrun
      obtain ⟨rfl, rfl⟩ := Prod.mk.inj (Option.some.inj h)
      rw [execute] at hrun
      split at hrun
      · simp [Option.map_eq_some_iff] at hrun
      · rename_i hto
        obtain ⟨hlt, rfl, -⟩ := executeCreate_error_iff.1 hrun
        rw [hstate] at hlt
        exact .inl ⟨e, rfl, hto, hlt, rfl⟩
    · rename_i w₁ r hrun
      obtain ⟨⟨w₂, r₂⟩, hclose, heq⟩ := Option.map_eq_some_iff.1 h
      obtain ⟨rfl, rfl⟩ := Prod.mk.inj heq
      obtain ⟨w₃, hclosed, heq⟩ := Option.map_eq_some_iff.1 hclose
      obtain ⟨rfl, rfl⟩ := Prod.mk.inj heq
      have hreverts : evm.reverts (forfeit r) = evm.reverts r := by
        rw [reverts, reverts, exceptionError_forfeit]
      refine .inr ⟨forfeit r, w₁, rfl, ?_⟩
      rw [hreverts, exceptionError_forfeit, ← hstate]
      rw [execute] at hrun
      split at hrun
      · rename_i address hto
        obtain ⟨⟨w₄, r₄⟩, hcall, heq⟩ := Option.map_eq_some_iff.1 hrun
        simp only [Prod.mk.injEq, Except.ok.injEq] at heq
        obtain ⟨rfl, rfl⟩ := heq
        obtain ⟨hdepths, hether, herror⟩ := executeCall_leaves hexec hcall
        refine ⟨fun hno => ?_, hdepths, hclosed, fun hno => ?_, fun hoog => absurd hoog herror⟩
        · rw [hto] at hno
          simp at hno
        · rcases hno with hno | hno
          · exact hether hno
          · exact absurd hno herror
      · rename_i hto
        obtain ⟨hdepths, hether⟩ := executeCreate_leaves hexec hrun
        exact ⟨fun _ => le_of_executeCreate_ok hrun, hdepths, hclosed, hether, fun _ => hto⟩

/-- **What a message leaves to a frame**: the depths and the ether; and the state, but
where it has no error, or was a create that could not pay for its code. -/
structure Returns (m : Message) (w w' : World) (r : EVMResult) : Prop where
  depths : SameDepths w w'
  ether : w'.state.ether = w.state.ether
  settled : r.execResult.exceptionError = none ∨
    (m.to_ = none ∧ r.execResult.exceptionError = some .CODESTORE_OUT_OF_GAS) ∨
    w'.state = w.state

omit hexec in
theorem ether_closeCheckpoint {w₁ : World} {r : EVMResult}
    (hdepths : SameDepths (evm.openMessage hf w) w₁)
    (h : evm.closeCheckpoint (evm.reverts r) w₁ = some w')
    (hether : r.execResult.exceptionError = none ∨
        r.execResult.exceptionError = some .CODESTORE_OUT_OF_GAS →
      w₁.state.ether = w.state.ether) :
    w'.state.ether = w.state.ether := by
  obtain ⟨-, -, hstate, -⟩ := closeCheckpoint_some hdepths h
  by_cases hreverts : evm.reverts r
  · rw [hstate, if_pos hreverts]
  · rw [hstate, if_neg hreverts]
    exact hether (exceptionError_of_not_reverts hreverts)

theorem runMessage_returns {result : Except EVMErrorMessage EVMResult}
    (hcovered : m.to_ = none → m.value ≤ w.state.balance m.caller)
    (h : evm.runMessage exec evm.fork m w = some (w', result)) :
    ∃ r, result = .ok r ∧ Returns m w w' r := by
  rcases runMessage_cases hexec h with ⟨-, -, hto, hlt, -⟩ |
    ⟨r, w₁, rfl, -, hdepths, hclose, hether, hoog⟩
  · exact absurd hlt (Nat.not_lt.2 (hcovered hto))
  · obtain ⟨hheight, hsaved, hstate, -, hindices⟩ := closeCheckpoint_some hdepths hclose
    obtain ⟨-, -, -, hopened⟩ := openMessage_eq evm evm.fork w
    refine ⟨r, rfl, ⟨hheight, hsaved, ?_⟩, ether_closeCheckpoint hdepths hclose hether, ?_⟩
    · rw [hindices, hopened, isEIPActive]
      split
      · rfl
      · rfl
    · by_cases hreverts : evm.reverts r
      · rw [if_pos hreverts] at hstate
        exact .inr (.inr hstate)
      · rcases exceptionError_of_not_reverts hreverts with hno | hno
        · exact .inl hno
        · exact .inr (.inl ⟨hoog hno, hno⟩)

end Returns

/-! ## What frames send and receive -/

/-- What a frame sends leaves the depths, the ether and its balance; a create is
covered by it. -/
def EVM.Sent.Leaves (w : World) (isCreate : Prop) : Sent → Prop
  | .trapped e => e.exceptionError ≠ some .CODESTORE_OUT_OF_GAS
  | .skipped f w' _ => SameDepths w w' ∧ w'.state.ether = w.state.ether ∧ Coherent f w'
  | .message f w' m =>
    SameDepths w w' ∧ w'.state.ether = w.state.ether ∧ Coherent f w' ∧ m.depth ≠ 0 ∧
      (m.to_ = none → isCreate ∧ m.value ≤ w'.state.balance m.caller)

/-- What a frame goes on with after a message is coherent again. -/
def EVM.Received.Leaves (w : World) : Received → Prop
  | .trapped e => e.exceptionError ≠ some .CODESTORE_OUT_OF_GAS
  | .pushed f _ => Coherent f w

theorem Coherent.useGas {amount : ℤ} (h : Coherent f w) (huse : f.useGas amount = some f') :
    Coherent f' w := by
  rw [Frame.useGas] at huse
  split at huse
  · simp at huse
  · obtain rfl := Option.some.inj huse
    exact h

theorem dynamicGas_ne {op : CallOp} {error : EVMErrorMessage}
    (h : (if isExt op then evm.dynamicGasExtcall f op else evm.dynamicGasCall f op) = .error error) :
    some error ≠ some .CODESTORE_OUT_OF_GAS := by
  rintro ⟨⟩
  split at h
  · simp only [dynamicGasExtcall] at h
    split at h
    · simp at h
    · split at h
      · simp at h
      · split at h
        · simp at h
        · simp at h
  · simp only [dynamicGasCall] at h
    split at h
    · split at h
      · simp at h
      · split at h
        · simp at h
        · split at h
          · simp at h
          · simp at h
    · simp at h
    · split at h
      · simp at h
      · simp at h

theorem baseCall_leaves (hf : Coherent f w) (hdepth : m.depth ≠ 0) (hto : m.to_ ≠ none)
    (isCreate : Prop) : (evm._baseCall f w m).Leaves w isCreate := by
  rw [_baseCall]
  split
  · exact ⟨.refl w, rfl, hf⟩
  · exact ⟨.refl w, rfl, hf, hdepth, fun hno => absurd hno hto⟩

theorem callMessage_to (evm : EVM) (f : Frame) (op : CallOp) (gasLimit : ℤ) :
    (evm.callMessage f op gasLimit).to_ ≠ none ∧ (evm.callMessage f op gasLimit).depth ≠ 0 := by
  constructor
  · simp only [callMessage]
    split
    · simp
    · simp
  · exact Nat.succ_ne_zero f.depth

theorem sendCall_leaves (hf : Coherent f w) (op : CallOp) (isCreate : Prop) :
    (evm.sendCall f w op).Leaves w isCreate := by
  have hbase : ∀ (f₁ f₂ : Frame) (gasLimit : ℤ), Coherent f₁ w →
      (evm._baseCall f₁ w (evm.callMessage f₂ op gasLimit)).Leaves w isCreate := by
    intro f₁ f₂ gasLimit hf₁
    obtain ⟨hto, hdepth⟩ := callMessage_to evm f₂ op gasLimit
    exact baseCall_leaves hf₁ hdepth hto isCreate
  rw [sendCall]
  split
  · rename_i error herror
    exact dynamicGas_ne herror
  · split
    · exact fun h => by simp [Frame.outOfGas, Frame.trap] at h
    · rename_i f₁ huse
      have hf₁ := hf.useGas huse
      split
      · split
        · exact ⟨.refl w, rfl, hf₁⟩
        · split
          · exact ⟨.refl w, rfl, hf₁⟩
          · exact hbase f₁ f₁ _ hf₁
      · split
        · exact hbase _ _ _ hf₁
        · exact hbase f₁ f₁ _ hf₁

/-- A create that is let go has put the account of its sender, of the same balance,
which covers its value. -/
theorem create_leaves (hf : Coherent f w) (op : CreateOp) (gasLimit : ℤ) :
    (evm._create f w op gasLimit).Leaves w True := by
  have hput : (w.putAccount f.address
      { f.contract with nonce := f.contract.nonce + 1 }).state.ether = w.state.ether :=
    ether_putAccount_of_eq hf
  have hbalance := w.state.balance_putAccount_of_eq f.address
    { f.contract with nonce := f.contract.nonce + 1 } hf
  rw [_create]
  split
  · exact ⟨.refl w, rfl, hf⟩
  · rename_i hcovered
    rw [not_or, not_lt] at hcovered
    split
    · exact ⟨.refl w, rfl, hf⟩
    · have hcoherent : Coherent { f with contract := { f.contract with nonce := f.contract.nonce + 1 } }
          (w.putAccount f.address { f.contract with nonce := f.contract.nonce + 1 }) := by
        change f.contract.balance = (w.state.putAccount _ _).balance _
        rw [hbalance]
        exact hf
      simp only
      split
      · exact ⟨.putAccount w _ _, hput, hcoherent⟩
      · refine ⟨.putAccount w _ _, hput, hcoherent, Nat.succ_ne_zero f.depth, fun _ => ⟨trivial, ?_⟩⟩
        exact hcovered.2.trans (le_of_eq hcoherent)

theorem sendCreate_leaves (hf : Coherent f w) (op : CreateOp) :
    (evm.sendCreate f w op).Leaves w True := by
  rw [sendCreate]
  split
  · exact fun h => by simp [Frame.trap] at h
  · split
    · exact fun h => by simp [Frame.trap] at h
    · simp only
      split
      · exact fun h => by simp [Frame.outOfGas, Frame.trap] at h
      · rename_i f₁ huse
        have hf₁ := hf.useGas huse
        split
        · split
          · exact fun h => by simp [Frame.trap] at h
          · exact create_leaves hf₁ op _
        · split
          · exact fun h => by simp [Frame.trap] at h
          · split
            · exact ⟨.refl w, rfl, hf₁⟩
            · exact create_leaves hf₁ op _

theorem coherent_takeOver {r : EVMResult} (h : evm.takeOver f w r = some f') : Coherent f' w := by
  obtain ⟨contract, hcontract, rfl⟩ := Option.map_eq_some_iff.1 h
  change contract.balance = w.state.balance f.address
  rw [State.balance, State.account, hcontract]
  rfl

/-- **A frame is coherent after a call**: it has read its account anew, or nothing has
changed. -/
theorem receiveCall_leaves {r : EVMResult} {x : Received} (hf : Coherent f w)
    (hr : r.execResult.exceptionError = none ∨
      (False ∧ r.execResult.exceptionError = some .CODESTORE_OUT_OF_GAS) ∨ w'.state = w.state)
    (h : evm.receiveCall f w' r = some x) : x.Leaves w' := by
  rw [receiveCall] at h
  split at h
  · obtain rfl := Option.some.inj h
    exact fun h => by simp [Frame.outOfGas, Frame.trap] at h
  · rename_i f₁ huse
    split at h
    · obtain ⟨f₂, htake, rfl⟩ := Option.map_eq_some_iff.1 h
      exact coherent_takeOver htake
    · rename_i herror
      obtain rfl := Option.some.inj h
      rcases hr with hno | hoog | hstate
      · exact absurd hno herror
      · exact hoog.1.elim
      · change f₁.contract.balance = w'.state.balance f₁.address
        rw [hstate]
        exact hf.useGas huse

theorem receiveCreate_leaves {r : EVMResult} {x : Received} (hf : Coherent f w)
    (hr : r.execResult.exceptionError = none ∨
      (True ∧ r.execResult.exceptionError = some .CODESTORE_OUT_OF_GAS) ∨ w'.state = w.state)
    (h : evm.receiveCreate f w' r = some x) : x.Leaves w' := by
  rw [receiveCreate] at h
  split at h
  · obtain rfl := Option.some.inj h
    exact fun h => by simp [Frame.outOfGas, Frame.trap] at h
  · rename_i f₁ huse
    split at h
    · obtain ⟨f₂, htake, rfl⟩ := Option.map_eq_some_iff.1 h
      split
      · exact coherent_takeOver htake
      · exact coherent_takeOver htake
    · rename_i herror
      rw [not_or] at herror
      obtain rfl := Option.some.inj h
      rcases hr with hno | hoog | hstate
      · exact absurd hno herror.1
      · exact absurd hoog.2 herror.2
      · change f₁.contract.balance = w'.state.balance f₁.address
        rw [hstate]
        exact hf.useGas huse

/-! ## Selfdestructs -/

theorem ether_zero (w : World) (address : Bytes20) :
    (w.state.putAccount address { w.state.account address with balance := 0 }).ether +
      w.state.balance address = w.state.ether :=
  ether_putAccount w address { w.state.account address with balance := 0 }

/-- **A selfdestruct loses no ether but what it burns**: what its copy says goes to the
beneficiary, and is what the account has. -/
theorem selfDestruct_leaves (hf : Coherent f w) (toAddress : Bytes20) :
    SameDepths w (evm._selfDestruct f w toAddress).2 ∧
      (evm._selfDestruct f w toAddress).2.state.ether = w.state.ether := by
  have hkeep : (if f.address ∈ f.selfdestruct then f
      else f.refundGas evm.params.selfdestructRefundGas).contract = f.contract := by
    split
    · rfl
    · rfl
  have haddress : (if f.address ∈ f.selfdestruct then f
      else f.refundGas evm.params.selfdestructRefundGas).address = f.address := by
    split
    · rfl
    · rfl
  by_cases htoSelf : toAddress = f.address
  · have hzero := ether_zero w f.address
    have hburned : ∀ (s : State) (n : ℕ),
        ({ s with burned := s.burned + n } : State).ether = s.ether + n := by
      intro s n
      exact (Nat.add_assoc _ _ _).symm
    simp only [_selfDestruct, haddress, htoSelf, decide_true, if_true]
    split_ifs
    · refine ⟨⟨rfl, rfl, rfl⟩, ?_⟩
      rw [hburned]
      exact hzero
    · exact ⟨.refl w, rfl⟩
    · refine ⟨⟨rfl, rfl, rfl⟩, ?_⟩
      rw [hburned]
      exact hzero
    · exact ⟨.refl w, rfl⟩
  · have hcredit := ether_putAccount w toAddress
      { w.state.account toAddress with
        balance := (w.state.account toAddress).balance + f.contract.balance }
    have hzero := ether_zero (w.putAccount toAddress { w.state.account toAddress with
      balance := (w.state.account toAddress).balance + f.contract.balance }) f.address
    have hown : (w.putAccount toAddress { w.state.account toAddress with
        balance := (w.state.account toAddress).balance + f.contract.balance }).state.balance f.address =
        w.state.balance f.address := by
      change (w.state.putAccount _ _).balance _ = _
      rw [State.balance_putAccount, if_neg (Ne.symm htoSelf)]
    simp only [_selfDestruct, hkeep, haddress, htoSelf, decide_false]
    simp only [Bool.false_eq_true, not_false_eq_true, or_true, decide_true, if_true, if_false]
    refine ⟨⟨rfl, rfl, rfl⟩, ?_⟩
    rw [hown] at hzero
    have hcopy : f.contract.balance = w.state.balance f.address := hf
    have hto : (w.state.account toAddress).balance = w.state.balance toAddress := rfl
    simp only [hto] at hcredit hzero ⊢
    omega

/-! ## Runs -/

theorem runCall_message (hdepth : m.depth ≠ 0) :
    evm.runCall exec { message := some m } w = evm.runMessage exec evm.fork m w := by
  have hfund : EVMRunCallOpts.fund { message := some m } w = w := by
    simp [EVMRunCallOpts.fund]
  have hcount : countCaller m w = w := by
    rw [countCaller]
    exact if_neg hdepth
  change evm.runMessage exec evm.fork m (countCaller m (EVMRunCallOpts.fund _ w)) = _
  rw [hfund, hcount]

/-- **A message that is sent and received keeps depths and ether**, if what runs before
and after it does. -/
theorem deliver_leaves (hexec : Sound exec) {sent : Sent} {isCreate : Prop}
    (hsent : sent.Leaves w isCreate) {receive : Frame → World → EVMResult → Option Received}
    (hreceive : ∀ f w w' r x, Coherent f w →
      (r.execResult.exceptionError = none ∨
        (isCreate ∧ r.execResult.exceptionError = some .CODESTORE_OUT_OF_GAS) ∨
        w'.state = w.state) → receive f w' r = some x → x.Leaves w')
    {next : ℕ → Exec} (hnext : ∀ x, Sound (next x)) {e : FrameEnd}
    (h : evm.deliver exec sent w receive next = some (w', e)) : Leaves w w' e := by
  rcases sent with e₁ | ⟨f, w₁, x⟩ | ⟨f, w₁, m⟩
  · obtain ⟨rfl, rfl⟩ := Prod.mk.inj (Option.some.inj h)
    exact ⟨.refl w, rfl, hsent⟩
  · obtain ⟨hdepths, hether, hf⟩ := hsent
    exact .of_step hdepths hether (hnext x f w₁ w' e hf h)
  · obtain ⟨hdepths, hether, hf, hdepth, hto⟩ := hsent
    simp only [deliver, runCall_message hdepth] at h
    split at h
    · simp at h
    · rename_i w₂ e₁ hrun
      obtain ⟨r, herror, -⟩ := runMessage_returns hexec (fun hno => (hto hno).2) hrun
      simp at herror
    · rename_i w₂ r hrun
      obtain ⟨r', hr, hreturns⟩ := runMessage_returns hexec (fun hno => (hto hno).2) hrun
      obtain rfl := Except.ok.inj hr
      have hreceived : ∀ x, receive f w₂ r = some x → x.Leaves w₂ := by
        intro x hx
        refine hreceive f w₁ w₂ r x hf ?_ hx
        rcases hreturns.settled with hno | ⟨hno, hoog⟩ | hstate
        · exact .inl hno
        · exact .inr (.inl ⟨(hto hno).1, hoog⟩)
        · exact .inr (.inr hstate)
      have hdepths₂ := hdepths.trans hreturns.depths
      have hether₂ := hreturns.ether.trans hether
      split at h
      · simp at h
      · rename_i e₁ hx
        obtain ⟨rfl, rfl⟩ := Prod.mk.inj (Option.some.inj h)
        exact ⟨hdepths₂, hether₂, hreceived _ hx⟩
      · rename_i f₁ x hx
        exact .of_step hdepths₂ hether₂ (hnext x f₁ w₂ w' e (hreceived _ hx) h)

/-- **Every program keeps depths and ether.** The induction is over the tree of its
instructions, with the programs of its messages. -/
theorem Program.run_sound (evm : EVM) (program : Program) : Sound (program.run evm) := by
  induction program with
  | halt returnValue error =>
    intro f w w' e hf h
    obtain ⟨rfl, rfl⟩ := Prod.mk.inj (Option.some.inj h)
    refine ⟨.refl w, rfl, ?_⟩
    rcases error with _ | error
    · simp
    · exact fun heq => error.2 (Option.some.inj heq)
  | throw =>
    intro f w w' e hf h
    simp [run] at h
  | observe next ih =>
    intro f w w' e hf h
    exact ih f w f w w' e hf h
  | useGas amount next ih =>
    intro f w w' e hf h
    simp only [run] at h
    split at h
    · obtain ⟨rfl, rfl⟩ := Prod.mk.inj (Option.some.inj h)
      exact .trap (by decide)
    · rename_i f₁ huse
      exact ih f₁ w w' e (hf.useGas huse) h
  | refundGas amount next ih =>
    intro f w w' e hf h
    exact ih (f.refundGas amount) w w' e hf h
  | subRefund amount next ih =>
    intro f w w' e hf h
    simp only [run, Frame.subRefund] at h
    split at h
    · obtain ⟨rfl, rfl⟩ := Prod.mk.inj (Option.some.inj h)
      exact .trap (by decide)
    · rename_i f₁ hsub
      split at hsub
      · simp at hsub
      · obtain rfl := Option.some.inj hsub
        have hrest := ih _ w w' e (by exact hf) h
        exact hrest
  | storageStore key value next ih =>
    intro f w w' e hf h
    simp only [run] at h
    split at h
    · obtain ⟨rfl, rfl⟩ := Prod.mk.inj (Option.some.inj h)
      exact .trap (by decide)
    · split at h
      · simp at h
      · rename_i f₁ w₁ hstore
        obtain ⟨contract, hcontract, heq⟩ := Option.map_eq_some_iff.1 hstore
        obtain ⟨rfl, rfl⟩ := Prod.mk.inj heq
        have hf₁ : Coherent { f with contract }
            { w with state := w.state.putStorage f.address key value } := by
          change contract.balance = ((w.state.accounts f.address).getD .new).balance
          rw [hcontract]
          rfl
        have hstep : SameDepths w { w with state := w.state.putStorage f.address key value } :=
          ⟨rfl, rfl, rfl⟩
        exact .of_step hstep rfl (ih _ _ w' e hf₁ h)
  | transientStorageStore key value next ih =>
    intro f w w' e hf h
    simp only [run] at h
    split at h
    · obtain ⟨rfl, rfl⟩ := Prod.mk.inj (Option.some.inj h)
      exact .trap (by decide)
    · have hstep : SameDepths w { w with transient := w.transient.put f.address key value } :=
        ⟨rfl, rfl, rfl⟩
      exact .of_step hstep rfl (ih f _ w' e hf h)
  | call op callee next ihcallee ihnext =>
    intro f w w' e hf h
    exact deliver_leaves ihcallee (sendCall_leaves hf op False)
      (fun _ _ _ _ _ => receiveCall_leaves) ihnext h
  | create op init next ihinit ihnext =>
    intro f w w' e hf h
    exact deliver_leaves ihinit (sendCreate_leaves hf op)
      (fun _ _ _ _ _ => receiveCreate_leaves) ihnext h
  | selfDestruct gas toAddress =>
    intro f w w' e hf h
    simp only [run] at h
    split at h
    · obtain ⟨rfl, rfl⟩ := Prod.mk.inj (Option.some.inj h)
      exact .trap (by decide)
    · split at h
      · obtain ⟨rfl, rfl⟩ := Prod.mk.inj (Option.some.inj h)
        exact .trap (by decide)
      · rename_i f₁ huse
        obtain ⟨rfl, rfl⟩ := Prod.mk.inj (Option.some.inj h)
        obtain ⟨hdepths, hether⟩ : SameDepths w (evm._selfDestruct f₁ w toAddress).2 ∧
            (evm._selfDestruct f₁ w toAddress).2.state.ether = w.state.ether :=
          selfDestruct_leaves (hf.useGas huse) toAddress
        exact ⟨hdepths, hether, by simp⟩

end TsEthereum.Evm
