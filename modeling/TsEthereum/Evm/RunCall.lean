import TsEthereum.Evm.Balanced

/-!
# `runCall`: checkpoints and ether

What a whole message leaves. Its depths are what they were, and its error restores the
state, if EIP-1153 is active at the hardfork of the block exactly where it is at that of
the EVM, and the sender of a create can pay its value. The sum of all balances changes
by what `skipBalance` adds and what selfdestructs burn.
-/

namespace TsEthereum.Evm

open EVM

variable {evm : EVM} {program : Program} {opts : EVMRunCallOpts} {w w' : World}
  {result : Except EVMErrorMessage EVMResult}

/-! ## Before the checkpoint -/

theorem balance_countCaller (m : Message) (w : World) :
    (countCaller m w).state.balance = w.state.balance := by
  simp only [countCaller]
  split
  · exact w.state.balance_putAccount_of_eq m.caller _ rfl
  · rfl

theorem SameDepths.countCaller (m : Message) (w : World) :
    SameDepths w (countCaller m w) := by
  simp only [EVM.countCaller]
  split
  · exact .putAccount w _ _
  · exact .refl w

theorem SameDepths.fund (opts : EVMRunCallOpts) (w : World) : SameDepths w (opts.fund w) := by
  simp only [EVMRunCallOpts.fund]
  split
  · exact .putAccount w _ _
  · exact .refl w

theorem ether_countCaller (m : Message) (w : World) :
    (countCaller m w).state.ether = w.state.ether := by
  simp only [countCaller]
  split
  · exact ether_putAccount_of_eq rfl
  · rfl

theorem ether_fund (opts : EVMRunCallOpts) (w : World) :
    (opts.fund w).state.ether = w.state.ether + opts.topUp w := by
  have hput := ether_putAccount w (opts.caller.getD (repeated 0))
    { w.state.account (opts.caller.getD (repeated 0)) with balance := opts.value }
  have hbalance : (w.state.account (opts.caller.getD (repeated 0))).balance =
      w.state.balance (opts.caller.getD (repeated 0)) := rfl
  simp only [EVMRunCallOpts.fund, EVMRunCallOpts.topUp]
  split
  · rename_i hfund
    rw [if_pos ⟨hfund.1, hfund.2.1⟩]
    have hlt := hfund.2.2
    simp only at hput
    omega
  · rename_i hfund
    split
    · rename_i hskip
      have hle : opts.value ≤ w.state.balance (opts.caller.getD (repeated 0)) := by
        refine Nat.le_of_not_lt fun hlt => hfund ⟨hskip.1, hskip.2, hlt⟩
      omega
    · rfl

/-! ## Checkpoints -/

/-- **What a message is to leave**: every nesting depth, and with an error other than
that of the deposit of a code the state from before its checkpoint. -/
structure LeavesBalanced (opts : EVMRunCallOpts) (w w' : World)
    (result : Except EVMErrorMessage EVMResult) : Prop where
  journalHeight : w'.journalHeight = w.journalHeight
  saved : w'.saved.length = w.saved.length
  indices : w'.transient.indices.length = w.transient.indices.length
  restored : ∀ r e, result = .ok r → r.execResult.exceptionError = some e →
    e ≠ .CODESTORE_OUT_OF_GAS → w'.state = (countCaller opts.theMessage (opts.fund w)).state

/-- What a message opens in transient storage, it closes there, if the two hardforks
say the same of EIP-1153. -/
theorem length_indices_closed_iff (evm : EVM) (hf : Hardfork) {w w' : World}
    (hopened : evm.isEIPActive 1153 → (evm.openMessage hf w).transient.indices ≠ [])
    (hclosed : w'.transient.indices =
      if evm.isEIPActive 1153 then (evm.openMessage hf w).transient.indices.tail
      else (evm.openMessage hf w).transient.indices) :
    w'.transient.indices.length = w.transient.indices.length ↔
      evm.common.isEIPActiveAtHardfork 1153 hf = evm.common.isEIPActiveAtHardfork 1153 evm.fork := by
  obtain ⟨-, -, -, hindices⟩ := openMessage_eq evm hf w
  rw [hindices] at hopened hclosed
  rw [hclosed]
  simp only [isEIPActive] at hopened ⊢
  by_cases hblock : evm.common.isEIPActiveAtHardfork 1153 hf
  · by_cases hfork : evm.common.isEIPActiveAtHardfork 1153 evm.fork
    · simp [hblock, hfork]
    · simp [hblock, hfork]
  · by_cases hfork : evm.common.isEIPActiveAtHardfork 1153 evm.fork
    · simp only [hblock, hfork] at hopened ⊢
      have hpos := List.length_pos_of_ne_nil (hopened trivial)
      simp only [Bool.false_eq_true, if_false, if_true, List.length_tail, iff_false] at hpos ⊢
      omega
    · simp [hblock, hfork]

/-- **The checkpoint balance of `runCall`.** Whatever the programs do, a message leaves
the depths and restores the state exactly if EIP-1153 is active at the hardfork of the
block where it is at that of the EVM, and the sender of a create has its value. -/
theorem runCall_balanced_iff (evm : EVM) (program : Program) (opts : EVMRunCallOpts)
    (w w' : World) (result : Except EVMErrorMessage EVMResult)
    (h : evm.runCall (program.run evm) opts w = some (w', result)) :
    LeavesBalanced opts w w' result ↔
      evm.common.isEIPActiveAtHardfork 1153 (opts.blockHardfork.getD evm.fork) =
          evm.common.isEIPActiveAtHardfork 1153 evm.fork ∧
        (opts.theMessage.to_ = none →
          opts.theMessage.value ≤ (opts.fund w).state.balance opts.theMessage.caller) := by
  have hdepths := (SameDepths.fund opts w).trans (.countCaller opts.theMessage (opts.fund w))
  have hcases := runMessage_cases (program.run_sound evm) h
  rw [balance_countCaller] at hcases
  rcases hcases with ⟨e, -, hto, hlt, hopen⟩ | ⟨r, w₁, hr, hcovered, hran, hclose, -, -⟩
  · -- the sender cannot pay: the checkpoint stays open
    constructor
    · intro hbalanced
      have hheight := hbalanced.journalHeight
      rw [hopen, (openMessage_eq evm _ _).1, hdepths.journalHeight] at hheight
      omega
    · rintro ⟨-, hcovered⟩
      exact absurd hlt (Nat.not_lt.2 (hcovered hto))
  · obtain ⟨hheight, hsaved, hstate, hne, hindices⟩ := closeCheckpoint_some hran hclose
    have hiff := length_indices_closed_iff evm _ hne hindices
    rw [hdepths.indices] at hiff
    constructor
    · intro hbalanced
      exact ⟨hiff.1 hbalanced.indices, hcovered⟩
    · rintro ⟨hsame, -⟩
      refine ⟨hheight.trans hdepths.journalHeight, ?_, hiff.2 hsame, ?_⟩
      · rw [hsaved, hdepths.saved]
      · intro r' e hr' herror hne
        obtain rfl := Except.ok.inj (hr.symm.trans hr')
        have hreverts : evm.reverts r := by
          simp [reverts, herror, hne]
        rw [hstate, if_pos hreverts]

/-- A message to an account without code. -/
def sendPlain (blockHardfork : Hardfork) : EVMRunCallOpts where
  blockHardfork := some blockHardfork
  caller := some (repeated 1)
  to_ := some (repeated 2)
  value := 5

/-- An EVM of Cancun runs a message of a block of Cancun: all is closed. -/
theorem runCall_balanced_cancun :
    ∃ w' r, (someEVM .cancun).runCall ((Program.halt [] none).run (someEVM .cancun))
        (sendPlain .cancun) (someWorld (repeated 1) 10) = some (w', .ok r) ∧
      LeavesBalanced (sendPlain .cancun) (someWorld (repeated 1) 10) w' (.ok r) :=
  ⟨_, _, rfl, (runCall_balanced_iff (someEVM .cancun) (.halt [] none) (sendPlain .cancun)
    (someWorld (repeated 1) 10) _ _ rfl).2 ⟨rfl, by decide⟩⟩

/-- **An EVM of Shanghai runs a message of a block of Cancun**: an index of transient
storage is left. -/
theorem runCall_not_balanced_cancun :
    ∃ w' r, (someEVM .shanghai).runCall ((Program.halt [] none).run (someEVM .shanghai))
        (sendPlain .cancun) (someWorld (repeated 1) 10) = some (w', .ok r) ∧
      ¬ LeavesBalanced (sendPlain .cancun) (someWorld (repeated 1) 10) w' (.ok r) :=
  ⟨_, _, rfl, fun h => absurd h.indices (by decide)⟩

/-! ## Ether -/

theorem ether_runCall (h : evm.runCall (program.run evm) opts w = some (w', result)) :
    w'.state.ether = w.state.ether + opts.topUp w := by
  have hbefore : (countCaller opts.theMessage (opts.fund w)).state.ether =
      w.state.ether + opts.topUp w := by
    rw [ether_countCaller, ether_fund]
  rcases runMessage_cases (program.run_sound evm) h with
    ⟨e, -, -, -, rfl⟩ | ⟨r, w₁, -, -, hran, hclose, hether, -⟩
  · rw [(openMessage_eq evm _ _).2.2.1, hbefore]
  · rw [ether_closeCheckpoint hran hclose hether, hbefore]

/-- What is burned is counted from the message on. -/
def World.uncounted (w : World) : World := { w with state := { w.state with burned := 0 } }

/-- **Ether conservation.** Whatever the programs do, the sum of all balances after a
message and what selfdestructs that stand have burned are the sum before and what
`skipBalance` has added; a message that fails burns nothing. -/
theorem runCall_conserves_ether (evm : EVM) (program : Program) (opts : EVMRunCallOpts)
    (w w' : World) (result : Except EVMErrorMessage EVMResult)
    (h : evm.runCall (program.run evm) opts w.uncounted = some (w', result)) :
    w'.state.total + w'.state.burned = w.state.total + opts.topUp w ∧
      (∀ r e, result = .ok r → r.execResult.exceptionError = some e →
        e ≠ .CODESTORE_OUT_OF_GAS → w'.state.total = w.state.total + opts.topUp w) ∧
      (∀ e, result = .error e → w'.state.total = w.state.total + opts.topUp w) := by
  have hether : w'.state.total + w'.state.burned = w.state.total + opts.topUp w :=
    ether_runCall h
  have hburned : (countCaller opts.theMessage (opts.fund w.uncounted)).state.burned = 0 := by
    have hfund : (opts.fund w.uncounted).state.burned = 0 := by
      simp only [EVMRunCallOpts.fund]
      split
      · rfl
      · rfl
    simp only [countCaller]
    split
    · exact hfund
    · exact hfund
  have hrestored : w'.state = (countCaller opts.theMessage (opts.fund w.uncounted)).state →
      w'.state.total = w.state.total + opts.topUp w := by
    intro hstate
    rw [← hether, hstate, hburned]
    rfl
  refine ⟨hether, ?_, ?_⟩
  · intro r e hr herror hne
    rcases runMessage_cases (program.run_sound evm) h with
      ⟨e₁, herr, -⟩ | ⟨r₁, w₁, hok, -, hran, hclose, -, -⟩
    · rw [hr] at herr
      simp at herr
    · obtain rfl := Except.ok.inj (hr.symm.trans hok)
      obtain ⟨-, -, hstate, -⟩ := closeCheckpoint_some hran hclose
      have hreverts : evm.reverts r := by
        simp [reverts, herror, hne]
      rw [if_pos hreverts] at hstate
      exact hrestored hstate
  · intro e he
    rcases runMessage_cases (program.run_sound evm) h with
      ⟨e₁, -, -, -, hopen⟩ | ⟨r₁, w₁, hok, -⟩
    · refine hrestored ?_
      rw [hopen, (openMessage_eq evm _ _).2.2.1]
    · rw [he] at hok
      simp at hok

/-- A contract that destroys itself to its own account. -/
def burnAll : Program := .selfDestruct 5000 (repeated 2)

/-- A message of 5 to a code. -/
def sendFive : EVMRunCallOpts where
  caller := some (repeated 1)
  to_ := some (repeated 2)
  value := 5
  code := some [0xff]

/-- What it burns is missing after the message. -/
theorem runCall_conserves_ether_burnAll :
    ∃ w' r, (someEVM .london).runCall (burnAll.run (someEVM .london)) sendFive
        (someWorld (repeated 1) 10).uncounted = some (w', .ok r) ∧
      w'.state.burned = 5 ∧
      w'.state.total + w'.state.burned = (someWorld (repeated 1) 10).state.total + 0 :=
  ⟨_, _, rfl, rfl, (runCall_conserves_ether (someEVM .london) burnAll sendFive
    (someWorld (repeated 1) 10) _ _ rfl).1⟩

/-- A message of 5 without a balance. -/
def sendSkipped : EVMRunCallOpts where
  skipBalance := true
  caller := some (repeated 1)
  to_ := some (repeated 2)
  value := 5

/-- **`skipBalance` makes ether**: there are 5 more than before. -/
theorem skipBalance_makes_ether :
    ∃ w' r, (someEVM .london).runCall ((Program.halt [] none).run (someEVM .london)) sendSkipped
        (someWorld (repeated 1) 0) = some (w', .ok r) ∧
      w'.state.burned = 0 ∧ (someWorld (repeated 1) 0).state.total < w'.state.total := by
  refine ⟨_, _, rfl, rfl, ?_⟩
  have hether := ether_runCall (show (someEVM .london).runCall
    ((Program.halt [] none).run (someEVM .london)) sendSkipped (someWorld (repeated 1) 0) =
      some (_, .ok _) from rfl)
  have htopUp : sendSkipped.topUp (someWorld (repeated 1) 0) = 5 := by decide
  rw [htopUp] at hether
  simp only [State.ether] at hether
  change _ + 0 = _ + 0 + 5 at hether
  omega

end TsEthereum.Evm
