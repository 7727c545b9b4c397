import TsEthereum.Evm.Sstore

/-!
# The rule sets of SSTORE

What each hardfork's rule set charges and refunds, by the pattern of the slot's
three values, and which hardforks the code meters so (`sstoreGas_iff`): all but
Constantinople and Petersburg, where the handler of EIP-2200 is installed
although none of its parameters is set.
-/

namespace TsEthereum.Evm

/-- **What a rule set reads of the three values of a slot**: which are zero and
which are equal. -/
structure SlotPattern where
  originalIsZero : Bool
  currentIsZero : Bool
  newIsZero : Bool
  originalIsCurrent : Bool
  currentIsNew : Bool
  originalIsNew : Bool
  deriving DecidableEq

/-- The pattern of three values. -/
def slotPattern (original current new : ℕ) : SlotPattern where
  originalIsZero := original = 0
  currentIsZero := current = 0
  newIsZero := new = 0
  originalIsCurrent := original = current
  currentIsNew := current = new
  originalIsNew := original = new

/-- What a write costs, and what it takes from the refund counter and adds to it. -/
structure Metering where
  gas : ℤ
  removed : ℤ
  granted : ℤ

/-- The legacy rules: a slot that is set from zero, any other write, and a refund
for a slot that becomes zero. -/
def legacyMetering (p : SlotPattern) : Metering :=
  if p.currentIsZero && !p.newIsZero then ⟨20000, 0, 0⟩
  else ⟨5000, 0, if !p.currentIsZero && p.newIsZero then 15000 else 0⟩

/-- The gas of a rule set with net metering. -/
structure NetGas where
  noop : ℕ
  init : ℕ
  clean : ℕ
  clear : ℕ

/-- **Net metering**: only the first write to a slot is charged in full, and what
a later one undoes is refunded. -/
def NetGas.metering (g : NetGas) (p : SlotPattern) : Metering :=
  if p.currentIsNew then ⟨g.noop, 0, 0⟩
  else if p.originalIsCurrent then
    if p.originalIsZero then ⟨g.init, 0, 0⟩
    else ⟨g.clean, 0, if p.newIsZero then g.clear else 0⟩
  else
    { gas := g.noop
      removed := if !p.originalIsZero && p.currentIsZero then g.clear else 0
      granted :=
        (if !p.originalIsZero && p.newIsZero then g.clear else 0) +
          if p.originalIsNew then (if p.originalIsZero then g.init else g.clean : ℤ) - g.noop else 0 }

/-- A rule set. That of EIP-2200 refuses a write that is left with the call stipend
or less, and from EIP-2929 on charges a cold slot. -/
inductive SstoreRules where
  | legacy
  | eip1283 (g : NetGas)
  | eip2200 (g : NetGas) (coldSload : Option ℕ)

/-- **The rule set of each hardfork.** -/
def sstoreRules : Hardfork → SstoreRules
  | .chainstart | .homestead | .dao | .tangerineWhistle | .spuriousDragon | .byzantium
  | .petersburg => .legacy
  | .constantinople => .eip1283 ⟨200, 20000, 5000, 15000⟩
  | .istanbul | .muirGlacier => .eip2200 ⟨800, 20000, 5000, 15000⟩ none
  | .berlin => .eip2200 ⟨100, 20000, 2900, 15000⟩ (some 2100)
  | _ => .eip2200 ⟨100, 20000, 2900, 4800⟩ (some 2100)

/-- What is due is charged, and settled with the refund counter. -/
def Metering.settle (m : Metering) (cold : ℕ) (f : SstoreFrame) :
    Except SstoreError (ℤ × SstoreFrame) :=
  if 0 < m.removed ∧ f.gasRefund < m.removed then .error .REFUND_EXHAUSTED
  else .ok (m.gas + cold, { f with gasRefund := f.gasRefund - m.removed + m.granted })

/-- **A write under a rule set.** -/
def SstoreRules.sstore (rules : SstoreRules) (p : SlotPattern) (isStatic : Bool) (gasLeft : ℤ)
    (f : SstoreFrame) : Except SstoreError (ℤ × SstoreFrame) :=
  if isStatic then .error .STATIC_STATE_CHANGE
  else
    match rules with
    | .legacy => (legacyMetering p).settle 0 f
    | .eip1283 g => (g.metering p).settle 0 f
    | .eip2200 g coldSload =>
      if gasLeft ≤ 2300 then .error .OUT_OF_GAS
      else
        match coldSload with
        | none => (g.metering p).settle 0 f
        | some cold => (g.metering p).settle (if f.warm then 0 else cold) f.addWarmedStorage

/-! ## The handlers by the pattern -/

/-- The pattern of a write. -/
def SstoreInput.pattern (runState : SstoreInput) : SlotPattern :=
  slotPattern (ofBigEndian runState.original) (ofBigEndian runState.current) runState.val

namespace SstoreInput

variable (runState : SstoreInput)

theorem current_eq_value : setLengthLeftStorage runState.current =
    setLengthLeftStorage (stackBytes runState.val) ↔ runState.pattern.currentIsNew := by
  rw [setLengthLeftStorage_eq_iff runState.length_current (length_stackBytes_le runState.val_lt),
    ofBigEndian_stackBytes]
  simp [pattern, slotPattern]

theorem original_eq_value : setLengthLeftStorage runState.original =
    setLengthLeftStorage (stackBytes runState.val) ↔ runState.pattern.originalIsNew := by
  rw [setLengthLeftStorage_eq_iff runState.length_original (length_stackBytes_le runState.val_lt),
    ofBigEndian_stackBytes]
  simp [pattern, slotPattern]

theorem original_eq_current : setLengthLeftStorage runState.original =
    setLengthLeftStorage runState.current ↔ runState.pattern.originalIsCurrent := by
  rw [setLengthLeftStorage_eq_iff runState.length_original runState.length_current]
  simp [pattern, slotPattern]

theorem length_original_eq_zero : (setLengthLeftStorage runState.original).length = 0 ↔
    runState.pattern.originalIsZero := by
  rw [length_setLengthLeftStorage_eq_zero runState.length_original]
  simp [pattern, slotPattern]

theorem length_current_eq_zero : (setLengthLeftStorage runState.current).length = 0 ↔
    runState.pattern.currentIsZero := by
  rw [length_setLengthLeftStorage_eq_zero runState.length_current]
  simp [pattern, slotPattern]

theorem length_value_eq_zero : (setLengthLeftStorage (stackBytes runState.val)).length = 0 ↔
    runState.pattern.newIsZero := by
  rw [length_setLengthLeftStorage_eq_zero (length_stackBytes_le runState.val_lt),
    ofBigEndian_stackBytes]
  simp [pattern, slotPattern]

theorem currentIsNew_of_zero (hcurrent : runState.pattern.currentIsZero)
    (hnew : runState.pattern.newIsZero) : runState.pattern.currentIsNew := by
  simp only [pattern, slotPattern, decide_eq_true_eq] at hcurrent hnew ⊢
  omega

end SstoreInput

/-- The parameters of EIP-2200 at a hardfork. -/
structure Reads (common : ChainSpec) (hardfork : Hardfork) (g : NetGas) : Prop where
  sentry : common.getParamAtHardfork .sstoreSentryEIP2200Gas hardfork = some (.bigint 2300)
  noop : common.getParamAtHardfork .sstoreNoopEIP2200Gas hardfork = some (.bigint g.noop)
  init : common.getParamAtHardfork .sstoreInitEIP2200Gas hardfork = some (.bigint g.init)
  clean : common.getParamAtHardfork .sstoreCleanEIP2200Gas hardfork = some (.bigint g.clean)
  clear : common.getParamAtHardfork .sstoreClearRefundEIP2200Gas hardfork = some (.bigint g.clear)

@[simp] theorem refundGas_zero (f : SstoreFrame) : f.refundGas 0 = f := by
  simp [SstoreFrame.refundGas]

theorem grantClear_eq (value : Bytes) (n : ℕ) (f : SstoreFrame) :
    grantClear value (some (.bigint n)) f = .ok (f.refundGas (if value.length = 0 then n else 0)) := by
  unfold grantClear
  split
  · rfl
  · rw [refundGas_zero]
    rfl

theorem clearRefund_eq (original current value : Bytes) (n : ℕ) (f : SstoreFrame) :
    clearRefund original current value (some (.bigint n)) f =
      if ¬ original.length = 0 ∧ current.length = 0 then f.subRefund n
      else .ok (f.refundGas (if ¬ original.length = 0 ∧ value.length = 0 then n else 0)) := by
  unfold clearRefund
  by_cases ho : original.length = 0
  · simp [ho, pure, Except.pure]
  have hpos : original.length > 0 := by omega
  by_cases hc : current.length = 0
  · simp only [ho, hc, hpos, not_false_eq_true, and_self, if_true]
    rfl
  by_cases hv : value.length = 0
  · simp only [ho, hc, hv, hpos, not_false_eq_true, and_self, and_false, if_true, if_false]
    rfl
  · simp [ho, hc, hv, hpos, pure, Except.pure]

theorem resetRefund_eq (original value : Bytes) (a b : ℤ) (f : SstoreFrame) :
    resetRefund original value (.ok a) (.ok b) f =
      .ok (f.refundGas (if original = value then if original.length = 0 then a else b else 0)) := by
  unfold resetRefund
  split
  · split <;> rfl
  · rw [refundGas_zero]
    rfl

theorem dynamicGasSstoreEIP2200_eq {common : ChainSpec} {hardfork : Hardfork} {g : NetGas}
    (hreads : Reads common hardfork g) (hpos : 0 < g.clear) {f : SstoreFrame} {cold : ℕ}
    (hcold : (coldAccess common hardfork f).1 = some (.bigint cold)) (runState : SstoreInput) :
    dynamicGasSstoreEIP2200 common hardfork runState f 0 =
      if runState.isStatic then .error .STATIC_STATE_CHANGE
      else if runState.gasLeft ≤ 2300 then .error .OUT_OF_GAS
      else (g.metering runState.pattern).settle cold (coldAccess common hardfork f).2 := by
  have hsub : ∀ a b : ℕ, bigIntSub (some (.bigint a)) (some (.bigint b)) = .ok ((a : ℤ) - b) :=
    fun a b => rfl
  unfold dynamicGasSstoreEIP2200
  simp only [hreads.sentry, hreads.noop, hreads.init, hreads.clean, hreads.clear, hcold, atMost,
    bigInt, hsub, grantClear_eq, clearRefund_eq, resetRefund_eq, runState.current_eq_value,
    runState.original_eq_value, runState.original_eq_current, runState.length_original_eq_zero,
    runState.length_current_eq_zero, runState.length_value_eq_zero, decide_eq_true_eq]
  have hzeros := runState.currentIsNew_of_zero
  generalize (coldAccess common hardfork f).2 = f
  generalize runState.pattern = p at hzeros ⊢
  by_cases hstatic : runState.isStatic
  · rw [if_pos hstatic, if_pos hstatic]
  rw [if_neg hstatic, if_neg hstatic]
  by_cases hgas : runState.gasLeft ≤ 2300
  · rw [if_pos hgas, if_pos (by exact_mod_cast hgas)]
  rw [if_neg hgas, if_neg (by exact_mod_cast hgas)]
  unfold NetGas.metering Metering.settle
  by_cases hnew : p.currentIsNew
  · simp [hnew, bind, Except.bind, pure, Except.pure, add_comm]
  by_cases hcurrent : p.originalIsCurrent
  · by_cases hzero : p.originalIsZero
    · simp [hnew, hcurrent, hzero, bind, Except.bind, pure, Except.pure, add_comm]
    · simp [hnew, hcurrent, hzero, bind, Except.bind, pure, Except.pure, add_comm, SstoreFrame.refundGas]
  by_cases htaken : ¬ p.originalIsZero ∧ p.currentIsZero
  · -- the refund is taken back, so the slot does not become zero again
    have hvalue : ¬ p.newIsZero := fun hvalue => hnew (hzeros htaken.2 hvalue)
    by_cases hlow : f.gasRefund < g.clear
    · simp [hnew, hcurrent, htaken, hlow, hpos, bind, Except.bind, SstoreFrame.subRefund]
    · simp [hnew, hcurrent, htaken, hlow, hvalue, bind, Except.bind, pure, Except.pure,
        SstoreFrame.subRefund, SstoreFrame.refundGas, add_comm]
  · rw [if_neg htaken]
    have hremoved : (!p.originalIsZero && p.currentIsZero) = false := by simpa using htaken
    have hgranted : (¬ p.originalIsZero ∧ p.newIsZero) ↔ (!p.originalIsZero && p.newIsZero) := by simp
    simp only [hnew, hcurrent, hremoved, hgranted, bind, Except.bind, pure, Except.pure,
      SstoreFrame.refundGas, Bool.false_eq_true, if_false, lt_self_iff_false, false_and, sub_zero,
      zero_add, add_assoc, add_comm (cold : ℤ)]
    split_ifs <;> simp

/-- **Without its parameters the handler of EIP-2200 throws**: the comparison with
the sentry is false, and whichever clause applies mixes a `bigint` with
`undefined`. -/
theorem dynamicGasSstoreEIP2200_undefined {common : ChainSpec} {hardfork : Hardfork}
    (hsentry : common.getParamAtHardfork .sstoreSentryEIP2200Gas hardfork = none)
    (hnoop : common.getParamAtHardfork .sstoreNoopEIP2200Gas hardfork = none)
    (hinit : common.getParamAtHardfork .sstoreInitEIP2200Gas hardfork = none)
    (hclean : common.getParamAtHardfork .sstoreCleanEIP2200Gas hardfork = none)
    (hclear : common.getParamAtHardfork .sstoreClearRefundEIP2200Gas hardfork = none)
    {f : SstoreFrame} {cold : ℕ}
    (hcold : (coldAccess common hardfork f).1 = some (.bigint cold)) (runState : SstoreInput) :
    dynamicGasSstoreEIP2200 common hardfork runState f 0 =
      if runState.isStatic then .error .STATIC_STATE_CHANGE else .error .TypeError := by
  unfold dynamicGasSstoreEIP2200 clearRefund grantClear resetRefund bigIntSub
  simp only [hsentry, hnoop, hinit, hclean, hclear, hcold, atMost, bigInt, bind, Except.bind, pure,
    Except.pure, Bool.false_eq_true, if_false]
  split_ifs <;> rfl

/-- **The handler of the first table is the legacy rules**, where neither EIP-2929
nor EIP-6800 is active. -/
theorem dynamicGasSstore_eq {common : ChainSpec} {hardfork : Hardfork}
    (hset : common.getParamAtHardfork .sstoreSetGas hardfork = some (.bigint 20000))
    (hreset : common.getParamAtHardfork .sstoreResetGas hardfork = some (.bigint 5000))
    (hrefund : common.getParamAtHardfork .sstoreRefundGas hardfork = some (.bigint 15000))
    (h2929 : common.isEIPActiveAtHardfork 2929 hardfork = false)
    (h6800 : common.isEIPActiveAtHardfork 6800 hardfork = false)
    (runState : SstoreInput) (f : SstoreFrame) :
    dynamicGasSstore common hardfork runState f 0 =
      if runState.isStatic then .error .STATIC_STATE_CHANGE
      else (legacyMetering runState.pattern).settle 0 f := by
  unfold dynamicGasSstore updateSstoreGas
  simp only [hset, hreset, hrefund, h2929, h6800, bigInt, gt_iff_lt, Nat.pos_iff_ne_zero, ne_eq,
    runState.length_current_eq_zero, runState.length_value_eq_zero, bind, Except.bind, pure,
    Except.pure]
  unfold legacyMetering Metering.settle
  generalize runState.pattern = p
  cases p.currentIsZero <;> cases p.newIsZero <;> simp [SstoreFrame.refundGas]

/-! ## Which handler is installed -/

/-- **The table**: the handler of EIP-2200 from Constantinople on, and the first
table's before. The handler of EIP-1283 is always replaced. -/
theorem buildJumpTable_eq {common : ChainSpec} {hardfork : Hardfork}
    (hconstant : common.getParamAtHardfork .sstoreGas hardfork = some (.bigint 0)) :
    buildJumpTable common hardfork = .ok
      ⟨if Hardfork.constantinople.index ≤ hardfork.index then dynamicGasSstoreEIP2200
        else dynamicGasSstore, 0⟩ := by
  unfold buildJumpTable
  have horder : Hardfork.istanbul.index ≤ hardfork.index →
      Hardfork.constantinople.index ≤ hardfork.index := (by decide : _ ≤ _).trans
  simp only [hconstant, ChainSpec.hardforkGte_iff, bigInt, bind, Except.bind, pure, Except.pure]
  by_cases hc : Hardfork.constantinople.index ≤ hardfork.index
  · simp only [hc, if_true]
    split <;> rfl
  · simp only [hc, mt horder hc, if_false]
    rfl

theorem not_active6800 (hardfork : Hardfork) : ChainSpec.all.isEIPActiveAtHardfork 6800 hardfork = false := by
  cases hardfork <;> decide

theorem coldAccess_all (hardfork : Hardfork) (f : SstoreFrame) :
    coldAccess .all hardfork f =
      if Hardfork.berlin.index ≤ hardfork.index ∧ ¬ f.warm then (some (.bigint 2100), f.addWarmedStorage)
      else (some (.bigint 0), f) := by
  have hactive : ChainSpec.all.isEIPActiveAtHardfork 2929 hardfork =
      decide (Hardfork.berlin.index ≤ hardfork.index) := by
    cases hardfork <;> decide
  have hcold : Hardfork.berlin.index ≤ hardfork.index →
      ChainSpec.all.getParamAtHardfork .coldsloadGas hardfork = some (.bigint 2100) := by
    cases hardfork <;> decide
  unfold coldAccess
  rw [not_active6800, hactive]
  by_cases hberlin : Hardfork.berlin.index ≤ hardfork.index
  · simp [hberlin, hcold hberlin]
  · simp [hberlin]

/-- **From Istanbul on** the rule set is that of EIP-2200, and its gas is what the
handler reads. -/
theorem rules_of_istanbul {hardfork : Hardfork} (h : Hardfork.istanbul.index ≤ hardfork.index) :
    ∃ g : NetGas, 0 < g.clear ∧ Reads .all hardfork g ∧ sstoreRules hardfork =
      .eip2200 g (if Hardfork.berlin.index ≤ hardfork.index then some 2100 else none) := by
  cases hardfork <;> first
    | exact absurd h (by decide)
    | exact ⟨⟨800, 20000, 5000, 15000⟩, by decide, ⟨by decide, by decide, by decide, by decide, by decide⟩, rfl⟩
    | exact ⟨⟨100, 20000, 2900, 15000⟩, by decide, ⟨by decide, by decide, by decide, by decide, by decide⟩, rfl⟩
    | exact ⟨⟨100, 20000, 2900, 4800⟩, by decide, ⟨by decide, by decide, by decide, by decide, by decide⟩, rfl⟩

/-! ## The hardforks that are metered by their rules -/

section

variable {common : ChainSpec} {hardfork : Hardfork} (hcommon : common.CompleteTo hardfork)
include hcommon

theorem coldAccess_eq (f : SstoreFrame) : coldAccess common hardfork f = coldAccess .all hardfork f := by
  unfold coldAccess
  rw [hcommon.isEIPActiveAtHardfork, hcommon.isEIPActiveAtHardfork, hcommon.getParamAtHardfork]

theorem sstoreGas_eq (runState : SstoreInput) (f : SstoreFrame) :
    sstoreGas common hardfork runState f =
      if Hardfork.constantinople.index ≤ hardfork.index then
        dynamicGasSstoreEIP2200 common hardfork runState f 0
      else dynamicGasSstore common hardfork runState f 0 := by
  have hconstant : common.getParamAtHardfork .sstoreGas hardfork = some (.bigint 0) := by
    rw [hcommon.getParamAtHardfork]
    cases hardfork <;> decide
  rw [sstoreGas, buildJumpTable_eq hconstant]
  simp only [bind, Except.bind]
  split <;> rfl

theorem sstoreGas_of_istanbul (h : Hardfork.istanbul.index ≤ hardfork.index)
    (runState : SstoreInput) (f : SstoreFrame) :
    sstoreGas common hardfork runState f =
      (sstoreRules hardfork).sstore runState.pattern runState.isStatic runState.gasLeft f := by
  obtain ⟨g, hpos, hreads, hrules⟩ := rules_of_istanbul h
  have hreads : Reads common hardfork g :=
    { sentry := (hcommon.getParamAtHardfork _).trans hreads.sentry
      noop := (hcommon.getParamAtHardfork _).trans hreads.noop
      init := (hcommon.getParamAtHardfork _).trans hreads.init
      clean := (hcommon.getParamAtHardfork _).trans hreads.clean
      clear := (hcommon.getParamAtHardfork _).trans hreads.clear }
  have hconstantinople : Hardfork.constantinople.index ≤ hardfork.index :=
    (by decide : Hardfork.constantinople.index ≤ Hardfork.istanbul.index).trans h
  have hcold := coldAccess_eq hcommon f
  rw [coldAccess_all] at hcold
  rw [sstoreGas_eq hcommon, if_pos hconstantinople, hrules]
  unfold SstoreRules.sstore
  by_cases hcharged : Hardfork.berlin.index ≤ hardfork.index ∧ ¬ f.warm
  · rw [if_pos hcharged] at hcold
    rw [dynamicGasSstoreEIP2200_eq hreads hpos (congrArg Prod.fst hcold), hcold]
    simp [hcharged.1, hcharged.2]
  · rw [if_neg hcharged] at hcold
    rw [dynamicGasSstoreEIP2200_eq hreads hpos (congrArg Prod.fst hcold), hcold]
    by_cases hberlin : Hardfork.berlin.index ≤ hardfork.index
    · have hwarm : f.warm = true := by simpa [hberlin] using hcharged
      have hsame : f.addWarmedStorage = f := by
        rw [SstoreFrame.addWarmedStorage, ← hwarm]
      simp [hberlin, hwarm, hsame]
    · simp [hberlin]

theorem sstoreGas_of_lt_constantinople (h : hardfork.index < Hardfork.constantinople.index)
    (runState : SstoreInput) (f : SstoreFrame) :
    sstoreGas common hardfork runState f =
      (sstoreRules hardfork).sstore runState.pattern runState.isStatic runState.gasLeft f := by
  have hlegacy : sstoreRules hardfork = .legacy ∧
      ChainSpec.all.isEIPActiveAtHardfork 2929 hardfork = false ∧
      ChainSpec.all.getParamAtHardfork .sstoreSetGas hardfork = some (.bigint 20000) ∧
      ChainSpec.all.getParamAtHardfork .sstoreResetGas hardfork = some (.bigint 5000) ∧
      ChainSpec.all.getParamAtHardfork .sstoreRefundGas hardfork = some (.bigint 15000) := by
    cases hardfork <;> first
      | exact absurd h (by decide)
      | exact ⟨rfl, by decide, by decide, by decide, by decide⟩
  obtain ⟨hrules, h2929, hset, hreset, hrefund⟩ := hlegacy
  rw [sstoreGas_eq hcommon, if_neg (by omega), hrules,
    dynamicGasSstore_eq (by rwa [hcommon.getParamAtHardfork]) (by rwa [hcommon.getParamAtHardfork])
      (by rwa [hcommon.getParamAtHardfork]) (by rwa [hcommon.isEIPActiveAtHardfork])
      (by rw [hcommon.isEIPActiveAtHardfork, not_active6800])]
  rfl

/-- **At Constantinople and Petersburg every write throws** that the static check
lets through. -/
theorem sstoreGas_undefined (h : hardfork = .constantinople ∨ hardfork = .petersburg)
    (runState : SstoreInput) (f : SstoreFrame) :
    sstoreGas common hardfork runState f =
      if runState.isStatic then .error .STATIC_STATE_CHANGE else .error .TypeError := by
  have hnone : ∀ param, EIP1_PARAMS param = none → EIP1013_PARAMS param = none →
      EIP1716_PARAMS param = none → common.getParamAtHardfork param hardfork = none := by
    intro param h1 h1013 h1716
    rw [hcommon.getParamAtHardfork]
    cases param <;> first
      | exact absurd h1 (by decide)
      | exact absurd h1013 (by decide)
      | (rcases h with rfl | rfl <;> decide)
  have hcold : (coldAccess common hardfork f).1 = some (.bigint 0) := by
    rw [coldAccess_eq hcommon, coldAccess_all]
    rcases h with rfl | rfl <;> rfl
  have hconstantinople : Hardfork.constantinople.index ≤ hardfork.index := by
    rcases h with rfl | rfl <;> decide
  rw [sstoreGas_eq hcommon, if_pos hconstantinople,
    dynamicGasSstoreEIP2200_undefined (hnone _ rfl rfl rfl) (hnone _ rfl rfl rfl)
      (hnone _ rfl rfl rfl) (hnone _ rfl rfl rfl) (hnone _ rfl rfl rfl) hcold]

end

theorem SstoreRules.sstore_static (rules : SstoreRules) (p : SlotPattern) {isStatic : Bool}
    (h : isStatic) (gasLeft : ℤ) (f : SstoreFrame) :
    rules.sstore p isStatic gasLeft f = .error .STATIC_STATE_CHANGE := by
  unfold SstoreRules.sstore
  rw [if_pos h]

theorem Metering.settle_ne_typeError (m : Metering) (cold : ℕ) (f : SstoreFrame) :
    m.settle cold f ≠ .error .TypeError := by
  unfold Metering.settle
  split <;> simp

theorem SstoreRules.sstore_ne_typeError (rules : SstoreRules) (p : SlotPattern) (isStatic : Bool)
    (gasLeft : ℤ) (f : SstoreFrame) : rules.sstore p isStatic gasLeft f ≠ .error .TypeError := by
  unfold SstoreRules.sstore
  split
  · simp
  · split
    · exact Metering.settle_ne_typeError _ _ _
    · exact Metering.settle_ne_typeError _ _ _
    · split
      · simp
      · split
        · exact Metering.settle_ne_typeError _ _ _
        · exact Metering.settle_ne_typeError _ _ _

/-- **Which writes are charged and refunded by the rule set of their hardfork**: on
a chain that lists the hardfork and those before it, all but those a frame that is
not static makes at Constantinople or Petersburg, whatever the three values and
however they are padded. -/
theorem sstoreGas_iff (common : ChainSpec) (hardfork : Hardfork) (hcommon : common.CompleteTo hardfork)
    (runState : SstoreInput) (f : SstoreFrame) :
    sstoreGas common hardfork runState f =
        (sstoreRules hardfork).sstore
          (slotPattern (ofBigEndian runState.original) (ofBigEndian runState.current) runState.val)
          runState.isStatic runState.gasLeft f ↔
      runState.isStatic ∨ (hardfork ≠ .constantinople ∧ hardfork ≠ .petersburg) := by
  by_cases hundefined : hardfork = .constantinople ∨ hardfork = .petersburg
  · rw [sstoreGas_undefined hcommon hundefined]
    have hnot : ¬ (hardfork ≠ .constantinople ∧ hardfork ≠ .petersburg) := by tauto
    simp only [hnot, or_false]
    constructor
    · intro heq
      by_contra hstatic
      rw [if_neg hstatic] at heq
      exact SstoreRules.sstore_ne_typeError _ _ _ _ _ heq.symm
    · intro hstatic
      rw [if_pos hstatic, SstoreRules.sstore_static _ _ hstatic]
  · have hdefined : hardfork ≠ .constantinople ∧ hardfork ≠ .petersburg := by tauto
    refine iff_of_true ?_ (.inr hdefined)
    by_cases histanbul : Hardfork.istanbul.index ≤ hardfork.index
    · exact sstoreGas_of_istanbul hcommon histanbul runState f
    · refine sstoreGas_of_lt_constantinople hcommon ?_ runState f
      cases hardfork <;> first
        | decide
        | exact absurd (by decide) histanbul
        | exact absurd rfl hdefined.1
        | exact absurd rfl hdefined.2

/-! ## A write at Constantinople -/

/-- A slot that is zero, in its shortest form and padded, is set to one. -/
def setToOne : SstoreInput where
  isStatic := false
  gasLeft := 100000
  val := 1
  current := []
  original := [0, 0]
  writeAccountStorage := 0
  val_lt := by decide
  length_current := by decide
  length_original := by decide

/-- A frame that has no refund, and the slot cold. -/
def freshFrame : SstoreFrame := ⟨0, false⟩

/-- At Berlin the write is charged as the rules say. -/
theorem sstoreGas_iff_berlin :
    sstoreGas .all .berlin setToOne freshFrame = .ok (22100, ⟨0, true⟩) := by
  rw [(sstoreGas_iff .all .berlin (ChainSpec.completeTo_all _) setToOne freshFrame).2
    (.inr ⟨by decide, by decide⟩)]
  decide

/-- At Constantinople the write throws, where the rules charge for a slot that is
set. -/
theorem not_sstoreGas_constantinople :
    sstoreGas .all .constantinople setToOne freshFrame = .error .TypeError ∧
      (sstoreRules .constantinople).sstore
          (slotPattern (ofBigEndian setToOne.original) (ofBigEndian setToOne.current) setToOne.val)
          setToOne.isStatic setToOne.gasLeft freshFrame =
        .ok (20000, freshFrame) := by
  decide

end TsEthereum.Evm
