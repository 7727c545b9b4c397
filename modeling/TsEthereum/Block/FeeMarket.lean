import TsEthereum.Block.Validation
import Mathlib.Algebra.BigOperators.Fin
import Mathlib.Algebra.Order.BigOperators.Group.Finset
import Mathlib.Tactic.NormNum

/-!
# What a fee does from block to block

`calcNextBaseFee` against the formula of EIP-1559, in integers and without the guards: how far a
base fee moves in a block, that more gas never makes it lower, and that 7 is a floor of every
chain. `fakeExponential` against the sum of EIP-4844: its loop adds the terms of a series that
ends, and each of them grows with the numerator.
-/

namespace TsEthereum

namespace Block

open TsEthereum.ChainConfig

/-! ## The base fee -/

/-- **The formula of EIP-1559**, of a gas target, the gas that was used and a base fee. -/
def eip1559BaseFee (gasTarget gasUsed baseFee : ℤ) : ℤ :=
  if gasUsed = gasTarget then baseFee
  else if gasTarget < gasUsed then
    baseFee + max (baseFee * (gasUsed - gasTarget) / gasTarget / 8) 1
  else baseFee - baseFee * (gasTarget - gasUsed) / gasTarget / 8

/-- The `elasticityMultiplier` of a header's hardfork. -/
def elasticity (m : HardforkManager) (data : ValidatedHeader) : ℕ :=
  (m.getParamAtHardfork .elasticityMultiplier (data.getHardfork m)).getD 0

/-- **A parent of the fee market**, with its base fee. -/
structure FeeMarketParent (m : HardforkManager) (data : ValidatedHeader) (fee : ℕ) : Prop where
  active : data.isEIPActive m 1559 = true
  baseFee : data.baseFeePerGas = some fee
  gasUsed : data.gasUsed ≤ data.gasLimit
  gasLimit : ∃ k, 0 < k ∧ data.gasLimit = k * elasticity m data

/-- `calcNextBaseFee`, of a gas target, the gas that was used and a base fee. -/
def nextBaseFee (gasTarget gasUsed baseFee : ℕ) : ℕ :=
  if gasTarget = gasUsed then baseFee
  else if gasUsed > gasTarget then
    max (baseFee * (gasUsed - gasTarget) / gasTarget / 8) 1 + baseFee
  else baseFee - baseFee * (gasTarget - gasUsed) / gasTarget / 8

section

variable {gasTarget gasUsed gasUsed' fee : ℕ}

theorem delta_le (hpos : 0 < gasTarget) {delta : ℕ} (h : delta ≤ gasTarget) :
    fee * delta / gasTarget / 8 ≤ fee / 8 := by
  apply Nat.div_le_div_right
  rw [Nat.div_le_iff_le_mul_add_pred hpos, Nat.mul_comm gasTarget]
  exact (Nat.mul_le_mul_left fee h).trans (Nat.le_add_right _ _)

theorem delta_mono {delta delta' : ℕ} (h : delta ≤ delta') :
    fee * delta / gasTarget / 8 ≤ fee * delta' / gasTarget / 8 :=
  Nat.div_le_div_right (Nat.div_le_div_right (Nat.mul_le_mul_left fee h))

theorem nextBaseFee_eq (hpos : 0 < gasTarget) :
    (nextBaseFee gasTarget gasUsed fee : ℤ) = eip1559BaseFee gasTarget gasUsed fee := by
  rw [nextBaseFee, eip1559BaseFee]
  by_cases heq : gasTarget = gasUsed
  · have heq' : (gasUsed : ℤ) = gasTarget := by rw [heq]
    rw [if_pos heq, if_pos heq']
  · have heq' : ¬ (gasUsed : ℤ) = gasTarget := by omega
    rw [if_neg heq, if_neg heq']
    by_cases hlt : gasUsed > gasTarget
    · have hlt' : (gasTarget : ℤ) < gasUsed := by omega
      rw [if_pos hlt, if_pos hlt']
      push_cast [hlt.le]
      ring
    · -- the formula is not cut off at zero
      have hlt' : ¬ (gasTarget : ℤ) < gasUsed := by omega
      have hle : fee * (gasTarget - gasUsed) / gasTarget / 8 ≤ fee :=
        (delta_le hpos (Nat.sub_le _ _)).trans (Nat.div_le_self _ _)
      rw [if_neg hlt, if_neg hlt']
      push_cast [hle, show gasUsed ≤ gasTarget by omega]
      rfl

theorem nextBaseFee_le (hpos : 0 < gasTarget) (hused : gasUsed ≤ 2 * gasTarget) :
    nextBaseFee gasTarget gasUsed fee ≤ fee + max 1 (fee / 8) := by
  rw [nextBaseFee]
  split
  · omega
  · split
    · have hdelta : fee * (gasUsed - gasTarget) / gasTarget / 8 ≤ fee / 8 :=
        delta_le hpos (by omega)
      omega
    · exact (Nat.sub_le _ _).trans (Nat.le_add_right _ _)

theorem le_nextBaseFee (gasUsed fee : ℕ) (hpos : 0 < gasTarget) :
    fee ≤ nextBaseFee gasTarget gasUsed fee + fee / 8 := by
  rw [nextBaseFee]
  split
  · omega
  · split
    · omega
    · have hdelta : fee * (gasTarget - gasUsed) / gasTarget / 8 ≤ fee / 8 :=
        delta_le hpos (Nat.sub_le _ _)
      omega

theorem nextBaseFee_mono (h : gasUsed ≤ gasUsed') :
    nextBaseFee gasTarget gasUsed fee ≤ nextBaseFee gasTarget gasUsed' fee := by
  have habove : fee * (gasUsed - gasTarget) / gasTarget / 8 ≤
      fee * (gasUsed' - gasTarget) / gasTarget / 8 := delta_mono (by omega)
  have hbelow : fee * (gasTarget - gasUsed') / gasTarget / 8 ≤
      fee * (gasTarget - gasUsed) / gasTarget / 8 := delta_mono (by omega)
  rw [nextBaseFee, nextBaseFee]
  generalize fee * (gasUsed - gasTarget) / gasTarget / 8 = above at *
  generalize fee * (gasUsed' - gasTarget) / gasTarget / 8 = above' at *
  generalize fee * (gasTarget - gasUsed) / gasTarget / 8 = below at *
  generalize fee * (gasTarget - gasUsed') / gasTarget / 8 = below' at *
  -- either amount of gas is the target, above it or below
  by_cases heq : gasTarget = gasUsed
  · rw [if_pos heq]
    split
    · exact le_rfl
    · rw [if_pos (by omega)]
      omega
  · rw [if_neg heq]
    split
    · rw [if_neg (by omega), if_pos (by omega)]
      omega
    · split
      · omega
      · split
        · omega
        · omega

theorem seven_le_nextBaseFee (hpos : 0 < gasTarget) (h : 7 ≤ fee) :
    7 ≤ nextBaseFee gasTarget gasUsed fee := by
  have hfall := le_nextBaseFee gasUsed fee hpos
  omega

end

section

variable {m : HardforkManager} {data : ValidatedHeader} {fee : ℕ}

namespace FeeMarketParent

theorem hardfork (h : FeeMarketParent m data fee) :
    m.isEIPActiveAtHardfork 1559 (data.getHardfork m) = true := h.active

theorem elasticity_eq (h : FeeMarketParent m data fee) : elasticity m data = 2 := by
  rw [elasticity, HardforkManager.getParam_elasticityMultiplier h.hardfork, Option.getD_some]

theorem target (h : FeeMarketParent m data fee) :
    0 < data.gasLimit / 2 ∧ data.gasLimit = 2 * (data.gasLimit / 2) := by
  obtain ⟨k, hpos, hlimit⟩ := h.gasLimit
  rw [h.elasticity_eq] at hlimit
  omega

theorem calcNextBaseFee_eq (h : FeeMarketParent m data fee) :
    data.calcNextBaseFee m = .ok (nextBaseFee (data.gasLimit / 2) data.gasUsed fee) := by
  have htarget : data.gasLimit / 2 ≠ 0 := h.target.1.ne'
  simp only [ValidatedHeader.calcNextBaseFee, if_pos h.active, h.baseFee,
    HardforkManager.getParam_elasticityMultiplier h.hardfork,
    HardforkManager.getParam_baseFeeMaxChangeDenominator h.hardfork, Option.getD_some,
    OfNat.ofNat_ne_zero, if_false, htarget, or_false, nextBaseFee]
  split
  · rfl
  · split
    · rfl
    · rfl

theorem withGasUsed (h : FeeMarketParent m data fee) {gasUsed : ℕ} (hused : gasUsed ≤ data.gasLimit) :
    FeeMarketParent m { data with gasUsed } fee :=
  ⟨h.active, h.baseFee, hused, h.gasLimit⟩

end FeeMarketParent

/-- **A block checked against its parent**, as far as its base fee goes. -/
def BaseFeeChecked (m : HardforkManager) (parent child : ValidatedHeader) : Prop :=
  checkBaseFee m child parent (child.getHardfork m) = .ok ()

theorem seven_le_of_checked {parent child : ValidatedHeader} {fee' : ℕ}
    (h : FeeMarketParent m parent fee) (hfee : 7 ≤ fee) (hchild : child.isEIPActive m 1559 = true)
    (hchecked : BaseFeeChecked m parent child) (hfee' : child.baseFeePerGas = some fee') :
    7 ≤ fee' := by
  have hactive : m.isEIPActiveAtHardfork 1559 (child.getHardfork m) = true := hchild
  rw [BaseFeeChecked, checkBaseFee, if_pos hactive, bind_eq_ok] at hchecked
  obtain ⟨expected, hexpected, hcheck⟩ := hchecked
  have heq : fee' = expected := by
    rw [hfee'] at hcheck
    split at hcheck
    · next hsome => exact Option.some.inj hsome
    · cases hcheck
  subst heq
  rw [expectedBaseFee, HardforkManager.getParam_initialBaseFee hactive] at hexpected
  split at hexpected
  · obtain rfl := Except.ok.inj hexpected
    norm_num
  · rw [h.calcNextBaseFee_eq] at hexpected
    obtain rfl := Except.ok.inj hexpected
    exact seven_le_nextBaseFee h.target.1 hfee

theorem seven_le_of_chain {headers : List ValidatedHeader} (h : FeeMarketParent m data fee)
    (hfee : 7 ≤ fee) (hchain : (data :: headers).IsChain (BaseFeeChecked m))
    (hheaders : ∀ header ∈ headers, ∃ fee, FeeMarketParent m header fee) :
    ∀ header ∈ headers, ∀ fee, header.baseFeePerGas = some fee → 7 ≤ fee := by
  induction headers generalizing data fee with
  | nil =>
    intro header hmem
    cases hmem
  | cons next headers ih =>
    obtain ⟨hchecked, hchain⟩ := List.isChain_cons_cons.1 hchain
    obtain ⟨fee', hnext⟩ := hheaders next List.mem_cons_self
    have hfee' : 7 ≤ fee' := seven_le_of_checked h hfee hnext.active hchecked hnext.baseFee
    intro header hmem fee hsome
    rcases List.mem_cons.1 hmem with rfl | hmem
    · rw [hnext.baseFee] at hsome
      obtain rfl := Option.some.inj hsome
      exact hfee'
    · exact ih hnext hfee' hchain (List.forall_mem_cons.1 hheaders).2
        header hmem fee hsome

/-- **The step of the fee market**: the next base fee is that of the formula, an eighth away at
most, never lower for more gas, and never below 7 on a chain that was not. -/
theorem feeMarket_step (h : FeeMarketParent m data fee) :
    (∃ next, data.calcNextBaseFee m = .ok next ∧
      (next : ℤ) = eip1559BaseFee (data.gasLimit / elasticity m data) data.gasUsed fee ∧
      next ≤ fee + max 1 (fee / 8) ∧ fee ≤ next + fee / 8) ∧
    (∀ gasUsed next next', data.gasUsed ≤ gasUsed → gasUsed ≤ data.gasLimit →
      data.calcNextBaseFee m = .ok next →
      ({ data with gasUsed } : ValidatedHeader).calcNextBaseFee m = .ok next' → next ≤ next') ∧
    (∀ headers, (data :: headers).IsChain (BaseFeeChecked m) →
      (∀ header ∈ headers, ∃ fee, FeeMarketParent m header fee) → 7 ≤ fee →
      ∀ header ∈ headers, ∀ fee, header.baseFeePerGas = some fee → 7 ≤ fee) := by
  obtain ⟨hpos, hlimit⟩ := h.target
  refine ⟨⟨_, h.calcNextBaseFee_eq, ?_, ?_, le_nextBaseFee _ _ hpos⟩, ?_, ?_⟩
  · rw [h.elasticity_eq, nextBaseFee_eq hpos]
    push_cast
    rfl
  · have hused := h.gasUsed
    exact nextBaseFee_le hpos (by omega)
  · intro gasUsed next next' hle hused hnext hnext'
    rw [h.calcNextBaseFee_eq] at hnext
    rw [(h.withGasUsed hused).calcNextBaseFee_eq] at hnext'
    obtain rfl := Except.ok.inj hnext
    obtain rfl := Except.ok.inj hnext'
    exact nextBaseFee_mono hle
  · intro headers hchain hheaders hfee
    exact seven_le_of_chain h hfee hchain hheaders

/-- A full block at a base fee of 7. -/
def sampleFullBlock (number : ℕ) : ValidatedHeader :=
  { coreDefaults number 0 with gasLimit := 30000000, gasUsed := 30000000, baseFeePerGas := some 7 }

theorem feeMarket_step_sampleFullBlock :
    ∃ next, (sampleFullBlock 20).calcNextBaseFee sampleManager = .ok next ∧ next ≤ 8 := by
  obtain ⟨⟨next, hnext, -, hle, -⟩, -, -⟩ :=
    feeMarket_step (show FeeMarketParent sampleManager (sampleFullBlock 20) 7 from
      ⟨by decide +kernel, rfl, le_rfl, 15000000, by decide, by decide +kernel⟩)
  exact ⟨next, hnext, hle⟩

end

/-! ## The blob base fee -/

/-- **The terms that EIP-4844 sums**, times the denominator. -/
def taylorTerm (factor numerator denominator : ℕ) : ℕ → ℕ
  | 0 => factor * denominator
  | n + 1 => taylorTerm factor numerator denominator n * numerator / (denominator * (n + 1))

section

variable {factor numerator numerator' denominator : ℕ}

theorem taylorTerm_eq_zero {n k : ℕ} (h : taylorTerm factor numerator denominator n = 0)
    (hle : n ≤ k) : taylorTerm factor numerator denominator k = 0 := by
  induction k, hle using Nat.le_induction with
  | base => exact h
  | succ k _ ih => rw [taylorTerm, ih, Nat.zero_mul, Nat.zero_div]

theorem taylorTerm_succ_lt (hpos : 0 < denominator) {n : ℕ} (hn : numerator ≤ n)
    (hterm : taylorTerm factor numerator denominator n ≠ 0) :
    taylorTerm factor numerator denominator (n + 1) <
      taylorTerm factor numerator denominator n := by
  rw [taylorTerm, Nat.div_lt_iff_lt_mul (Nat.mul_pos hpos (Nat.succ_pos n))]
  apply Nat.mul_lt_mul_of_pos_left _ (Nat.pos_of_ne_zero hterm)
  calc numerator < n + 1 := by omega
    _ ≤ denominator * (n + 1) := Nat.le_mul_of_pos_left _ hpos

theorem taylorTerm_le (factor numerator : ℕ) (hpos : 0 < denominator) (k : ℕ) :
    taylorTerm factor numerator denominator (numerator + k) ≤
      taylorTerm factor numerator denominator numerator - k := by
  induction k with
  | zero => exact le_rfl
  | succ k ih =>
    by_cases hterm : taylorTerm factor numerator denominator (numerator + k) = 0
    · rw [taylorTerm_eq_zero hterm (Nat.add_le_add_left (Nat.le_succ k) numerator)]
      exact Nat.zero_le _
    · have hlt := taylorTerm_succ_lt hpos (Nat.le_add_right numerator k) hterm
      rw [← Nat.add_assoc]
      omega

theorem exists_taylorTerm_eq_zero (factor numerator : ℕ) (hpos : 0 < denominator) :
    ∃ n, taylorTerm factor numerator denominator n = 0 := by
  refine ⟨numerator + taylorTerm factor numerator denominator numerator, ?_⟩
  have hle := taylorTerm_le factor numerator hpos
    (taylorTerm factor numerator denominator numerator)
  omega

theorem fakeExponentialLoop_eq {n : ℕ} (k output : ℕ)
    (hend : taylorTerm factor numerator denominator (n + k) = 0) :
    fakeExponentialLoop numerator denominator (n + 1) output
        (taylorTerm factor numerator denominator n) =
      output + ∑ j ∈ Finset.range k, taylorTerm factor numerator denominator (n + j) := by
  induction k generalizing n output with
  | zero =>
    rw [Nat.add_zero] at hend
    rw [fakeExponentialLoop, dif_pos hend, Finset.sum_range_zero, Nat.add_zero]
  | succ k ih =>
    by_cases hterm : taylorTerm factor numerator denominator n = 0
    · rw [fakeExponentialLoop, dif_pos hterm, Finset.sum_eq_zero, Nat.add_zero]
      intro j _
      exact taylorTerm_eq_zero hterm (Nat.le_add_right n j)
    · have hrest := ih (n := n + 1) (output + taylorTerm factor numerator denominator n)
        (by rwa [Nat.add_assoc, Nat.add_comm 1])
      rw [fakeExponentialLoop, dif_neg hterm]
      refine hrest.trans ?_
      rw [Finset.sum_range_succ', Nat.add_zero, Nat.add_assoc, Nat.add_comm (taylorTerm _ _ _ n)]
      congr 2
      refine Finset.sum_congr rfl fun j _ => ?_
      rw [Nat.add_assoc, Nat.add_comm 1]

theorem fakeExponential_eq {n : ℕ} (hend : taylorTerm factor numerator denominator n = 0) :
    fakeExponential factor numerator denominator =
      (∑ j ∈ Finset.range n, taylorTerm factor numerator denominator j) / denominator := by
  have hloop := fakeExponentialLoop_eq (n := 0) n 0 (by rwa [Nat.zero_add])
  rw [fakeExponential, show factor * denominator = taylorTerm factor numerator denominator 0 from rfl,
    hloop, Nat.zero_add]
  simp only [Nat.zero_add]

theorem taylorTerm_mono (h : numerator ≤ numerator') (n : ℕ) :
    taylorTerm factor numerator denominator n ≤ taylorTerm factor numerator' denominator n := by
  induction n with
  | zero => exact le_rfl
  | succ n ih => exact Nat.div_le_div_right (Nat.mul_le_mul ih h)

theorem fakeExponential_mono (hpos : 0 < denominator) (h : numerator ≤ numerator') :
    fakeExponential factor numerator denominator ≤
      fakeExponential factor numerator' denominator := by
  obtain ⟨n, hend⟩ := exists_taylorTerm_eq_zero factor numerator' hpos
  have hend' : taylorTerm factor numerator denominator n = 0 :=
    Nat.le_zero.1 (hend ▸ taylorTerm_mono h n)
  rw [fakeExponential_eq hend, fakeExponential_eq hend']
  exact Nat.div_le_div_right (Finset.sum_le_sum fun j _ => taylorTerm_mono h j)

/-- What a parameter's value is at least, when each EIP that sets it sets it so. -/
theorem le_of_foldl {f : ℕ → Option ℕ} {bound value : ℕ}
    (hf : ∀ eip value, f eip = some value → bound ≤ value) {eips : List ℕ} {result : Option ℕ}
    (hresult : ∀ value, result = some value → bound ≤ value)
    (h : eips.foldl (fun result eip => (f eip).or result) result = some value) : bound ≤ value := by
  induction eips generalizing result with
  | nil => exact hresult value h
  | cons eip eips ih =>
    refine ih (fun value' hvalue => ?_) h
    dsimp only at hvalue
    cases heip : f eip with
    | none =>
      rw [heip, Option.none_or] at hvalue
      exact hresult value' hvalue
    | some set =>
      rw [heip, Option.some_or] at hvalue
      exact hf eip value' (heip.trans hvalue)

theorem blobGasPriceUpdateFraction_pos (m : HardforkManager) (hardfork : Hardfork) :
    0 < (m.getParamAtHardfork .blobGasPriceUpdateFraction hardfork).getD 3338477 := by
  cases hparam : m.getParamAtHardfork .blobGasPriceUpdateFraction hardfork with
  | none => norm_num
  | some value =>
    rw [Option.getD_some]
    rw [HardforkManager.getParamAtHardfork] at hparam
    have hf : ∀ eip value, BlockParam.EIP_PARAMS eip .blobGasPriceUpdateFraction = some value →
        1 ≤ value := by
      intro eip value heq
      unfold BlockParam.EIP_PARAMS at heq
      split at heq <;> cases heq <;> norm_num
    split at hparam
    · cases hparam
    · exact le_of_foldl hf (fun value hvalue => by cases hvalue) hparam

/-- **`fakeExponential` ends**, with the sum of EIP-4844 over its denominator; it is not less than
the factor and grows with the numerator, and so does the blob base fee with the excess. -/
theorem fakeExponential_spec (factor numerator : ℕ) (hpos : 0 < denominator) :
    (∃ turns, ∀ n, turns ≤ n → taylorTerm factor numerator denominator n = 0 ∧
      fakeExponential factor numerator denominator =
        (∑ j ∈ Finset.range n, taylorTerm factor numerator denominator j) / denominator) ∧
    factor ≤ fakeExponential factor numerator denominator ∧
    (∀ numerator', numerator ≤ numerator' →
      fakeExponential factor numerator denominator ≤
        fakeExponential factor numerator' denominator) ∧
    ∀ (m : HardforkManager) (hardfork : Hardfork) (excess excess' : ℕ), excess ≤ excess' →
      computeBlobGasPrice excess m hardfork ≤ computeBlobGasPrice excess' m hardfork := by
  obtain ⟨turns, hend⟩ := exists_taylorTerm_eq_zero factor numerator hpos
  refine ⟨⟨turns, fun n hle => ?_⟩, le_fakeExponential factor numerator hpos,
    fun numerator' h => fakeExponential_mono hpos h, ?_⟩
  · have hzero := taylorTerm_eq_zero hend hle
    exact ⟨hzero, fakeExponential_eq hzero⟩
  · intro m hardfork excess excess' h
    exact fakeExponential_mono (blobGasPriceUpdateFraction_pos m hardfork) h

theorem fakeExponential_spec_one :
    (∃ turns, ∀ n, turns ≤ n → taylorTerm 1 6 2 n = 0 ∧
      fakeExponential 1 6 2 = (∑ j ∈ Finset.range n, taylorTerm 1 6 2 j) / 2) ∧
    1 ≤ fakeExponential 1 6 2 ∧ fakeExponential 1 6 2 ≤ fakeExponential 1 7 2 := by
  obtain ⟨hsum, hle, hmono, -⟩ := fakeExponential_spec 1 6 (show 0 < 2 by decide)
  exact ⟨hsum, hle, hmono 7 (by decide)⟩

end

end Block

end TsEthereum
