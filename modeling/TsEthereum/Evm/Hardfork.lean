import Mathlib.Data.List.Flatten
import Mathlib.Data.List.Sort
import Mathlib.Data.Nat.Notation

/-!
# Hardforks and their gas parameters

`chain-config`: the hardforks in their order, the EIPs each brings, and the
parameters an EIP sets. A chain lists some hardforks, in order, and a parameter
at a hardfork is what the last EIP up to it says. Two chains that list every
hardfork that brings an EIP read the same parameters (`CompleteTo.getParamAtHardfork`),
and hardforks compare as in `HARDFORK_ORDER` on any chain (`hardforkGte_iff`).

Of the parameters only those `SSTORE` reads are here.
-/

namespace TsEthereum

/-- A `Hardfork`. -/
inductive Hardfork where
  | chainstart | homestead | dao | tangerineWhistle | spuriousDragon | byzantium
  | constantinople | petersburg | istanbul | muirGlacier | berlin | london
  | arrowGlacier | grayGlacier | paris | mergeNetsplitBlock | shanghai | cancun
  | prague | osaka | bpo1 | bpo2 | bpo3 | bpo4 | bpo5
  deriving DecidableEq

open Hardfork in
def HARDFORK_ORDER : List Hardfork :=
  [chainstart, homestead, dao, tangerineWhistle, spuriousDragon, byzantium,
    constantinople, petersburg, istanbul, muirGlacier, berlin, london,
    arrowGlacier, grayGlacier, paris, mergeNetsplitBlock, shanghai, cancun,
    prague, osaka, bpo1, bpo2, bpo3, bpo4, bpo5]

/-- `getHardforkIndex`. -/
def Hardfork.index (hardfork : Hardfork) : ℕ := HARDFORK_ORDER.idxOf hardfork

def HARDFORK_EIPS : Hardfork → List ℕ
  | .chainstart => [1]
  | .homestead => [606]
  | .tangerineWhistle => [608]
  | .spuriousDragon => [607]
  | .byzantium => [609]
  | .constantinople => [1013]
  | .petersburg => [1716]
  | .istanbul => [1679]
  | .muirGlacier => [2384]
  | .berlin => [2565, 2929, 2930, 2718]
  | .london => [1559, 3198, 3529, 3541]
  | .arrowGlacier => [4345]
  | .grayGlacier => [5133]
  | .paris => [3675, 4399]
  | .shanghai => [3651, 3855, 3860, 4895]
  | .cancun => [1153, 4788, 4844, 5656, 6780, 7516, 7594]
  | .prague => [2537, 2935, 6110, 7002, 7251, 7623, 7685, 7691, 7702, 7825]
  | .osaka =>
    [663, 3540, 3670, 4200, 4750, 5450, 6206, 7069, 7480, 7620, 7692, 7698, 7934, 7939]
  | .dao => []
  | .mergeNetsplitBlock => []
  | .bpo1 => [99001]
  | .bpo2 => [99002]
  | .bpo3 => []
  | .bpo4 => []
  | .bpo5 => []

/-- The parameters `SSTORE` reads. -/
inductive ParamName where
  | sstoreGas | sstoreSetGas | sstoreResetGas | sstoreRefundGas
  | netSstoreNoopGas | netSstoreInitGas | netSstoreCleanGas | netSstoreDirtyGas
  | netSstoreClearRefundGas | netSstoreResetRefundGas | netSstoreResetClearRefundGas
  | sstoreSentryEIP2200Gas | sstoreNoopEIP2200Gas | sstoreInitEIP2200Gas
  | sstoreCleanEIP2200Gas | sstoreClearRefundEIP2200Gas
  | coldsloadGas | warmstoragereadGas
  deriving DecidableEq

/-- A parameter that is set: an EIP may set one to `null`. -/
inductive ParamValue where
  | null
  | bigint (n : ℕ)
  deriving DecidableEq

def EIP1_PARAMS : ParamName → Option ParamValue
  | .sstoreSetGas => some (.bigint 20000)
  | .sstoreResetGas => some (.bigint 5000)
  | .sstoreRefundGas => some (.bigint 15000)
  | .sstoreGas => some (.bigint 0)
  | _ => none

/-- `EIP1013_PARAMS`: Constantinople. -/
def EIP1013_PARAMS : ParamName → Option ParamValue
  | .netSstoreNoopGas => some (.bigint 200)
  | .netSstoreInitGas => some (.bigint 20000)
  | .netSstoreCleanGas => some (.bigint 5000)
  | .netSstoreDirtyGas => some (.bigint 200)
  | .netSstoreClearRefundGas => some (.bigint 15000)
  | .netSstoreResetRefundGas => some (.bigint 4800)
  | .netSstoreResetClearRefundGas => some (.bigint 19800)
  | _ => none

/-- `EIP1716_PARAMS`: Petersburg. -/
def EIP1716_PARAMS : ParamName → Option ParamValue
  | .netSstoreNoopGas => some .null
  | .netSstoreInitGas => some .null
  | .netSstoreCleanGas => some .null
  | .netSstoreDirtyGas => some .null
  | .netSstoreClearRefundGas => some .null
  | .netSstoreResetRefundGas => some .null
  | .netSstoreResetClearRefundGas => some .null
  | _ => none

/-- `EIP1679_PARAMS`: Istanbul. -/
def EIP1679_PARAMS : ParamName → Option ParamValue
  | .sstoreSentryEIP2200Gas => some (.bigint 2300)
  | .sstoreNoopEIP2200Gas => some (.bigint 800)
  | .sstoreInitEIP2200Gas => some (.bigint 20000)
  | .sstoreCleanEIP2200Gas => some (.bigint 5000)
  | .sstoreClearRefundEIP2200Gas => some (.bigint 15000)
  | _ => none

/-- `EIP2929_PARAMS`: Berlin. -/
def EIP2929_PARAMS : ParamName → Option ParamValue
  | .coldsloadGas => some (.bigint 2100)
  | .warmstoragereadGas => some (.bigint 100)
  | .sstoreCleanEIP2200Gas => some (.bigint 2900)
  | .sstoreNoopEIP2200Gas => some (.bigint 100)
  | .sstoreGas => some (.bigint 0)
  | _ => none

/-- `EIP3529_PARAMS`: London. -/
def EIP3529_PARAMS : ParamName → Option ParamValue
  | .sstoreClearRefundEIP2200Gas => some (.bigint 4800)
  | _ => none

def EIP6800_PARAMS : ParamName → Option ParamValue
  | .coldsloadGas => some (.bigint 0)
  | _ => none

def EIP_PARAMS (eip : ℕ) (param : ParamName) : Option ParamValue :=
  match eip with
  | 1 => EIP1_PARAMS param
  | 1013 => EIP1013_PARAMS param
  | 1679 => EIP1679_PARAMS param
  | 1716 => EIP1716_PARAMS param
  | 2929 => EIP2929_PARAMS param
  | 3529 => EIP3529_PARAMS param
  | 6800 => EIP6800_PARAMS param
  | _ => none

/-- **A chain's hardforks**, in the order `_validateAndSetChainSchema` checks. -/
structure ChainSpec where
  hardforks : List Hardfork
  ordered : hardforks.Pairwise fun hardfork later => hardfork.index < later.index

namespace ChainSpec

variable (spec : ChainSpec)

/-- `_hardforkIndex.get`. -/
def hardforkIndex (hardfork : Hardfork) : Option ℕ :=
  if hardfork ∈ spec.hardforks then some (spec.hardforks.idxOf hardfork) else none

/-- The EIPs of the hardforks `0 … targetIndex`, one after the other. -/
def eipsUpTo (targetIndex : ℕ) : List ℕ :=
  (spec.hardforks.take (targetIndex + 1)).flatMap HARDFORK_EIPS

/-- **`getParamAtHardfork`**: the last EIP that sets the parameter wins, and
without one it is undefined. -/
def getParamAtHardfork (param : ParamName) (hardfork : Hardfork) : Option ParamValue :=
  match spec.hardforkIndex hardfork with
  | none => EIP1_PARAMS param
  | some targetIndex =>
    (spec.eipsUpTo targetIndex).foldl (fun result eip => (EIP_PARAMS eip param).or result)
      (EIP1_PARAMS param)

/-- **`isEIPActiveAtHardfork`**. -/
def isEIPActiveAtHardfork (eip : ℕ) (hardfork : Hardfork) : Bool :=
  match spec.hardforkIndex hardfork with
  | none => false
  | some targetIndex => (spec.eipsUpTo targetIndex).contains eip

/-- **`getHardforkForEIP`**. -/
def getHardforkForEIP (eip : ℕ) : Option Hardfork :=
  spec.hardforks.find? fun hardfork => (HARDFORK_EIPS hardfork).contains eip

/-- **`hardforkGte`**: by the chain's list, or by `HARDFORK_ORDER` when one of
the two is not on it. -/
def hardforkGte (hardfork target : Hardfork) : Bool :=
  match spec.hardforkIndex hardfork, spec.hardforkIndex target with
  | some hfIdx, some targetIdx => targetIdx ≤ hfIdx
  | _, _ => target.index ≤ hardfork.index

/-- The chain lists a hardfork, and up to it every hardfork that brings an EIP. -/
structure CompleteTo (hardfork : Hardfork) : Prop where
  mem : hardfork ∈ spec.hardforks
  mem_of_eips : ∀ h : Hardfork, h.index ≤ hardfork.index → HARDFORK_EIPS h ≠ [] →
    h ∈ spec.hardforks

/-- The chain that lists them all. -/
def all : ChainSpec where
  hardforks := HARDFORK_ORDER
  ordered := by decide

theorem mem_all (hardfork : Hardfork) : hardfork ∈ all.hardforks := by
  cases hardfork <;> decide

theorem completeTo_all (hardfork : Hardfork) : all.CompleteTo hardfork :=
  ⟨mem_all hardfork, fun h _ _ => mem_all h⟩

variable {spec} {hardfork target : Hardfork}

theorem take_idxOf {l : List Hardfork} (hl : l.Pairwise fun h later => h.index < later.index)
    (hmem : hardfork ∈ l) :
    l.take (l.idxOf hardfork + 1) = l.filter fun h => h.index ≤ hardfork.index := by
  induction l with
  | nil => simp at hmem
  | cons h l ih =>
    obtain ⟨hlater, hl⟩ := List.pairwise_cons.1 hl
    by_cases heq : h = hardfork
    · subst heq
      have hnone : l.filter (fun later => later.index ≤ h.index) = [] := by
        rw [List.filter_eq_nil_iff]
        intro later hmem
        have := hlater later hmem
        simpa using this
      simp [hnone]
    · have hmem : hardfork ∈ l := (List.mem_cons.1 hmem).resolve_left (Ne.symm heq)
      have hle : h.index ≤ hardfork.index := (hlater _ hmem).le
      rw [List.idxOf_cons_ne _ heq, List.take_succ_cons, ih hl hmem, List.filter_cons_of_pos (by simpa using hle)]

theorem flatMap_filter (l : List Hardfork) :
    (l.filter fun h => HARDFORK_EIPS h ≠ []).flatMap HARDFORK_EIPS = l.flatMap HARDFORK_EIPS := by
  induction l with
  | nil => rfl
  | cons h l ih =>
    by_cases hh : HARDFORK_EIPS h = []
    · rw [List.filter_cons_of_neg (by simpa using hh), ih, List.flatMap_cons, hh, List.nil_append]
    · rw [List.filter_cons_of_pos (by simpa using hh), List.flatMap_cons, ih, List.flatMap_cons]

theorem CompleteTo.eipsUpTo (h : spec.CompleteTo hardfork) :
    spec.eipsUpTo (spec.hardforks.idxOf hardfork) = all.eipsUpTo (all.hardforks.idxOf hardfork) := by
  rw [ChainSpec.eipsUpTo, ChainSpec.eipsUpTo, take_idxOf spec.ordered h.mem,
    take_idxOf all.ordered (mem_all hardfork), ← flatMap_filter, ← flatMap_filter (all.hardforks.filter _),
    List.filter_filter, List.filter_filter]
  congr 1
  refine (spec.ordered.filter _).eq_of_mem_iff (all.ordered.filter _) fun a => ?_
  simp only [List.mem_filter, mem_all, true_and, and_iff_right_iff_imp, Bool.and_eq_true,
    decide_eq_true_eq]
  rintro ⟨hne, hle⟩
  exact h.mem_of_eips a hle hne

theorem CompleteTo.getParamAtHardfork (h : spec.CompleteTo hardfork) (param : ParamName) :
    spec.getParamAtHardfork param hardfork = all.getParamAtHardfork param hardfork := by
  rw [ChainSpec.getParamAtHardfork, ChainSpec.getParamAtHardfork, hardforkIndex, hardforkIndex,
    if_pos h.mem, if_pos (mem_all hardfork)]
  simp only
  rw [h.eipsUpTo]

theorem CompleteTo.isEIPActiveAtHardfork (h : spec.CompleteTo hardfork) (eip : ℕ) :
    spec.isEIPActiveAtHardfork eip hardfork = all.isEIPActiveAtHardfork eip hardfork := by
  rw [ChainSpec.isEIPActiveAtHardfork, ChainSpec.isEIPActiveAtHardfork, hardforkIndex, hardforkIndex,
    if_pos h.mem, if_pos (mem_all hardfork)]
  simp only
  rw [h.eipsUpTo]

theorem idxOf_le_idxOf {l : List Hardfork} (hl : l.Pairwise fun h later => h.index < later.index)
    (htarget : target ∈ l) (hmem : hardfork ∈ l) :
    l.idxOf target ≤ l.idxOf hardfork ↔ target.index ≤ hardfork.index := by
  have hlt : ∀ {a b : Hardfork}, a ∈ l → b ∈ l → l.idxOf a < l.idxOf b → a.index < b.index := by
    intro a b ha hb hab
    have := List.pairwise_iff_getElem.1 hl _ _ (List.idxOf_lt_length_of_mem ha)
      (List.idxOf_lt_length_of_mem hb) hab
    simpa using this
  constructor
  · intro hle
    rcases hle.lt_or_eq with hlt' | heq
    · exact (hlt htarget hmem hlt').le
    · rw [(List.idxOf_inj htarget).1 heq]
  · intro hle
    by_contra hgt
    have := hlt hmem htarget (by omega)
    omega

theorem hardforkGte_iff : spec.hardforkGte hardfork target ↔ target.index ≤ hardfork.index := by
  unfold hardforkGte hardforkIndex
  by_cases hmem : hardfork ∈ spec.hardforks <;> by_cases htarget : target ∈ spec.hardforks <;>
    simp [hmem, htarget, idxOf_le_idxOf spec.ordered]

theorem exists_eip_of_getParam {param : ParamName} {value : ParamValue}
    (h : spec.getParamAtHardfork param hardfork = some value) :
    ∃ eip, EIP_PARAMS eip param = some value := by
  have hfold : ∀ (eips : List ℕ) (result : Option ParamValue),
      (∀ v, result = some v → ∃ eip, EIP_PARAMS eip param = some v) →
      ∀ v, eips.foldl (fun result eip => (EIP_PARAMS eip param).or result) result = some v →
        ∃ eip, EIP_PARAMS eip param = some v := by
    intro eips
    induction eips with
    | nil => exact fun result hresult => hresult
    | cons eip eips ih =>
      intro result hresult v hv
      refine ih _ ?_ v hv
      intro w hw
      rcases hset : EIP_PARAMS eip param with _ | u
      · exact hresult w (by simpa [hset] using hw)
      · exact ⟨eip, by simpa [hset] using hw⟩
  have hEIP1 : ∀ v, EIP1_PARAMS param = some v → ∃ eip, EIP_PARAMS eip param = some v :=
    fun v hv => ⟨1, hv⟩
  unfold ChainSpec.getParamAtHardfork at h
  split at h
  · exact hEIP1 _ h
  · exact hfold _ _ hEIP1 _ h

end ChainSpec

end TsEthereum
