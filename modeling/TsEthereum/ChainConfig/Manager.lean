import TsEthereum.ChainConfig.ForkId

/-!
# The hardfork manager

`createHardforkManager`: which hardfork a block is of, by its number and by its time, and what
the hardfork brings. A number and a time are looked up each on its own, and the later of the two
hardforks counts; a default hardfork is a floor, and what is found when nothing else is. So a
lookup without a time does not see the hardforks that come by time.

Of the parameters those that blocks and their headers read are here.
-/

namespace TsEthereum

namespace ChainConfig

/-! ## Parameters -/

/-- The parameters that are read of a block. -/
inductive BlockParam where
  | gasLimitBoundDivisor | maxExtraDataSize
  | minimumDifficulty | difficultyBoundDivisor | durationLimit | difficultyBombDelay
  | elasticityMultiplier | baseFeeMaxChangeDenominator | initialBaseFee
  | targetBlobGasPerBlock | blobGasPerBlob | maxBlobGasPerBlock
  | blobGasPriceUpdateFraction | minBlobGas | blobBaseCost
  | historicalRootsLength | historyServeWindow
  | maxRlpBlockSize
  deriving DecidableEq

namespace BlockParam

def EIP1_PARAMS : BlockParam → Option ℕ
  | .gasLimitBoundDivisor => some 1024
  | .targetBlobGasPerBlock => some 0
  | .blobGasPerBlob => some 0
  | .maxBlobGasPerBlock => some 0
  | .maxExtraDataSize => some 32
  | .minimumDifficulty => some 1
  | .difficultyBoundDivisor => some 2048
  | .durationLimit => some 1
  | .difficultyBombDelay => some 0
  | _ => none

def EIP1559_PARAMS : BlockParam → Option ℕ
  | .baseFeeMaxChangeDenominator => some 8
  | .elasticityMultiplier => some 2
  | .initialBaseFee => some 1000000000
  | _ => none

def EIP4844_PARAMS : BlockParam → Option ℕ
  | .targetBlobGasPerBlock => some 393216
  | .blobGasPerBlob => some 131072
  | .maxBlobGasPerBlock => some 786432
  | .blobGasPriceUpdateFraction => some 3338477
  | .minBlobGas => some 1
  | .blobBaseCost => some 8192
  | _ => none

def EIP7691_PARAMS : BlockParam → Option ℕ
  | .targetBlobGasPerBlock => some 786432
  | .maxBlobGasPerBlock => some 1179648
  | .blobGasPriceUpdateFraction => some 5007716
  | _ => none

def BPO1_BLOB_PARAMS : BlockParam → Option ℕ
  | .targetBlobGasPerBlock => some 1048576
  | .maxBlobGasPerBlock => some 1572864
  | .blobGasPriceUpdateFraction => some 5007716
  | _ => none

def BPO2_BLOB_PARAMS : BlockParam → Option ℕ
  | .targetBlobGasPerBlock => some 2097152
  | .maxBlobGasPerBlock => some 3145728
  | .blobGasPriceUpdateFraction => some 5007716
  | _ => none

/-- An EIP that sets one parameter. -/
def sets (param : BlockParam) (value : ℕ) : BlockParam → Option ℕ
  | name => if name = param then some value else none

def EIP_PARAMS (eip : ℕ) : BlockParam → Option ℕ :=
  match eip with
  | 1 => EIP1_PARAMS
  | 606 => sets .difficultyBombDelay 5000000
  | 609 => sets .difficultyBombDelay 3000000
  | 2384 => sets .difficultyBombDelay 9000000
  | 1559 => EIP1559_PARAMS
  | 2935 => sets .historyServeWindow 8192
  | 3554 => sets .difficultyBombDelay 9500000
  | 4345 => sets .difficultyBombDelay 10700000
  | 4788 => sets .historicalRootsLength 8191
  | 4844 => EIP4844_PARAMS
  | 5133 => sets .difficultyBombDelay 11400000
  | 7691 => EIP7691_PARAMS
  | 7934 => sets .maxRlpBlockSize 10485760
  | 99001 => BPO1_BLOB_PARAMS
  | 99002 => BPO2_BLOB_PARAMS
  | _ => fun _ => none

end BlockParam

/-! ## The manager -/

/-- `ConsensusType`, or another string. -/
inductive ConsensusType where
  | proofOfWork
  | proofOfAuthority
  | proofOfStake
  | other (name : String)
  deriving DecidableEq

/-- `ConsensusAlgorithm`, or another string. -/
inductive ConsensusAlgorithm where
  | ethash
  | clique
  | casper
  | other (name : String)
  deriving DecidableEq

/-- **`HardforkManager`**: a schedule that `_validateAndSetChainSchema` has let through. -/
structure HardforkManager extends Schedule where
  first : ∃ hf, hardforks.head? = some hf ∧ (hf.block = some 0 ∨ hf.block = none)
  defaultHardfork : Option Hardfork
  consensusType : ConsensusType
  consensusAlgorithm : ConsensusAlgorithm

/-- The last index that passes: a loop from the end. -/
def findLastIdx? {α : Type} (p : α → Bool) : List α → Option ℕ
  | [] => none
  | a :: l =>
    match findLastIdx? p l with
    | some i => some (i + 1)
    | none => if p a then some 0 else none

/-- `Math.max` of two indices, where none is less than any. -/
def laterIndex : Option ℕ → Option ℕ → Option ℕ
  | some i, some j => some (max i j)
  | some i, none => some i
  | none, j => j

namespace HardforkManager

variable (m : HardforkManager)

/-- The names and their EIPs. -/
def spec : ChainSpec where
  hardforks := m.hardforks.map HardforkEntry.name
  ordered := List.pairwise_map.2 m.ordered

/-- The last hardfork. -/
def lastHardfork : Hardfork :=
  match m.hardforks.getLast? with
  | some hf => hf.name
  | none => .chainstart

def hardforkBlock (hardfork : Hardfork) : Option ℕ :=
  (m.hardforks.find? fun hf => hf.name = hardfork).bind HardforkEntry.block

/-- The index `getHardforkByBlock` comes to. -/
def hardforkIndexByBlock (blockNumber timestamp : Option ℕ) : Option ℕ :=
  let blockResultIndex := blockNumber.bind fun blockNumber =>
    findLastIdx? (fun hf => hf.block.any fun block => decide (block ≤ blockNumber)) m.hardforks
  let timestampResultIndex := timestamp.bind fun timestamp =>
    findLastIdx? (fun hf => hf.timestamp.any fun time => decide (time.value ≤ timestamp)) m.hardforks
  let defaultHfIndex := m.defaultHardfork.bind fun defaultHardfork =>
    m.hardforks.findIdx? fun hf => hf.name = defaultHardfork
  laterIndex (laterIndex blockResultIndex timestampResultIndex) defaultHfIndex

/-- **`getHardforkByBlock`**. -/
def getHardforkByBlock (blockNumber timestamp : Option ℕ) : Hardfork :=
  match (m.hardforkIndexByBlock blockNumber timestamp).bind fun i => m.hardforks[i]? with
  | some hf => hf.name
  | none => m.defaultHardfork.getD m.lastHardfork

def isEIPActiveAtHardfork (eip : ℕ) (hardfork : Hardfork) : Bool :=
  m.spec.isEIPActiveAtHardfork eip hardfork

/-- **`isEIPActiveAtBlock`**. -/
def isEIPActiveAtBlock (eip : ℕ) (blockNumber : ℕ) (timestamp : Option ℕ) : Bool :=
  m.isEIPActiveAtHardfork eip (m.getHardforkByBlock (some blockNumber) timestamp)

def hardforkGte (hardfork target : Hardfork) : Bool := m.spec.hardforkGte hardfork target

/-- **`getParamAtHardfork`**: the last EIP that sets the parameter wins. -/
def getParamAtHardfork (param : BlockParam) (hardfork : Hardfork) : Option ℕ :=
  match m.spec.hardforkIndex hardfork with
  | none => BlockParam.EIP1_PARAMS param
  | some targetIndex =>
    (m.spec.eipsUpTo targetIndex).foldl
      (fun result eip => (BlockParam.EIP_PARAMS eip param).or result) (BlockParam.EIP1_PARAMS param)

/-- `getParamsAtHardfork`, of one parameter: nothing comes before the first EIP. -/
def getParamsAtHardfork (hardfork : Hardfork) (param : BlockParam) : Option ℕ :=
  match m.spec.hardforkIndex hardfork with
  | none => none
  | some targetIndex =>
    (m.spec.eipsUpTo targetIndex).foldl
      (fun result eip => (BlockParam.EIP_PARAMS eip param).or result) none

end HardforkManager

/-- A chain that forks by number, then by time. -/
def sampleManager : HardforkManager where
  hardforks :=
    [⟨.chainstart, some 0, none, none⟩, ⟨.berlin, some 0, none, none⟩, ⟨.london, some 10, none, none⟩,
      ⟨.paris, some 20, none, none⟩, ⟨.shanghai, none, some (.number 1000), none⟩,
      ⟨.cancun, none, some (.number 2000), none⟩, ⟨.prague, none, some (.number 3000), none⟩]
  ordered := by decide
  first := ⟨_, rfl, .inl rfl⟩
  defaultHardfork := none
  consensusType := .proofOfStake
  consensusAlgorithm := .casper

/-! ## Lookups -/

theorem findLastIdx?_ne_none {α : Type} {p : α → Bool} {l : List α} {i : ℕ} {a : α}
    (ha : l[i]? = some a) (hp : p a = true) : ∃ j, findLastIdx? p l = some j ∧ i ≤ j := by
  induction l generalizing i with
  | nil => cases ha
  | cons b l ih =>
    rw [findLastIdx?]
    cases i with
    | zero =>
      obtain rfl := Option.some.inj ha
      cases hrest : findLastIdx? p l with
      | some j => exact ⟨j + 1, rfl, Nat.zero_le _⟩
      | none => exact ⟨0, by simp [hp], le_refl 0⟩
    | succ i =>
      obtain ⟨j, hj, hle⟩ := ih (by rwa [List.getElem?_cons_succ] at ha)
      rw [hj]
      exact ⟨j + 1, rfl, Nat.succ_le_succ hle⟩

theorem findLastIdx?_lt {α : Type} {p : α → Bool} {l : List α} {i : ℕ}
    (h : findLastIdx? p l = some i) : i < l.length := by
  induction l generalizing i with
  | nil => cases h
  | cons b l ih =>
    rw [findLastIdx?] at h
    rw [List.length_cons]
    cases hrest : findLastIdx? p l with
    | some j =>
      rw [hrest] at h
      have hlt := ih hrest
      have := Option.some.inj h
      omega
    | none =>
      rw [hrest] at h
      dsimp only at h
      split at h
      · have := Option.some.inj h
        omega
      · cases h

theorem laterIndex_some {i : ℕ} {j : Option ℕ} {n : ℕ} (hi : i < n) (hj : ∀ k ∈ j, k < n) :
    ∃ k, laterIndex (some i) j = some k ∧ i ≤ k ∧ k < n := by
  cases j with
  | none => exact ⟨i, rfl, le_refl i, hi⟩
  | some j =>
    have := hj j rfl
    exact ⟨max i j, rfl, le_max_left i j, by omega⟩

namespace HardforkManager

variable {m : HardforkManager} {hardfork : Hardfork} {param : BlockParam} {eip : ℕ}

theorem hardforkIndex_of_getElem {i : ℕ} {hf : HardforkEntry} (h : m.hardforks[i]? = some hf) :
    m.spec.hardforkIndex hf.name = some i := by
  obtain ⟨hi, rfl⟩ := List.getElem?_eq_some_iff.1 h
  have hnodup : m.spec.hardforks.Nodup :=
    m.spec.ordered.imp fun hlt heq => by
      subst heq
      exact lt_irrefl _ hlt
  have hi' : i < m.spec.hardforks.length := by simpa [spec] using hi
  have hname : m.spec.hardforks[i] = m.hardforks[i].name := by simp [spec]
  rw [ChainSpec.hardforkIndex, ← hname, if_pos (List.getElem_mem _), hnodup.idxOf_getElem]

theorem isEIPActive_of_getElem {i j : ℕ} {hf later : HardforkEntry} (hi : m.hardforks[i]? = some hf)
    (hj : m.hardforks[j]? = some later) (hle : i ≤ j) (heip : eip ∈ HARDFORK_EIPS hf.name) :
    m.isEIPActiveAtHardfork eip later.name = true := by
  rw [isEIPActiveAtHardfork, ChainSpec.isEIPActiveAtHardfork, hardforkIndex_of_getElem hj]
  simp only [List.contains_iff_mem, ChainSpec.eipsUpTo, List.mem_flatMap]
  refine ⟨hf.name, List.mem_take_iff_getElem.2 ?_, heip⟩
  obtain ⟨hlt, rfl⟩ := List.getElem?_eq_some_iff.1 hi
  exact ⟨i, by simp only [spec, List.length_map]; omega, by simp [spec]⟩

theorem isEIPActive_of_hardforkBlock {block n : ℕ} (h : m.hardforkBlock hardfork = some block)
    (hle : block ≤ n) (heip : eip ∈ HARDFORK_EIPS hardfork) (timestamp : Option ℕ) :
    m.isEIPActiveAtBlock eip n timestamp = true := by
  obtain ⟨hf, hfind, hblock⟩ := Option.bind_eq_some_iff.1 h
  have hname : hf.name = hardfork := by simpa using List.find?_some hfind
  obtain ⟨i, hi⟩ := List.mem_iff_getElem?.1 (List.mem_of_find?_eq_some hfind)
  obtain ⟨j, hj, hij⟩ := findLastIdx?_ne_none
    (p := fun hf => hf.block.any fun block => decide (block ≤ n)) hi (by simp [hblock, hle])
  obtain ⟨k, hk, hjk, hklt⟩ := laterIndex_some (findLastIdx?_lt hj)
    (j := timestamp.bind fun timestamp => findLastIdx?
      (fun hf => hf.timestamp.any fun time => decide (time.value ≤ timestamp)) m.hardforks)
    (fun k hk => by
      obtain ⟨time, -, hk⟩ := Option.bind_eq_some_iff.1 hk
      exact findLastIdx?_lt hk)
  obtain ⟨l, hl, hkl, hllt⟩ := laterIndex_some hklt
    (j := m.defaultHardfork.bind fun defaultHardfork =>
      m.hardforks.findIdx? fun hf => hf.name = defaultHardfork)
    (fun k hk => by
      obtain ⟨name, -, hk⟩ := Option.bind_eq_some_iff.1 hk
      obtain ⟨hlt, -⟩ := List.findIdx?_eq_some_iff_getElem.1 hk
      exact hlt)
  have hindex : m.hardforkIndexByBlock (some n) timestamp = some l := by
    rw [hardforkIndexByBlock]
    simp only [Option.bind_some, hj]
    rw [hk, hl]
  have hgetElem : m.hardforks[l]? = some m.hardforks[l] := List.getElem?_eq_getElem hllt
  rw [isEIPActiveAtBlock, getHardforkByBlock, hindex]
  simp only [Option.bind_some, hgetElem]
  exact isEIPActive_of_getElem hi hgetElem (by omega) (by rwa [hname])

theorem isEIPActiveAtHardfork_of_hardforkBlock {block : ℕ} (h : m.hardforkBlock hardfork = some block)
    (heip : eip ∈ HARDFORK_EIPS hardfork) : m.isEIPActiveAtHardfork eip hardfork = true := by
  obtain ⟨hf, hfind, -⟩ := Option.bind_eq_some_iff.1 h
  have hname : hf.name = hardfork := by simpa using List.find?_some hfind
  obtain ⟨i, hi⟩ := List.mem_iff_getElem?.1 (List.mem_of_find?_eq_some hfind)
  rw [← hname]
  exact isEIPActive_of_getElem hi hi (le_refl i) (by rwa [hname])

theorem isEIPActive_eq_false (h : ∀ hf, eip ∉ HARDFORK_EIPS hf) :
    m.isEIPActiveAtHardfork eip hardfork = false := by
  rw [isEIPActiveAtHardfork, ChainSpec.isEIPActiveAtHardfork]
  cases m.spec.hardforkIndex hardfork with
  | none => rfl
  | some i =>
    simp only [List.contains_eq_mem, ChainSpec.eipsUpTo, List.mem_flatMap, decide_eq_false_iff_not]
    rintro ⟨hf, -, hmem⟩
    exact h hf hmem

/-! ## Parameters that one EIP sets -/

/-- If a parameter is only ever set to one value, that value is what comes out once it is set. -/
theorem foldl_eq_some {f : ℕ → Option ℕ} {value : ℕ} (hf : ∀ eip, f eip = none ∨ f eip = some value)
    {eips : List ℕ} {result : Option ℕ}
    (h : result = some value ∨ ∃ eip ∈ eips, f eip = some value) :
    eips.foldl (fun result eip => (f eip).or result) result = some value := by
  induction eips generalizing result with
  | nil => simpa using h
  | cons eip eips ih =>
    rw [List.foldl_cons]
    apply ih
    rcases hf eip with hnone | hsome
    · rw [hnone]
      rcases h with h | ⟨other, hmem, hother⟩
      · exact .inl h
      · rcases List.mem_cons.1 hmem with rfl | hmem
        · rw [hnone] at hother
          cases hother
        · exact .inr ⟨other, hmem, hother⟩
    · rw [hsome]
      exact .inl rfl

theorem getParam_of_active {value : ℕ}
    (honly : ∀ eip, BlockParam.EIP_PARAMS eip param = none ∨
      BlockParam.EIP_PARAMS eip param = some value)
    (hset : BlockParam.EIP_PARAMS eip param = some value)
    (h : m.isEIPActiveAtHardfork eip hardfork = true) :
    m.getParamAtHardfork param hardfork = some value := by
  rw [isEIPActiveAtHardfork, ChainSpec.isEIPActiveAtHardfork] at h
  rw [getParamAtHardfork]
  cases hindex : m.spec.hardforkIndex hardfork with
  | none => simp [hindex] at h
  | some i =>
    simp only [hindex, List.contains_iff_mem] at h
    exact foldl_eq_some honly (.inr ⟨eip, h, hset⟩)

theorem getParam_elasticityMultiplier (h : m.isEIPActiveAtHardfork 1559 hardfork = true) :
    m.getParamAtHardfork .elasticityMultiplier hardfork = some 2 :=
  getParam_of_active (fun eip => by unfold BlockParam.EIP_PARAMS; split <;> decide) rfl h

theorem getParam_initialBaseFee (h : m.isEIPActiveAtHardfork 1559 hardfork = true) :
    m.getParamAtHardfork .initialBaseFee hardfork = some 1000000000 :=
  getParam_of_active (fun eip => by unfold BlockParam.EIP_PARAMS; split <;> decide) rfl h

theorem getParam_baseFeeMaxChangeDenominator (h : m.isEIPActiveAtHardfork 1559 hardfork = true) :
    m.getParamAtHardfork .baseFeeMaxChangeDenominator hardfork = some 8 :=
  getParam_of_active (fun eip => by unfold BlockParam.EIP_PARAMS; split <;> decide) rfl h

theorem foldl_eq_none {f : ℕ → Option ℕ} {eips : List ℕ} (h : ∀ eip ∈ eips, f eip = none) :
    eips.foldl (fun result eip => (f eip).or result) none = none := by
  induction eips with
  | nil => rfl
  | cons eip eips ih =>
    rw [List.foldl_cons, h eip List.mem_cons_self]
    exact ih fun other hmem => h other (List.mem_cons_of_mem eip hmem)

/-- **Where difficulties have a bound divisor** they have a minimum: EIP-1 sets both. -/
theorem minimumDifficulty_of_divisor
    (h : (m.getParamsAtHardfork hardfork .difficultyBoundDivisor).getD 0 ≠ 0) :
    m.getParamsAtHardfork hardfork .minimumDifficulty = some 1 := by
  rw [getParamsAtHardfork] at h ⊢
  cases hindex : m.spec.hardforkIndex hardfork with
  | none => simp [hindex] at h
  | some i =>
    simp only [hindex] at h ⊢
    have hmem : 1 ∈ m.spec.eipsUpTo i := by
      by_contra hnot
      refine h ?_
      rw [foldl_eq_none]
      · rfl
      · intro eip hmem
        unfold BlockParam.EIP_PARAMS
        split
        · exact absurd hmem hnot
        all_goals rfl
    exact foldl_eq_some (fun eip => by unfold BlockParam.EIP_PARAMS; split <;> decide)
      (.inr ⟨1, hmem, rfl⟩)

theorem getParam_gasLimitBoundDivisor :
    m.getParamAtHardfork .gasLimitBoundDivisor hardfork = some 1024 := by
  rw [getParamAtHardfork]
  cases m.spec.hardforkIndex hardfork with
  | none => rfl
  | some i =>
    exact foldl_eq_some (fun eip => by unfold BlockParam.EIP_PARAMS; split <;> decide) (.inl rfl)

end HardforkManager

end ChainConfig

end TsEthereum
