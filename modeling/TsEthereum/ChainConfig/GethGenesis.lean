import TsEthereum.ChainConfig.Lookups
import Mathlib.Data.List.Sort

/-!
# Hardforks of a geth genesis

`parseGethGenesis` (`genesis/gethGenesis.ts`): the hardforks a geth configuration gives a block or
a time, with those of the merge spliced in, sorted by their blocks and then by their times. The
merge is put at block 0 where the configuration does not say where it is. That is in order only
when nothing before it has a later block (`parseGethGenesis_iff`).
-/

namespace TsEthereum

namespace ChainConfig

/-! ## The configuration -/

/-- `isTimestamp` of `forkMap`. -/
def isTimestamp : Hardfork → Bool
  | .shanghai | .cancun | .prague | .osaka | .bpo1 | .bpo2 | .bpo3 | .bpo4 | .bpo5 => true
  | _ => false

/-- The hardforks of `forkMap` before the merge. -/
def beforeMerge : List Hardfork :=
  [.homestead, .dao, .tangerineWhistle, .spuriousDragon, .byzantium, .constantinople, .petersburg,
    .istanbul, .muirGlacier, .berlin, .london, .arrowGlacier, .grayGlacier]

/-- Those behind it. -/
def afterMerge : List Hardfork :=
  [.shanghai, .cancun, .prague, .osaka, .bpo1, .bpo2, .bpo3, .bpo4, .bpo5]

/-- The keys of **`forkMap`**. -/
def forkMap : List Hardfork := beforeMerge ++ [.paris, .mergeNetsplitBlock] ++ afterMerge

/-- **A `GethGenesisConfig`**: what it has under the names `forkMap` gives the hardforks
(`eip155Block` is that of Spurious Dragon), and the names of its blob schedule. -/
structure GethGenesisConfig where
  value : Hardfork → Option ℕ
  eip158Block : Option ℕ
  blobSchedule : Option (List String)
  terminalTotalDifficultyPassed : Bool

/-- A hardfork at its block or time. -/
def configHardfork (hardfork : Hardfork) (value : ℕ) : HardforkEntry :=
  if isTimestamp hardfork then ⟨hardfork, none, some (.number value), none⟩
  else ⟨hardfork, some value, none, none⟩

/-- Of some of the hardforks, those that the configuration has. -/
def listed (config : GethGenesisConfig) (hardforks : List Hardfork) : List HardforkEntry :=
  hardforks.filterMap fun hardfork => (config.value hardfork).map (configHardfork hardfork)

/-- **The merge is spliced in.** -/
def spliceMerge (passed : Bool) (hardforks : List HardforkEntry) : List HardforkEntry :=
  let mergeIndex := hardforks.findIdx? fun hf => hf.name = .paris
  let mergeNetsplitBlockIndex := hardforks.findIdx? fun hf => hf.name = .mergeNetsplitBlock
  let firstPostMergeHFIndex := hardforks.findIdx? fun hf => hf.timestamp.isSome
  match mergeIndex, mergeNetsplitBlockIndex with
  | some mergeIndex, none =>
    hardforks.insertIdx (mergeIndex + 1)
      ⟨.mergeNetsplitBlock, hardforks[mergeIndex]?.bind HardforkEntry.block, none, none⟩
  | some _, some _ => hardforks
  | none, mergeNetsplitBlockIndex =>
    match firstPostMergeHFIndex with
    | some firstPostMergeHFIndex =>
      let hardforks :=
        if mergeNetsplitBlockIndex = none then
          hardforks.insertIdx firstPostMergeHFIndex ⟨.mergeNetsplitBlock, some 0, none, none⟩
        else hardforks
      let mergeNetsplitBlockIndex := mergeNetsplitBlockIndex.getD firstPostMergeHFIndex
      hardforks.insertIdx mergeNetsplitBlockIndex
        ⟨.paris, hardforks[mergeNetsplitBlockIndex]?.bind HardforkEntry.block, none, none⟩
    | none =>
      if passed then
        let hardforks := hardforks ++ [⟨.paris, some 0, none, none⟩]
        if mergeNetsplitBlockIndex = none then
          hardforks ++ [⟨.mergeNetsplitBlock, some 0, none, none⟩]
        else hardforks
      else hardforks

/-- The comparison of the first sort is not positive: without a block it is infinity, and two of
these are equal. -/
def blockLe (a b : HardforkEntry) : Bool :=
  match a.block, b.block with
  | _, none => true
  | none, some _ => false
  | some m, some n => decide (m ≤ n)

/-- `timestamp ?? 0`. -/
def timestampOrZero (hf : HardforkEntry) : ℕ := (hf.timestamp.map Timestamp.value).getD 0

/-- The two sorts. -/
def sortHardforks (hardforks : List HardforkEntry) : List HardforkEntry :=
  (hardforks.insertionSort fun a b => blockLe a b = true).insertionSort
    fun a b => timestampOrZero a ≤ timestampOrZero b

/-- The time of the genesis is 0. -/
def zeroGenesis (genesisTimestamp : Option ℕ) (hf : HardforkEntry) : HardforkEntry :=
  if genesisTimestamp.isSome ∧ hf.timestamp = genesisTimestamp.map .number then
    { hf with timestamp := some (.number 0) }
  else hf

/-- **`parseGethGenesis`**, of a genesis that has the required fields: its hardforks. The time of a
genesis that has none is not a number. -/
def parseGethGenesis (config : GethGenesisConfig) (genesisTimestamp : Option ℕ) :
    Except String (List HardforkEntry) :=
  if config.value .spuriousDragon ≠ config.eip158Block then
    .error ("Error parsing parameters file: EIP155 block number must equal EIP 158 block number " ++
      "since both are part of SpuriousDragon hardfork and the client only supports activating the " ++
      "full hardfork")
  else
    match config.blobSchedule.getD [] with
    | hfKey :: _ =>
      .error ("Error parsing parameters file: unknown hardfork=" ++ hfKey ++
        " specified in blobSchedule")
    | [] =>
      let hardforks := spliceMerge config.terminalTotalDifficultyPassed (listed config forkMap)
      .ok (⟨.chainstart, some 0, none, none⟩ ::
        (sortHardforks hardforks).map (zeroGenesis genesisTimestamp))

/-! ## The manager takes them -/

/-- What `_validateAndSetChainSchema` throws. -/
inductive SchemaError where
  | noHardfork
  | firstBlock (first : HardforkEntry)
  | order (prevName : Hardfork)
  | chainId
  deriving DecidableEq

/-- The loops over the names. -/
def checkOrder (before : List Hardfork) : List Hardfork → Except SchemaError Unit
  | [] => .ok ()
  | name :: names =>
    match before.find? fun prevName => name.index < prevName.index with
    | some prevName => .error (.order prevName)
    | none => checkOrder (before ++ [name]) names

/-- **The checks of `createHardforkManager`.** -/
def validateChainSchema (hardforks : List HardforkEntry) (chainId : ℕ) : Except SchemaError Unit :=
  match hardforks with
  | [] => .error .noHardfork
  | first :: _ =>
    if first.block ≠ some 0 ∧ first.block ≠ none then .error (.firstBlock first)
    else
      match checkOrder [] (hardforks.map HardforkEntry.name) with
      | .error e => .error e
      | .ok () => if chainId = 0 then .error .chainId else .ok ()

/-! ## What it is to do -/

namespace GethGenesisConfig

/-- **Blocks and times do not decrease.** -/
def NonDecreasing (config : GethGenesisConfig) : Prop :=
  forkMap.Pairwise fun hardfork later => isTimestamp hardfork = isTimestamp later →
    ∀ m ∈ config.value hardfork, ∀ n ∈ config.value later, m ≤ n

/-- A hardfork by time is there. -/
def HasTime (config : GethGenesisConfig) : Prop :=
  ∃ hardfork ∈ afterMerge, (config.value hardfork).isSome

/-- **The merge is not put at block 0 behind a later block.** -/
def MergePlaced (config : GethGenesisConfig) : Prop :=
  config.value .paris = none →
    (config.value .mergeNetsplitBlock = none ∧
        (config.HasTime ∨ config.terminalTotalDifficultyPassed = true) ∨
      config.value .mergeNetsplitBlock ≠ none ∧ ¬config.HasTime ∧
        config.terminalTotalDifficultyPassed = true) →
    config.value .mergeNetsplitBlock ≠ some 0 ∧
      ∀ hardfork ∈ beforeMerge, ∀ block ∈ config.value hardfork, block = 0

end GethGenesisConfig

/-- **A hardfork is met from its block or time on**, in the blocks of a chain. -/
def ActivatesAt (hf : HardforkEntry) (value : ℕ) (genesisTimestamp : Option ℕ) : Prop :=
  ∀ blockNumber timestamp, (∀ genesis ∈ genesisTimestamp, genesis ≤ timestamp) →
    (hf.metBy blockNumber timestamp = true ↔
      value ≤ if isTimestamp hf.name then timestamp else blockNumber)

/-- **The hardforks are imported.** -/
structure Imports (config : GethGenesisConfig) (genesisTimestamp : Option ℕ)
    (hardforks : List HardforkEntry) : Prop where
  sorted : hardforks.Pairwise fun hf later => hf.name.index < later.name.index
  accepted : ∀ chainId, 0 < chainId → validateChainSchema hardforks chainId = .ok ()
  activated : ∀ hardfork ∈ forkMap, ∀ value ∈ config.value hardfork,
    ∃ hf ∈ hardforks, hf.name = hardfork ∧ ActivatesAt hf value genesisTimestamp

/-! ## What is spliced in -/

variable {config : GethGenesisConfig} {hardforks : List Hardfork} {hf : HardforkEntry}

theorem mem_listed : hf ∈ listed config hardforks ↔
    ∃ hardfork ∈ hardforks, ∃ value ∈ config.value hardfork, configHardfork hardfork value = hf := by
  simp only [listed, List.mem_filterMap, Option.map_eq_some_iff, Option.mem_def]

@[simp] theorem configHardfork_name (hardfork : Hardfork) (value : ℕ) :
    (configHardfork hardfork value).name = hardfork := by
  rw [configHardfork]
  split <;> rfl

/-- A hardfork at a block. -/
def atBlock (hardfork : Hardfork) (block : ℕ) : HardforkEntry := ⟨hardfork, some block, none, none⟩

theorem configHardfork_of_before (h : isTimestamp hardfork = false) (value : ℕ) :
    configHardfork hardfork value = atBlock hardfork value := by
  rw [configHardfork, h]
  rfl

theorem insertIdx_length_append {α : Type} (l rest : List α) (a : α) :
    (l ++ rest).insertIdx l.length a = l ++ a :: rest := by
  induction l with
  | nil => rfl
  | cons b l ih => exact congrArg (b :: ·) ih

theorem listed_beforeMerge (h : hf ∈ listed config beforeMerge) :
    ∃ block, hf = atBlock hf.name block ∧ hf.name ∈ beforeMerge ∧ block ∈ config.value hf.name := by
  obtain ⟨hardfork, hmem, value, hvalue, rfl⟩ := mem_listed.1 h
  have hblock : isTimestamp hardfork = false := by
    revert hmem
    cases hardfork <;> decide
  refine ⟨value, ?_, by rwa [configHardfork_name], by rwa [configHardfork_name]⟩
  rw [configHardfork_name, configHardfork_of_before hblock]

theorem listed_afterMerge (h : hf ∈ listed config afterMerge) :
    ∃ time, hf = ⟨hf.name, none, some (.number time), none⟩ ∧ hf.name ∈ afterMerge ∧
      time ∈ config.value hf.name := by
  obtain ⟨hardfork, hmem, value, hvalue, rfl⟩ := mem_listed.1 h
  have htime : isTimestamp hardfork = true := by
    revert hmem
    cases hardfork <;> decide
  refine ⟨value, ?_, by rwa [configHardfork_name], by rwa [configHardfork_name]⟩
  rw [configHardfork_name, configHardfork, htime]
  rfl

theorem listed_forkMap (config : GethGenesisConfig) : listed config forkMap =
    listed config beforeMerge ++ ((config.value .paris).map (atBlock .paris)).toList ++
      ((config.value .mergeNetsplitBlock).map (atBlock .mergeNetsplitBlock)).toList ++
        listed config afterMerge := by
  have hparis : configHardfork .paris = atBlock .paris := rfl
  have hnetsplit : configHardfork .mergeNetsplitBlock = atBlock .mergeNetsplitBlock := rfl
  rw [← hparis, ← hnetsplit]
  simp only [listed, forkMap, List.filterMap_append, List.append_assoc]
  congr 1
  rw [← List.append_assoc]
  congr 1
  cases hp : config.value .paris <;> cases hn : config.value .mergeNetsplitBlock <;>
    simp [hp, hn]

section

variable {before after : List HardforkEntry} {p : Bool}
  (hbefore : ∀ hf ∈ before, hf.name ≠ .paris ∧ hf.name ≠ .mergeNetsplitBlock ∧ hf.timestamp = none)
  (hafter : ∀ hf ∈ after, hf.name ≠ .paris ∧ hf.name ≠ .mergeNetsplitBlock ∧
    hf.timestamp.isSome = true)

include hbefore in
theorem findIdx?_before (rest : List HardforkEntry) :
    (before ++ rest).findIdx? (fun hf => hf.name = .paris) =
        (rest.findIdx? fun hf => hf.name = .paris).map (· + before.length) ∧
      (before ++ rest).findIdx? (fun hf => hf.name = .mergeNetsplitBlock) =
        (rest.findIdx? fun hf => hf.name = .mergeNetsplitBlock).map (· + before.length) ∧
      (before ++ rest).findIdx? (fun hf => hf.timestamp.isSome) =
        (rest.findIdx? fun hf => hf.timestamp.isSome).map (· + before.length) := by
  have hparis : before.findIdx? (fun hf => hf.name = .paris) = none :=
    List.findIdx?_eq_none_iff.2 fun hf hmem => by simp [(hbefore hf hmem).1]
  have hnetsplit : before.findIdx? (fun hf => hf.name = .mergeNetsplitBlock) = none :=
    List.findIdx?_eq_none_iff.2 fun hf hmem => by simp [(hbefore hf hmem).2.1]
  have htime : before.findIdx? (fun hf => hf.timestamp.isSome) = none :=
    List.findIdx?_eq_none_iff.2 fun hf hmem => by simp [(hbefore hf hmem).2.2]
  simp only [List.findIdx?_append, hparis, hnetsplit, htime, Option.none_or, and_self]

include hafter in
theorem findIdx?_after : after.findIdx? (fun hf => hf.name = .paris) = none ∧
    after.findIdx? (fun hf => hf.name = .mergeNetsplitBlock) = none ∧
    after.findIdx? (fun hf => hf.timestamp.isSome) = if after = [] then none else some 0 := by
  refine ⟨List.findIdx?_eq_none_iff.2 fun hf hmem => by simp [(hafter hf hmem).1],
    List.findIdx?_eq_none_iff.2 fun hf hmem => by simp [(hafter hf hmem).2.1], ?_⟩
  cases after with
  | nil => rfl
  | cons hf after =>
    rw [List.findIdx?_cons, if_pos (hafter hf List.mem_cons_self).2.2]
    rfl

include hbefore hafter in
theorem spliceMerge_paris (block : ℕ) (netsplit : Option ℕ) :
    spliceMerge p (before ++ ([atBlock .paris block] ++
        ((netsplit.map (atBlock .mergeNetsplitBlock)).toList ++ after))) =
      before ++ atBlock .paris block :: atBlock .mergeNetsplitBlock (netsplit.getD block) :: after := by
  obtain ⟨hparis, hnetsplit, htime⟩ := findIdx?_before hbefore ([atBlock .paris block] ++
    ((netsplit.map (atBlock .mergeNetsplitBlock)).toList ++ after))
  obtain ⟨hparis', hnetsplit', htime'⟩ := findIdx?_after hafter
  rw [spliceMerge, hparis, hnetsplit]
  cases netsplit with
  | none =>
    simp only [Option.map_none, Option.toList_none, List.nil_append, List.singleton_append,
      List.findIdx?_cons, atBlock, hnetsplit']
    have hinsert := insertIdx_length_append (before ++ [atBlock .paris block]) after
      (atBlock .mergeNetsplitBlock block)
    simpa [atBlock, Nat.add_comm] using hinsert
  | some n =>
    simp [List.findIdx?_cons, atBlock]

include hbefore hafter in
theorem spliceMerge_time (netsplit : Option ℕ) (h : after ≠ []) :
    spliceMerge p (before ++ ((netsplit.map (atBlock .mergeNetsplitBlock)).toList ++ after)) =
      before ++ atBlock .paris (netsplit.getD 0) :: atBlock .mergeNetsplitBlock (netsplit.getD 0) ::
        after := by
  obtain ⟨hparis, hnetsplit, htime⟩ := findIdx?_before hbefore
    ((netsplit.map (atBlock .mergeNetsplitBlock)).toList ++ after)
  obtain ⟨hparis', hnetsplit', htime'⟩ := findIdx?_after hafter
  rw [if_neg h] at htime'
  rw [spliceMerge, hparis, hnetsplit, htime]
  cases netsplit with
  | none =>
    simp only [Option.map_none, Option.toList_none, List.nil_append, hparis', hnetsplit', htime',
      Option.map_some, Nat.zero_add, if_true, Option.getD_none, insertIdx_length_append]
    simp [atBlock]
  | some n =>
    simp only [Option.map_some, Option.toList_some, List.singleton_append, List.findIdx?_cons, atBlock,
      hparis', hnetsplit', htime']
    simp [insertIdx_length_append]

include hbefore in
theorem spliceMerge_nil (netsplit : Option ℕ) :
    spliceMerge p (before ++ (netsplit.map (atBlock .mergeNetsplitBlock)).toList) =
      before ++ (netsplit.map (atBlock .mergeNetsplitBlock)).toList ++
        if p then
          atBlock .paris 0 :: if netsplit = none then [atBlock .mergeNetsplitBlock 0] else []
        else [] := by
  obtain ⟨hparis, hnetsplit, htime⟩ := findIdx?_before hbefore
    (netsplit.map (atBlock .mergeNetsplitBlock)).toList
  rw [spliceMerge, hparis, hnetsplit, htime]
  cases netsplit <;> cases p <;> simp [List.findIdx?_cons, atBlock]

end

/-! ## The sorts -/

/-- **In order** for both sorts and by name. -/
def InOrder (a b : HardforkEntry) : Prop :=
  blockLe a b = true ∧ timestampOrZero a ≤ timestampOrZero b ∧ a.name.index < b.name.index

theorem sortHardforks_of_inOrder {l : List HardforkEntry} (h : l.Pairwise InOrder) :
    sortHardforks l = l := by
  rw [sortHardforks, (h.imp And.left : l.Pairwise fun a b => blockLe a b = true).insertionSort_eq]
  exact (h.imp fun hab => hab.2.1 : l.Pairwise fun a b =>
    timestampOrZero a ≤ timestampOrZero b).insertionSort_eq

instance : Std.Total fun a b : HardforkEntry => blockLe a b = true where
  total a b := by
    cases ha : a.block <;> cases hb : b.block <;> simp [blockLe, ha, hb, Nat.le_total]

instance : IsTrans HardforkEntry fun a b => blockLe a b = true where
  trans a b c := by
    cases ha : a.block <;> cases hb : b.block <;> cases hc : c.block <;> simp [blockLe, ha, hb, hc]
    exact Nat.le_trans

theorem pair_sublist_of_not {α : Type} {r : α → α → Prop} {l : List α} {a b : α} (h : l.Pairwise r)
    (ha : a ∈ l) (hb : b ∈ l) (hne : a ≠ b) (hr : ¬r a b) : [b, a].Sublist l := by
  obtain ⟨l₁, l₂, rfl⟩ := List.append_of_mem hb
  have hlater : a ∈ l₂ := by
    rcases List.mem_append.1 ha with hmem | hmem
    · exact absurd ((List.pairwise_append.1 h).2.2 a hmem b List.mem_cons_self) hr
    · exact (List.mem_cons.1 hmem).resolve_left hne
  exact ((List.singleton_sublist.2 hlater).cons_cons b).trans (List.sublist_append_right _ _)

theorem pair_sublist_sortHardforks {l : List HardforkEntry} {hardfork later : Hardfork} {block : ℕ}
    (hzero : atBlock hardfork 0 ∈ l) (hlater : atBlock later block ∈ l) (hblock : block ≠ 0) :
    [atBlock hardfork 0, atBlock later block].Sublist (sortHardforks l) := by
  refine List.pair_sublist_insertionSort (Nat.le_refl _) ?_
  refine pair_sublist_of_not (List.pairwise_insertionSort _ l) ((List.mem_insertionSort _).2 hlater)
    ((List.mem_insertionSort _).2 hzero) (fun heq => hblock ?_) ?_
  · exact Option.some.inj (congrArg HardforkEntry.block heq)
  · simpa [blockLe, atBlock] using hblock

theorem insertionSort_append_congr {α : Type} {r : α → α → Prop} [DecidableRel r] (l : List α)
    {s t : List α} (h : s.insertionSort r = t.insertionSort r) :
    (l ++ s).insertionSort r = (l ++ t).insertionSort r := by
  induction l with
  | nil => exact h
  | cons a l ih => exact congrArg (List.orderedInsert r a) ih

theorem sortHardforks_swap (before : List HardforkEntry) {hardfork later : Hardfork} {block : ℕ}
    (h : block ≠ 0) : sortHardforks (before ++ [atBlock later block, atBlock hardfork 0]) =
      sortHardforks (before ++ [atBlock hardfork 0, atBlock later block]) := by
  have hpair : [atBlock later block, atBlock hardfork 0].insertionSort
      (fun a b => blockLe a b = true) = [atBlock hardfork 0, atBlock later block].insertionSort
        fun a b => blockLe a b = true := by
    have hnot : ¬blockLe (atBlock later block) (atBlock hardfork 0) = true := by
      simpa [blockLe, atBlock] using h
    have hle : blockLe (atBlock hardfork 0) (atBlock later block) = true := by
      simp [blockLe, atBlock]
    simp only [List.insertionSort_cons, List.insertionSort_nil, List.orderedInsert_nil,
      List.orderedInsert_cons, if_neg hnot, if_pos hle]
  rw [sortHardforks, insertionSort_append_congr before hpair]
  rfl

theorem pair_sublist_sortHardforks_of_eq {l : List HardforkEntry} {hardfork later : Hardfork}
    {block : ℕ} (h : [atBlock hardfork block, atBlock later block].Sublist l) :
    [atBlock hardfork block, atBlock later block].Sublist (sortHardforks l) :=
  List.pair_sublist_insertionSort (Nat.le_refl _)
    (List.pair_sublist_insertionSort (by simp [blockLe, atBlock]) h)

/-! ## The merge -/

namespace GethGenesisConfig

/-- The configuration with another merge. -/
def withMerge (config : GethGenesisConfig) (paris netsplit : Option ℕ) : GethGenesisConfig :=
  { config with
    value := fun hardfork =>
      if hardfork = .paris then paris
      else if hardfork = .mergeNetsplitBlock then netsplit
      else config.value hardfork }

theorem nonDecreasing_iff : config.NonDecreasing ↔
    (beforeMerge.Pairwise fun hardfork later =>
        ∀ m ∈ config.value hardfork, ∀ n ∈ config.value later, m ≤ n) ∧
      (afterMerge.Pairwise fun hardfork later =>
        ∀ m ∈ config.value hardfork, ∀ n ∈ config.value later, m ≤ n) ∧
      (∀ hardfork ∈ beforeMerge, ∀ m ∈ config.value hardfork,
        (∀ n ∈ config.value .paris, m ≤ n) ∧ ∀ n ∈ config.value .mergeNetsplitBlock, m ≤ n) ∧
      ∀ m ∈ config.value .paris, ∀ n ∈ config.value .mergeNetsplitBlock, m ≤ n := by
  have hblock : ∀ hardfork ∈ beforeMerge, isTimestamp hardfork = false := by decide
  have htime : ∀ hardfork ∈ afterMerge, isTimestamp hardfork = true := by decide
  rw [NonDecreasing, forkMap, List.append_assoc, List.pairwise_append, List.pairwise_append]
  constructor
  · rintro ⟨hbefore, ⟨hmerge, hafter, -⟩, hcross⟩
    refine ⟨hbefore.imp_of_mem fun ha hb h => h ((hblock _ ha).trans (hblock _ hb).symm),
      hafter.imp_of_mem fun ha hb h => h ((htime _ ha).trans (htime _ hb).symm),
      fun hardfork hmem m hm => ⟨fun n hn => ?_, fun n hn => ?_⟩, ?_⟩
    · exact hcross hardfork hmem .paris (by simp) (hblock _ hmem) m hm n hn
    · exact hcross hardfork hmem .mergeNetsplitBlock (by simp) (hblock _ hmem) m hm n hn
    · exact (List.pairwise_cons.1 hmerge).1 .mergeNetsplitBlock (List.mem_singleton_self _) rfl
  · rintro ⟨hbefore, hafter, hcross, hmerge⟩
    refine ⟨?_, ⟨?_, ?_, ?_⟩, ?_⟩
    · refine List.Pairwise.imp ?_ hbefore
      exact fun h _ => h
    · exact List.pairwise_pair.2 fun _ => hmerge
    · refine List.Pairwise.imp ?_ hafter
      exact fun h _ => h
    · intro a ha b hb heq
      rw [htime b hb] at heq
      revert ha
      simp only [List.mem_cons, List.not_mem_nil, or_false]
      rintro (rfl | rfl)
      · exact absurd heq (by decide)
      · exact absurd heq (by decide)
    · intro a ha b hb heq m hm n hn
      rcases List.mem_append.1 hb with hb | hb
      · simp only [List.mem_cons, List.not_mem_nil, or_false] at hb
        rcases hb with rfl | rfl
        · exact (hcross a ha m hm).1 n hn
        · exact (hcross a ha m hm).2 n hn
      · rw [hblock a ha, htime b hb] at heq
        exact absurd heq Bool.false_ne_true

theorem NonDecreasing.withMerge (h : config.NonDecreasing) {paris netsplit : Option ℕ}
    (hbefore : ∀ hardfork ∈ beforeMerge, ∀ m ∈ config.value hardfork,
      (∀ n ∈ paris, m ≤ n) ∧ ∀ n ∈ netsplit, m ≤ n)
    (hmerge : ∀ m ∈ paris, ∀ n ∈ netsplit, m ≤ n) :
    (config.withMerge paris netsplit).NonDecreasing := by
  have hvalue : ∀ hardfork ∈ beforeMerge ++ afterMerge,
      (config.withMerge paris netsplit).value hardfork = config.value hardfork := by
    intro hardfork
    cases hardfork <;> first | exact fun _ => rfl | exact fun h => absurd h (by decide)
  obtain ⟨hold, hafter, -, -⟩ := nonDecreasing_iff.1 h
  refine nonDecreasing_iff.2 ⟨hold.imp_of_mem fun ha hb h => ?_,
    hafter.imp_of_mem fun ha hb h => ?_, fun hardfork hmem m hm => ?_, hmerge⟩
  · rwa [hvalue _ (List.mem_append_left _ ha), hvalue _ (List.mem_append_left _ hb)]
  · rwa [hvalue _ (List.mem_append_right _ ha), hvalue _ (List.mem_append_right _ hb)]
  · rw [hvalue _ (List.mem_append_left _ hmem)] at hm
    exact hbefore hardfork hmem m hm

theorem NonDecreasing.inOrder (h : config.NonDecreasing) :
    (listed config forkMap).Pairwise InOrder := by
  have horder : forkMap.Pairwise fun hardfork later => hardfork.index < later.index ∧
      (isTimestamp hardfork = true → isTimestamp later = true) := by decide
  refine List.pairwise_filterMap.2 ((horder.and h).imp ?_)
  rintro hardfork later ⟨⟨hlt, htimes⟩, hle⟩ a ha b hb
  obtain ⟨m, hm, rfl⟩ := Option.map_eq_some_iff.1 ha
  obtain ⟨n, hn, rfl⟩ := Option.map_eq_some_iff.1 hb
  refine ⟨?_, ?_, by rwa [configHardfork_name, configHardfork_name]⟩
  all_goals
    cases hearly : isTimestamp hardfork <;> cases hlate : isTimestamp later <;>
      simp only [hearly, hlate, reduceCtorEq, imp_false, forall_const, not_true] at htimes hle <;>
      simp only [configHardfork, hearly, hlate, blockLe, timestampOrZero, Timestamp.value,
        Bool.false_eq_true, if_false, if_true, decide_eq_true_eq, Option.map_none, Option.map_some,
        Option.getD_none, Option.getD_some, Nat.zero_le, Nat.le_refl]
    try exact hle m hm n hn

theorem listed_withMerge (config : GethGenesisConfig) (paris netsplit : Option ℕ) :
    listed (config.withMerge paris netsplit) forkMap =
      listed config beforeMerge ++ (paris.map (atBlock .paris)).toList ++
        (netsplit.map (atBlock .mergeNetsplitBlock)).toList ++ listed config afterMerge :=
  listed_forkMap _

theorem withMerge_self (config : GethGenesisConfig) :
    config.withMerge (config.value .paris) (config.value .mergeNetsplitBlock) = config := by
  cases config
  simp only [withMerge, mk.injEq, and_self, and_true]
  funext hardfork
  split
  · rename_i heq
    rw [heq]
  · split
    · rename_i heq
      rw [heq]
    · rfl

theorem NonDecreasing.withMerge_of_zero (h : config.NonDecreasing)
    (hzero : ∀ hardfork ∈ beforeMerge, ∀ block ∈ config.value hardfork, block = 0)
    {paris netsplit : ℕ} (hle : paris ≤ netsplit) :
    (config.withMerge (some paris) (some netsplit)).NonDecreasing := by
  refine h.withMerge (fun hardfork hmem m hm => ?_) (by simpa using hle)
  rw [hzero hardfork hmem m hm]
  exact ⟨fun n _ => Nat.zero_le n, fun n _ => Nat.zero_le n⟩

theorem listed_afterMerge_eq_nil : listed config afterMerge = [] ↔ ¬config.HasTime := by
  rw [List.eq_nil_iff_forall_not_mem, HasTime]
  constructor
  · rintro h ⟨hardfork, hmem, hsome⟩
    obtain ⟨value, hvalue⟩ := Option.isSome_iff_exists.1 hsome
    exact h _ (mem_listed.2 ⟨hardfork, hmem, value, hvalue, rfl⟩)
  · rintro h hf hmem
    obtain ⟨hardfork, hmem, value, hvalue, -⟩ := mem_listed.1 hmem
    exact h ⟨hardfork, hmem, Option.isSome_iff_exists.2 ⟨value, hvalue⟩⟩

/-- The hardforks with the merge spliced in. -/
def spliced (config : GethGenesisConfig) : List HardforkEntry :=
  spliceMerge config.terminalTotalDifficultyPassed (listed config forkMap)

/-- What is spliced in, by what the configuration has of the merge. -/
def merged (config : GethGenesisConfig) : List HardforkEntry :=
  match config.value .paris, config.value .mergeNetsplitBlock with
  | some block, netsplit =>
    listed (config.withMerge (some block) (some (netsplit.getD block))) forkMap
  | none, netsplit =>
    if listed config afterMerge ≠ [] then
      listed (config.withMerge (some (netsplit.getD 0)) (some (netsplit.getD 0))) forkMap
    else if config.terminalTotalDifficultyPassed then
      match netsplit with
      | some block =>
        listed config beforeMerge ++ [atBlock .mergeNetsplitBlock block, atBlock .paris 0]
      | none => listed (config.withMerge (some 0) (some 0)) forkMap
    else listed config forkMap

theorem spliced_eq (config : GethGenesisConfig) : config.spliced = config.merged := by
  have hbefore : ∀ hf ∈ listed config beforeMerge,
      hf.name ≠ .paris ∧ hf.name ≠ .mergeNetsplitBlock ∧ hf.timestamp = none := by
    intro hf hmem
    obtain ⟨block, heq, hname, -⟩ := listed_beforeMerge hmem
    refine ⟨fun h => ?_, fun h => ?_, by rw [heq]; rfl⟩
    · rw [h] at hname
      exact absurd hname (by decide)
    · rw [h] at hname
      exact absurd hname (by decide)
  have hafter : ∀ hf ∈ listed config afterMerge,
      hf.name ≠ .paris ∧ hf.name ≠ .mergeNetsplitBlock ∧ hf.timestamp.isSome = true := by
    intro hf hmem
    obtain ⟨time, heq, hname, -⟩ := listed_afterMerge hmem
    refine ⟨fun h => ?_, fun h => ?_, by rw [heq]; rfl⟩
    · rw [h] at hname
      exact absurd hname (by decide)
    · rw [h] at hname
      exact absurd hname (by decide)
  rw [spliced, merged]
  simp only [listed_withMerge]
  rw [listed_forkMap]
  cases config.value .paris with
  | some block =>
    have h := spliceMerge_paris (p := config.terminalTotalDifficultyPassed) hbefore hafter block
      (config.value .mergeNetsplitBlock)
    simpa using h
  | none =>
    by_cases hnil : listed config afterMerge = []
    · have h := spliceMerge_nil (p := config.terminalTotalDifficultyPassed) hbefore
        (config.value .mergeNetsplitBlock)
      rw [hnil]
      cases hp : config.terminalTotalDifficultyPassed <;>
        cases hn : config.value .mergeNetsplitBlock <;> simpa [hp, hn] using h
    · have h := spliceMerge_time (p := config.terminalTotalDifficultyPassed) hbefore hafter
        (config.value .mergeNetsplitBlock) hnil
      simpa [hnil] using h

/-- **A merge that is placed comes out in order**, and what the configuration has stays. -/
theorem MergePlaced.sortHardforks (hplaced : config.MergePlaced) (h : config.NonDecreasing) :
    ∃ paris netsplit, (config.withMerge paris netsplit).NonDecreasing ∧
      (∀ block ∈ config.value .paris, paris = some block) ∧
      (∀ block ∈ config.value .mergeNetsplitBlock, netsplit = some block) ∧
      ChainConfig.sortHardforks config.spliced =
        listed (config.withMerge paris netsplit) forkMap := by
  obtain ⟨-, -, hbefore, hmerge⟩ := nonDecreasing_iff.1 h
  have hsorted : ∀ {paris netsplit : Option ℕ}, (config.withMerge paris netsplit).NonDecreasing →
      ChainConfig.sortHardforks (listed (config.withMerge paris netsplit) forkMap) =
        listed (config.withMerge paris netsplit) forkMap :=
    fun h => sortHardforks_of_inOrder h.inOrder
  have heq := spliced_eq config
  rw [merged] at heq
  cases hp : config.value .paris with
  | some block =>
    rw [hp] at heq hmerge
    simp only [hp] at hbefore
    have hnon : (config.withMerge (some block)
        (some ((config.value .mergeNetsplitBlock).getD block))).NonDecreasing := by
      refine h.withMerge (fun hardfork hmem m hm => ⟨(hbefore hardfork hmem m hm).1, ?_⟩) ?_
      · rintro n ⟨⟩
        cases hn : config.value .mergeNetsplitBlock with
        | none => exact (hbefore hardfork hmem m hm).1 block rfl
        | some n => exact (hbefore hardfork hmem m hm).2 n hn
      · rintro m ⟨⟩ n ⟨⟩
        cases hn : config.value .mergeNetsplitBlock with
        | none => exact Nat.le_refl _
        | some n => exact hmerge block rfl n hn
    refine ⟨_, _, hnon, fun b hb => hb, fun b hb => ?_, ?_⟩
    · rw [Option.mem_def.1 hb]
      rfl
    · rw [heq]
      exact hsorted hnon
  | none =>
    rw [hp] at heq
    dsimp only at heq
    have hnone : ∀ block ∈ (none : Option ℕ), ∀ {a : Option ℕ}, a = some block := by simp
    by_cases hnil : listed config afterMerge = []
    · have htime := listed_afterMerge_eq_nil.1 hnil
      rw [if_neg (not_not.2 hnil)] at heq
      cases hpassed : config.terminalTotalDifficultyPassed with
      | false =>
        rw [hpassed, if_neg Bool.false_ne_true] at heq
        refine ⟨config.value .paris, config.value .mergeNetsplitBlock, ?_, fun _ hb => hp ▸ hb,
          fun _ hb => hb, ?_⟩
        · rwa [withMerge_self]
        · rw [heq, withMerge_self]
          exact sortHardforks_of_inOrder h.inOrder
      | true =>
        rw [hpassed, if_pos rfl] at heq
        cases hn : config.value .mergeNetsplitBlock with
        | none =>
          obtain ⟨-, hzero⟩ := hplaced hp (Or.inl ⟨hn, Or.inr hpassed⟩)
          rw [hn] at heq
          have hnon := h.withMerge_of_zero hzero (Nat.le_refl 0)
          exact ⟨_, _, hnon, fun b hb => hnone b hb, fun b hb => hnone b hb, by
            rw [heq]; exact hsorted hnon⟩
        | some block =>
          obtain ⟨hne, hzero⟩ := hplaced hp (Or.inr ⟨by simp [hn], htime, hpassed⟩)
          rw [hn] at heq hne
          have hnon := h.withMerge_of_zero hzero (Nat.zero_le block)
          refine ⟨_, _, hnon, fun b hb => hnone b hb, fun b hb => hb, ?_⟩
          have hlisted : listed (config.withMerge (some 0) (some block)) forkMap =
              listed config beforeMerge ++ [atBlock .paris 0, atBlock .mergeNetsplitBlock block] := by
            rw [listed_withMerge, hnil, List.append_nil, List.append_assoc]
            rfl
          rw [heq]
          dsimp only
          rw [sortHardforks_swap _ fun h => hne (congrArg some h), ← hlisted]
          exact hsorted hnon
    · have htime : config.HasTime := by
        by_contra h
        exact hnil (listed_afterMerge_eq_nil.2 h)
      rw [if_pos hnil] at heq
      cases hn : config.value .mergeNetsplitBlock with
      | none =>
        obtain ⟨-, hzero⟩ := hplaced hp (Or.inl ⟨hn, Or.inl htime⟩)
        rw [hn] at heq
        have hnon := h.withMerge_of_zero hzero (Nat.le_refl 0)
        exact ⟨_, _, hnon, fun b hb => hnone b hb, fun b hb => hnone b hb, by
          rw [heq]; exact hsorted hnon⟩
      | some block =>
        rw [hn] at heq
        simp only [hn] at hbefore
        have hnon : (config.withMerge (some block) (some block)).NonDecreasing :=
          h.withMerge (fun hardfork hmem m hm =>
            ⟨(hbefore hardfork hmem m hm).2, (hbefore hardfork hmem m hm).2⟩) (by simp)
        exact ⟨_, _, hnon, fun b hb => hnone b hb, fun b hb => hb, by
          rw [heq]; exact hsorted hnon⟩

theorem not_pairwise_of_not_mergePlaced (hplaced : ¬config.MergePlaced) :
    ¬(ChainConfig.sortHardforks config.spliced).Pairwise
      fun hf later => hf.name.index < later.name.index := by
  intro hpairwise
  have hpair : ∀ {hardfork later : Hardfork} {m n : ℕ}, later.index ≤ hardfork.index →
      ¬[atBlock hardfork m, atBlock later n].Sublist (ChainConfig.sortHardforks config.spliced) :=
    fun hle hsub => Nat.not_lt.2 hle (by simpa [atBlock] using hpairwise.sublist hsub)
  have heq := spliced_eq config
  rw [merged] at heq
  -- a hardfork before the merge that is not at block 0
  have hlate : atBlock .paris 0 ∈ config.spliced →
      (∀ hf ∈ listed config beforeMerge, hf ∈ config.spliced) →
      ∀ hardfork ∈ beforeMerge, ∀ block ∈ config.value hardfork, block = 0 := by
    intro hparis hmem hardfork hin block hvalue
    by_contra hne
    have hblock : isTimestamp hardfork = false := by
      revert hin
      cases hardfork <;> decide
    have hlisted := mem_listed.2 ⟨hardfork, hin, block, hvalue, configHardfork_of_before hblock block⟩
    refine hpair ?_ (pair_sublist_sortHardforks hparis (hmem _ hlisted) hne)
    revert hin
    cases hardfork <;> decide
  rw [MergePlaced] at hplaced
  push Not at hplaced
  obtain ⟨hp, hcase, hbad⟩ := hplaced
  rw [hp] at heq
  dsimp only at heq
  rcases hcase with ⟨hn, hwhen⟩ | ⟨hn, htime, hpassed⟩
  · have hspliced : config.spliced = listed (config.withMerge (some 0) (some 0)) forkMap := by
      rw [heq, hn]
      rcases hwhen with htime | hpassed
      · exact if_pos fun h => listed_afterMerge_eq_nil.1 h htime
      · simp [hpassed]
    rw [listed_withMerge] at hspliced
    obtain ⟨hardfork, hin, block, hvalue, hne⟩ := hbad (by simp [hn])
    exact hne (hlate (by simp [hspliced]) (fun hf hmem => by simp [hspliced, hmem]) hardfork hin block
      hvalue)
  · obtain ⟨block, hn⟩ := Option.ne_none_iff_exists'.1 hn
    have hspliced : config.spliced =
        listed config beforeMerge ++ [atBlock .mergeNetsplitBlock block, atBlock .paris 0] := by
      rw [heq, hn]
      simp [listed_afterMerge_eq_nil.2 htime, hpassed]
    by_cases hzero : block = 0
    · subst hzero
      refine hpair (by decide) (pair_sublist_sortHardforks_of_eq ?_ : List.Sublist
        [atBlock .mergeNetsplitBlock 0, atBlock .paris 0] _)
      rw [hspliced]
      exact List.sublist_append_right _ _
    · obtain ⟨hardfork, hin, block', hvalue, hne⟩ := hbad (by simpa [hn] using hzero)
      exact hne (hlate (by simp [hspliced]) (fun hf hmem => by simp [hspliced, hmem]) hardfork hin
        block' hvalue)

end GethGenesisConfig

/-! ## The import -/

theorem checkOrder_eq_ok {before names : List Hardfork}
    (h : (before ++ names).Pairwise fun hardfork later => hardfork.index < later.index) :
    checkOrder before names = .ok () := by
  induction names generalizing before with
  | nil => rfl
  | cons name names ih =>
    have hnone : before.find? (fun prevName => name.index < prevName.index) = none := by
      refine List.find?_eq_none.2 fun prevName hmem => ?_
      have hlt := (List.pairwise_append.1 h).2.2 prevName hmem name List.mem_cons_self
      simpa using hlt.le
    rw [checkOrder, hnone]
    exact ih (by rwa [List.append_assoc])

@[simp] theorem zeroGenesis_name (genesisTimestamp : Option ℕ) (hf : HardforkEntry) :
    (zeroGenesis genesisTimestamp hf).name = hf.name := by
  rw [zeroGenesis]
  split <;> rfl

/-- **A hardfork of the configuration is met from its block or its time on**, also when that is the
time of the genesis. -/
theorem activatesAt_zeroGenesis (genesisTimestamp : Option ℕ) (hardfork : Hardfork) (value : ℕ) :
    ActivatesAt (zeroGenesis genesisTimestamp (configHardfork hardfork value)) value
      genesisTimestamp := by
  intro blockNumber timestamp hgenesis
  rw [zeroGenesis_name, configHardfork_name, configHardfork]
  cases htime : isTimestamp hardfork with
  | false =>
    have hnot : ¬(genesisTimestamp.isSome = true ∧ (none : Option Timestamp) =
        genesisTimestamp.map .number) := by
      cases genesisTimestamp <;> simp
    simp only [Bool.false_eq_true, if_false, zeroGenesis, if_neg hnot]
    simp [HardforkEntry.metBy]
  | true =>
    rw [if_pos rfl, if_pos rfl, zeroGenesis]
    split
    · rename_i heq
      obtain ⟨-, heq⟩ := heq
      obtain ⟨genesis, hsome, hnumber⟩ := Option.map_eq_some_iff.1 heq.symm
      obtain rfl : genesis = value := Timestamp.number.inj hnumber
      simpa [HardforkEntry.metBy, Timestamp.value] using hgenesis genesis hsome
    · simp only [HardforkEntry.metBy, Option.any_none, Option.any_some, Bool.false_or, Timestamp.value]
      exact decide_eq_true_iff

/-- **A configuration in order is imported** when its two numbers of Spurious Dragon are one, it has
no blob schedule, and the merge is not put before a later block. -/
theorem parseGethGenesis_iff (config : GethGenesisConfig) (genesisTimestamp : Option ℕ)
    (h : config.NonDecreasing) :
    (∃ hardforks, parseGethGenesis config genesisTimestamp = .ok hardforks ∧
        Imports config genesisTimestamp hardforks) ↔
      config.value .spuriousDragon = config.eip158Block ∧ config.blobSchedule.getD [] = [] ∧
        config.MergePlaced := by
  rw [parseGethGenesis]
  by_cases hdragon : config.value .spuriousDragon = config.eip158Block
  swap
  · rw [if_pos hdragon]
    simp [hdragon]
  rw [if_neg (not_not.2 hdragon)]
  cases hblobs : config.blobSchedule.getD [] with
  | cons hfKey rest => simp
  | nil =>
    have hsplice : spliceMerge config.terminalTotalDifficultyPassed (listed config forkMap) =
        config.spliced := rfl
    simp only [hsplice, hdragon, true_and, Except.ok.injEq, exists_eq_left']
    constructor
    · intro himports
      by_contra hplaced
      refine GethGenesisConfig.not_pairwise_of_not_mergePlaced hplaced ?_
      have hsorted := (List.pairwise_cons.1 himports.sorted).2
      rw [List.pairwise_map] at hsorted
      simpa using hsorted
    · intro hplaced
      obtain ⟨paris, netsplit, hnon, hparis, hnetsplit, hsorted⟩ := hplaced.sortHardforks h
      rw [hsorted]
      have hpairwise : (⟨.chainstart, some 0, none, none⟩ ::
          (listed (config.withMerge paris netsplit) forkMap).map (zeroGenesis genesisTimestamp) :
          List HardforkEntry).Pairwise fun hf later => hf.name.index < later.name.index := by
        refine List.pairwise_cons.2 ⟨fun hf hmem => ?_, List.pairwise_map.2 ?_⟩
        · obtain ⟨hf', hmem', rfl⟩ := List.mem_map.1 hmem
          obtain ⟨hardfork, hin, value, -, rfl⟩ := mem_listed.1 hmem'
          rw [zeroGenesis_name, configHardfork_name]
          revert hin
          cases hardfork <;> decide
        · simpa using hnon.inOrder.imp fun hab => hab.2.2
      refine ⟨hpairwise, fun chainId hpos => ?_, fun hardfork hin value hvalue => ?_⟩
      · rw [validateChainSchema, if_neg (by simp), checkOrder_eq_ok]
        · exact if_neg hpos.ne'
        · rw [List.nil_append, List.pairwise_map]
          exact hpairwise
      · have hkept : value ∈ (config.withMerge paris netsplit).value hardfork := by
          rw [GethGenesisConfig.withMerge]
          dsimp only
          split
          · rename_i heq
            subst heq
            exact hparis value hvalue
          · split
            · rename_i heq
              subst heq
              exact hnetsplit value hvalue
            · exact hvalue
        refine ⟨zeroGenesis genesisTimestamp (configHardfork hardfork value),
          List.mem_cons_of_mem _ (List.mem_map_of_mem (mem_listed.2 ⟨hardfork, hin, value, hkept, rfl⟩)),
          by rw [zeroGenesis_name, configHardfork_name], activatesAt_zeroGenesis _ _ _⟩

/-- London at a block, and Shanghai at a time. -/
def sampleGenesis (londonBlock : ℕ) : GethGenesisConfig where
  value
    | .london => some londonBlock
    | .shanghai => some 1000
    | _ => none
  eip158Block := none
  blobSchedule := none
  terminalTotalDifficultyPassed := false

theorem parseGethGenesis_iff_sample :
    ∃ hardforks, parseGethGenesis (sampleGenesis 0) (some 5) = .ok hardforks ∧
      Imports (sampleGenesis 0) (some 5) hardforks :=
  (parseGethGenesis_iff (sampleGenesis 0) (some 5) (by unfold GethGenesisConfig.NonDecreasing; decide)).2
    ⟨rfl, rfl, fun _ _ => ⟨by decide, by decide⟩⟩

/-- **With London behind block 0 the merge comes before London.** -/
theorem not_imports_sample : (sampleGenesis 100).NonDecreasing ∧
    ¬∃ hardforks, parseGethGenesis (sampleGenesis 100) (some 5) = .ok hardforks ∧
      Imports (sampleGenesis 100) (some 5) hardforks := by
  refine ⟨by unfold GethGenesisConfig.NonDecreasing; decide, ?_⟩
  rintro ⟨hardforks, hparse, himports⟩
  have hmerge : parseGethGenesis (sampleGenesis 100) (some 5) =
      .ok [atBlock .chainstart 0, atBlock .paris 0, atBlock .mergeNetsplitBlock 0,
        atBlock .london 100, configHardfork .shanghai 1000] := rfl
  obtain rfl := Except.ok.inj (hmerge.symm.trans hparse)
  exact absurd himports.sorted (by decide)

end ChainConfig

end TsEthereum
