import TsEthereum.ChainConfig.ForkId
import Mathlib.Data.List.TakeWhile

/-!
# Fork ids as they should be

EIP-2124: the checksum of the genesis hash and of the distinct activations, but for those at the
genesis and Paris, in four bytes; and the next activation that is not among them. The code
comes to that exactly for the schedules `ForkIdConditions` says (`forkIdCorrect_iff`): a
checksum below `2 ^ 24` is written in fewer bytes, an activation that comes back is taken
twice, and what comes next may be that of Paris, or one that is scheduled already in another
type of number.
-/

namespace TsEthereum

namespace ChainConfig

variable {schedule : Schedule} {hardfork : Hardfork} {genesisHash : Bytes}

/-! ## What they are for -/

/-- What a hardfork adds to the fork id: its activation, but for one at the genesis. Paris, which
has none, adds nothing. -/
def HardforkEntry.activation (hf : HardforkEntry) : Option ℕ :=
  if hf.name = .paris then none
  else (hf.blockOrTime.map BlockOrTime.value).filter fun activation => activation ≠ 0

/-- The activations up to a hardfork, -/
def Schedule.activationsTo (schedule : Schedule) (hardfork : Hardfork) : List ℕ :=
  (schedule.hardforks.take (schedule.hardforks.findIdx (fun hf => hf.name = hardfork) + 1)).filterMap
    HardforkEntry.activation

/-- and after it. -/
def Schedule.activationsAfter (schedule : Schedule) (hardfork : Hardfork) : List ℕ :=
  (schedule.hardforks.drop (schedule.hardforks.findIdx (fun hf => hf.name = hardfork) + 1)).filterMap
    HardforkEntry.activation

/-- **The checksum of EIP-2124**, over the distinct activations. -/
def forkChecksum (schedule : Schedule) (hardfork : Hardfork) (genesisHash : Bytes) : ℕ :=
  (crcChecksum
    (genesisHash ++ (schedule.activationsTo hardfork).eraseDups.flatMap hfBlockBytes)).toNat

/-- **The next activation** that a fork hash takes up. -/
def nextActivation (schedule : Schedule) (hardfork : Hardfork) : Option ℕ :=
  (schedule.activationsAfter hardfork).find? fun activation =>
    activation ∉ schedule.activationsTo hardfork

/-- **A fork id**: the hash is the checksum in four bytes, and what is next is the next
activation. -/
structure ForkIdCorrect (schedule : Schedule) (hardfork : Hardfork) (genesisHash : Bytes) : Prop where
  forkHash : ∃ hash, forkHash schedule hardfork genesisHash = .ok hash ∧ hash.length = 4 ∧
    ofBigEndian hash = forkChecksum schedule hardfork genesisHash
  next : nextHardforkBlockOrTimestamp schedule hardfork = nextActivation schedule hardfork

/-! ## The checksum -/

theorem TABLE_eq : ∀ i < 256, BitVec.ofNat 32 (TABLE.getD i 0) = crcShifts 8 (BitVec.ofNat 32 i) := by
  decide +kernel

theorem crc32_eq (b : Bytes) : crc32 b = crcChecksum b := by
  have hturn : crcTurn = crcByte := by
    funext crc byte
    exact (crcByte_eq_table TABLE_eq crc byte).symm
  rw [crc32, crcChecksum, hturn]

/-- What is left without the activations that repeat the one before. -/
def withoutRepeats : ℕ → List ℕ → List ℕ
  | _, [] => []
  | prev, activation :: activations =>
    if activation = prev then withoutRepeats prev activations
    else activation :: withoutRepeats activation activations

theorem activation_eq {hf : HardforkEntry} {blockOrTime : BlockOrTime}
    (h : hf.blockOrTime = some blockOrTime) :
    hf.activation =
      if hf.name ≠ .paris ∧ blockOrTime.value ≠ 0 then some blockOrTime.value else none := by
  unfold HardforkEntry.activation
  rw [h]
  by_cases hparis : hf.name = .paris
  · simp [hparis]
  · by_cases hzero : blockOrTime.value = 0 <;> simp [hparis, hzero, Option.filter]

theorem activation_of_none {hf : HardforkEntry} (h : hf.blockOrTime = none) : hf.activation = none := by
  unfold HardforkEntry.activation
  rw [h]
  split <;> rfl

theorem foldHardforks_eq (hfs : List HardforkEntry) (hfBytes : Bytes) (prev : ℕ) :
    foldHardforks hardfork hfs hfBytes prev = hfBytes ++
      (withoutRepeats prev ((hfs.take (hfs.findIdx (fun hf => hf.name = hardfork) + 1)).filterMap
        HardforkEntry.activation)).flatMap hfBlockBytes := by
  induction hfs generalizing hfBytes prev with
  | nil => simp [foldHardforks, withoutRepeats]
  | cons hf hfs ih =>
    have htake : (hf :: hfs).take ((hf :: hfs).findIdx (fun hf => hf.name = hardfork) + 1) =
        hf :: if hf.name = hardfork then []
          else hfs.take (hfs.findIdx (fun hf => hf.name = hardfork) + 1) := by
      rw [List.findIdx_cons, List.take_succ_cons]
      by_cases hname : hf.name = hardfork <;> simp [hname]
    rw [htake, foldHardforks]
    cases hscheduled : hf.blockOrTime with
    | none =>
      rw [List.filterMap_cons_none (activation_of_none hscheduled)]
      dsimp only
      split
      · simp [withoutRepeats]
      · exact ih hfBytes prev
    | some blockOrTime =>
      have hactivation := activation_eq hscheduled
      by_cases hadds : hf.name ≠ .paris ∧ blockOrTime.value ≠ 0
      · rw [if_pos hadds] at hactivation
        rw [List.filterMap_cons_some hactivation, withoutRepeats]
        by_cases hprev : blockOrTime.value = prev
        · simp only [hprev, ne_eq, not_true_eq_false, false_and, and_false, if_false, if_true]
          split
          · simp [withoutRepeats]
          · exact ih hfBytes prev
        · simp only [hprev, hadds.1, hadds.2, ne_eq, not_false_eq_true, and_self, if_true, if_false,
            List.flatMap_cons]
          split
          · simp [withoutRepeats]
          · rw [ih, List.append_assoc]
      · rw [if_neg hadds] at hactivation
        rw [List.filterMap_cons_none hactivation]
        have hskips : ¬ (blockOrTime.value ≠ 0 ∧ blockOrTime.value ≠ prev ∧ hf.name ≠ .paris) :=
          fun h => hadds ⟨h.2.2, h.1⟩
        simp only [hskips, if_false]
        split
        · simp [withoutRepeats]
        · exact ih hfBytes prev

theorem calcForkHash_eq (schedule : Schedule) (hardfork : Hardfork) (genesisHash : Bytes) :
    calcForkHash schedule.hardforks hardfork genesisHash =
      intToBytes (crcChecksum (genesisHash ++
        (withoutRepeats 0 (schedule.activationsTo hardfork)).flatMap hfBlockBytes)).toNat := by
  rw [calcForkHash, foldHardforks_eq, List.nil_append, crc32_eq]
  rfl

theorem intToBytes_four_iff {n k : ℕ} (hn : n < 2 ^ 32) :
    ((intToBytes n).length = 4 ∧ ofBigEndian (intToBytes n) = k) ↔ 2 ^ 24 ≤ n ∧ n = k := by
  unfold intToBytes
  by_cases hzero : n = 0
  · rw [if_pos hzero]
    simp [hzero]
  · rw [if_neg hzero, ofBigEndian_bigEndian, and_congr_left_iff]
    intro hk
    constructor
    · intro hlength
      by_contra hlt
      have := length_bigEndian_le (show n < 256 ^ 3 by omega)
      omega
    · intro hle
      have hupper := length_bigEndian_le (show n < 256 ^ 4 by omega)
      by_contra hne
      have hlower := ofBigEndian_lt (bigEndian n)
      rw [ofBigEndian_bigEndian] at hlower
      have hpow := Nat.pow_le_pow_right (show 0 < 256 by decide)
        (show (bigEndian n).length ≤ 3 by omega)
      omega

/-! ## What comes next -/

theorem Schedule.findIdx_lt {data : HardforkEntry} (hmem : data ∈ schedule.hardforks)
    (hname : data.name = hardfork) :
    schedule.hardforks.findIdx (fun hf => hf.name = hardfork) < schedule.hardforks.length :=
  List.findIdx_lt_length_of_exists ⟨data, hmem, by simpa using hname⟩

theorem targetHfIndex_eq {data : HardforkEntry} (hmem : data ∈ schedule.hardforks)
    (hname : data.name = hardfork) :
    targetHfIndex schedule hardfork =
      let index := schedule.hardforks.findIdx fun hf => hf.name = hardfork
      if hardfork = .paris then if index = 0 then none else some (index - 1) else some index := by
  unfold targetHfIndex
  rw [List.findIdx?_eq_some_of_exists ⟨data, hmem, by simpa using hname⟩, Option.bind_some]

theorem filterMap_drop_targetHfIndex {data : HardforkEntry} {index : ℕ}
    (hmem : data ∈ schedule.hardforks) (hname : data.name = hardfork)
    (hindex : targetHfIndex schedule hardfork = some index) :
    (schedule.hardforks.drop (index + 1)).filterMap HardforkEntry.activation =
      schedule.activationsAfter hardfork := by
  rw [targetHfIndex_eq hmem hname] at hindex
  have hlt := schedule.findIdx_lt hmem hname
  have hget : (schedule.hardforks[schedule.hardforks.findIdx fun hf => hf.name = hardfork]).name =
      hardfork := by
    have h := List.findIdx_getElem (w := hlt)
    simpa using h
  unfold Schedule.activationsAfter
  dsimp only at hindex
  split at hindex
  · rename_i hparis
    split at hindex
    · cases hindex
    · obtain rfl := Option.some.inj hindex
      rw [show schedule.hardforks.findIdx (fun hf => hf.name = hardfork) - 1 + 1 =
        schedule.hardforks.findIdx (fun hf => hf.name = hardfork) by omega,
        List.drop_eq_getElem_cons hlt, List.filterMap_cons_none]
      rw [HardforkEntry.activation, if_pos (hget.trans hparis)]
  · obtain rfl := Option.some.inj hindex
    rfl

/-- The activation that is searched from, and the entries that are searched. -/
def searchFrom (schedule : Schedule) (hardfork : Hardfork) :
    Option (BlockOrTime × List HardforkEntry) :=
  (targetHfIndex schedule hardfork).bind fun index =>
    ((schedule.hardforks[index]?).bind HardforkEntry.blockOrTime).map fun current =>
      (current, schedule.hardforks.drop (index + 1))

/-- The search: the first entry that is scheduled otherwise. -/
def foundAfter (current : BlockOrTime) (later : List HardforkEntry) : Option ℕ :=
  (later.find? fun hf =>
    decide (hf.blockOrTime ≠ none) && decide (hf.blockOrTime ≠ some current)).bind fun hf =>
      hf.blockOrTime.map BlockOrTime.value

theorem nextHardforkBlockOrTimestamp_eq (schedule : Schedule) (hardfork : Hardfork) :
    nextHardforkBlockOrTimestamp schedule hardfork =
      (searchFrom schedule hardfork).bind fun from_ => foundAfter from_.1 from_.2 := by
  unfold nextHardforkBlockOrTimestamp searchFrom
  cases targetHfIndex schedule hardfork with
  | none => rfl
  | some index =>
    simp only [Option.bind_some]
    cases (schedule.hardforks[index]?).bind HardforkEntry.blockOrTime with
    | none => rfl
    | some current => rfl

/-- The entries before the first that is scheduled at what is next. -/
def beforeNext (next : Option ℕ) (later : List HardforkEntry) : List HardforkEntry :=
  later.takeWhile fun hf => hf.blockOrTime.all fun blockOrTime => decide (some blockOrTime.value ≠ next)

/-- **The search comes to what is next** exactly when all before it is unscheduled, or scheduled as
what is searched from. -/
theorem foundAfter_eq_iff {current : BlockOrTime} {later : List HardforkEntry} {next : Option ℕ}
    (hnext : ∀ activation, next = some activation → activation ≠ current.value ∧
      ∃ hf ∈ later, hf.blockOrTime.map BlockOrTime.value = some activation) :
    foundAfter current later = next ↔
      ∀ hf ∈ beforeNext next later, hf.blockOrTime = none ∨ hf.blockOrTime = some current := by
  induction later with
  | nil =>
    have hnone : next = none := by
      cases next with
      | none => rfl
      | some activation => simpa using (hnext activation rfl).2
    simp [foundAfter, beforeNext, hnone]
  | cons hf later ih =>
    have htail (hother : ∀ activation, next = some activation →
        hf.blockOrTime.map BlockOrTime.value ≠ some activation) :
        ∀ activation, next = some activation → activation ≠ current.value ∧
          ∃ hf ∈ later, hf.blockOrTime.map BlockOrTime.value = some activation := by
      intro activation hactivation
      obtain ⟨hne, hf', hmem, hvalue⟩ := hnext activation hactivation
      refine ⟨hne, hf', (List.mem_cons.1 hmem).resolve_left ?_, hvalue⟩
      rintro rfl
      exact hother activation hactivation hvalue
    cases hscheduled : hf.blockOrTime with
    | none =>
      have hskip : foundAfter current (hf :: later) = foundAfter current later := by
        simp [foundAfter, hscheduled]
      have hbefore : beforeNext next (hf :: later) = hf :: beforeNext next later := by
        simp [beforeNext, hscheduled]
      rw [hskip, hbefore, ih (htail fun _ _ => by simp [hscheduled]), List.forall_mem_cons]
      simp [hscheduled]
    | some blockOrTime =>
      by_cases hsame : blockOrTime = current
      · -- scheduled as what is searched from
        have hvalue : some blockOrTime.value ≠ next := by
          intro h
          exact (hnext _ h.symm).1 (by rw [hsame])
        have hskip : foundAfter current (hf :: later) = foundAfter current later := by
          simp [foundAfter, hscheduled, hsame]
        have hbefore : beforeNext next (hf :: later) = hf :: beforeNext next later := by
          simp [beforeNext, hscheduled, hvalue]
        have htail' := htail fun activation hactivation h => hvalue (by
          rw [hactivation, ← h, hscheduled]
          rfl)
        rw [hskip, hbefore, ih htail', List.forall_mem_cons]
        simp [hscheduled, hsame]
      · have hfound : foundAfter current (hf :: later) = some blockOrTime.value := by
          simp [foundAfter, hscheduled, hsame]
        rw [hfound]
        by_cases hvalue : some blockOrTime.value = next
        · have hbefore : beforeNext next (hf :: later) = [] := by
            simp [beforeNext, hscheduled, hvalue]
          simp [hbefore, hvalue]
        · have hbefore : beforeNext next (hf :: later) = hf :: beforeNext next later := by
            simp [beforeNext, hscheduled, hvalue]
          rw [hbefore, List.forall_mem_cons]
          simp [hscheduled, hsame, hvalue]

theorem exists_of_activation {hf : HardforkEntry} {activation : ℕ}
    (h : hf.activation = some activation) :
    hf.blockOrTime.map BlockOrTime.value = some activation ∧ activation ≠ 0 := by
  cases hscheduled : hf.blockOrTime with
  | none =>
    rw [activation_of_none hscheduled] at h
    cases h
  | some blockOrTime =>
    rw [activation_eq hscheduled] at h
    split at h
    · rename_i hadds
      obtain rfl := Option.some.inj h
      exact ⟨rfl, hadds.2⟩
    · cases h

theorem searchFrom_spec {data : HardforkEntry} {current : BlockOrTime} {later : List HardforkEntry}
    (hmem : data ∈ schedule.hardforks) (hname : data.name = hardfork)
    (hfrom : searchFrom schedule hardfork = some (current, later)) (activation : ℕ)
    (hnext : nextActivation schedule hardfork = some activation) :
    activation ≠ current.value ∧
      ∃ hf ∈ later, hf.blockOrTime.map BlockOrTime.value = some activation := by
  obtain ⟨index, hindex, hcurrent⟩ := Option.bind_eq_some_iff.1 hfrom
  obtain ⟨current', hentry, heq⟩ := Option.map_eq_some_iff.1 hcurrent
  obtain ⟨rfl, rfl⟩ := Prod.mk.inj heq
  obtain ⟨hf, hget, hscheduled⟩ := Option.bind_eq_some_iff.1 hentry
  have hafter : activation ∈ schedule.activationsAfter hardfork := List.mem_of_find?_eq_some hnext
  have hnot : activation ∉ schedule.activationsTo hardfork := by
    simpa using List.find?_some hnext
  rw [← filterMap_drop_targetHfIndex hmem hname hindex, List.mem_filterMap] at hafter
  obtain ⟨next, hnextmem, hactivation⟩ := hafter
  obtain ⟨hvalue, hzero⟩ := exists_of_activation hactivation
  refine ⟨fun heq => hnot ?_, next, hnextmem, hvalue⟩
  -- it is no activation of the entry that is searched from
  have hlt := schedule.findIdx_lt hmem hname
  rw [targetHfIndex_eq hmem hname] at hindex
  have hindex' : index ≤ schedule.hardforks.findIdx (fun hf => hf.name = hardfork) ∧
      hf.name ≠ .paris := by
    obtain ⟨hltlen, rfl⟩ := List.getElem?_eq_some_iff.1 hget
    dsimp only at hindex
    split at hindex
    · rename_i hparis
      split at hindex
      · cases hindex
      · obtain rfl := Option.some.inj hindex
        refine ⟨by omega, fun h => ?_⟩
        have hbefore := List.not_of_lt_findIdx (p := fun hf : HardforkEntry => decide (hf.name = hardfork))
          (show schedule.hardforks.findIdx (fun hf => hf.name = hardfork) - 1 <
            schedule.hardforks.findIdx fun hf => hf.name = hardfork by omega)
        rw [decide_eq_false_iff_not] at hbefore
        exact hbefore (h.trans hparis.symm)
    · rename_i hparis
      obtain rfl := Option.some.inj hindex
      have h := List.findIdx_getElem (w := hlt)
      simp only [decide_eq_true_eq] at h
      exact ⟨le_refl _, by rwa [h]⟩
  refine List.mem_filterMap.2 ⟨hf, List.mem_take_iff_getElem.2 ⟨index, ?_, ?_⟩, ?_⟩
  · have hltlen := (List.getElem?_eq_some_iff.1 hget).1
    omega
  · exact (List.getElem?_eq_some_iff.1 hget).2
  · rw [activation_eq hscheduled, if_pos ⟨hindex'.2, by rwa [← heq]⟩, heq]

/-! ## The conditions -/

/-- **When the hash is right**: one that is given is, and else the checksum has all four bytes and
the activations that come back, if there are any, do not change it. -/
def HashConditions (schedule : Schedule) (data : HardforkEntry) (genesisHash : Bytes) : Prop :=
  match data.forkHash with
  | some hash => hash.length = 4 ∧ ofBigEndian hash = forkChecksum schedule data.name genesisHash
  | none => 2 ^ 24 ≤ forkChecksum schedule data.name genesisHash ∧
      (crcChecksum (genesisHash ++
        (withoutRepeats 0 (schedule.activationsTo data.name)).flatMap hfBlockBytes)).toNat =
          forkChecksum schedule data.name genesisHash

/-- **When what is next is right**: what is searched before the next activation is unscheduled, or
scheduled as what is searched from, in the same type. -/
def NextConditions (schedule : Schedule) (hardfork : Hardfork) : Prop :=
  match searchFrom schedule hardfork with
  | none => nextActivation schedule hardfork = none
  | some (current, later) => ∀ hf ∈ beforeNext (nextActivation schedule hardfork) later,
      hf.blockOrTime = none ∨ hf.blockOrTime = some current

theorem mem_of_find {data : HardforkEntry}
    (hfind : schedule.hardforks.find? (fun hf => hf.name = hardfork) = some data) :
    data ∈ schedule.hardforks ∧ data.name = hardfork :=
  ⟨List.mem_of_find?_eq_some hfind, by simpa using List.find?_some hfind⟩

/-- The hash is right, -/
theorem forkHash_iff {data : HardforkEntry}
    (hfind : schedule.hardforks.find? (fun hf => hf.name = hardfork) = some data)
    (hscheduled : data.blockOrTime ≠ none) :
    (∃ hash, forkHash schedule hardfork genesisHash = .ok hash ∧ hash.length = 4 ∧
      ofBigEndian hash = forkChecksum schedule hardfork genesisHash) ↔
        HashConditions schedule data genesisHash := by
  obtain ⟨-, rfl⟩ := mem_of_find hfind
  unfold HashConditions forkHash
  rw [hfind]
  simp only [hscheduled, if_false]
  cases data.forkHash with
  | some hash => simp
  | none =>
    simp only [Except.ok.injEq, exists_eq_left']
    rw [calcForkHash_eq, intToBytes_four_iff (BitVec.isLt _)]
    constructor
    · rintro ⟨hle, heq⟩
      exact ⟨heq ▸ hle, heq⟩
    · rintro ⟨hle, heq⟩
      exact ⟨heq ▸ hle, heq⟩

/-- and what is next. -/
theorem next_iff {data : HardforkEntry}
    (hfind : schedule.hardforks.find? (fun hf => hf.name = hardfork) = some data) :
    nextHardforkBlockOrTimestamp schedule hardfork = nextActivation schedule hardfork ↔
      NextConditions schedule hardfork := by
  obtain ⟨hmem, hname⟩ := mem_of_find hfind
  unfold NextConditions
  rw [nextHardforkBlockOrTimestamp_eq]
  cases hfrom : searchFrom schedule hardfork with
  | none => exact eq_comm
  | some from_ => exact foundAfter_eq_iff fun activation => searchFrom_spec hmem hname hfrom activation

/-- **A fork id**: of every schedule, every hardfork that is scheduled and every genesis, it is that
of EIP-2124 exactly under these conditions. -/
theorem forkIdCorrect_iff {data : HardforkEntry}
    (hfind : schedule.hardforks.find? (fun hf => hf.name = hardfork) = some data)
    (hscheduled : data.blockOrTime ≠ none) :
    ForkIdCorrect schedule hardfork genesisHash ↔
      HashConditions schedule data genesisHash ∧ NextConditions schedule hardfork := by
  rw [← forkHash_iff hfind hscheduled, ← next_iff hfind]
  exact ⟨fun h => ⟨h.forkHash, h.next⟩, fun h => ⟨h.1, h.2⟩⟩

/-! ## A schedule -/

/-- Two forks at one block, then one at a time. -/
def sampleSchedule : Schedule where
  hardforks := [⟨.chainstart, some 0, none, none⟩, ⟨.homestead, some 5, none, none⟩,
    ⟨.dao, some 5, none, none⟩, ⟨.shanghai, none, some (.number 20), none⟩]
  ordered := by decide

theorem forkIdCorrect_iff_sampleSchedule :
    ForkIdCorrect sampleSchedule .homestead (List.replicate 32 1) := by
  have hfind : sampleSchedule.hardforks.find? (fun hf => hf.name = .homestead) =
      some ⟨.homestead, some 5, none, none⟩ := rfl
  refine (forkIdCorrect_iff hfind (by decide)).2 ⟨?_, ?_⟩
  · exact ⟨by decide +kernel, by decide +kernel⟩
  · change ∀ hf ∈ [_], _
    decide

/-- **A checksum below `2 ^ 24`** is written in three bytes. -/
theorem not_forkIdCorrect_of_small :
    ¬ ForkIdCorrect sampleSchedule .chainstart (List.replicate 31 0 ++ [150]) := by
  rintro ⟨⟨hash, hhash, hlength, -⟩, -⟩
  have hthree : forkHash sampleSchedule .chainstart (List.replicate 31 0 ++ [150]) =
      .ok [0x66, 0x63, 0xdc] := by decide +kernel
  rw [hthree] at hhash
  obtain rfl := Except.ok.inj hhash
  cases hlength

end ChainConfig

end TsEthereum
