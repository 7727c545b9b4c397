import TsEthereum.ChainConfig.Manager
import Mathlib.Data.List.TakeWhile

/-!
# Two lookups of a hardfork

`getHardforkByBlock` and `GlobalConfig.getHardforkBy` (`config/global-config.ts`). The
first takes the last hardfork that is met, by its block or by its time; the second
steps back from the first that is not. The two are one where a time is not met
before the blocks are, and where the default hardfork, a floor of the first alone,
is not later (`lookups_agree`).
-/

namespace TsEthereum

namespace ChainConfig

namespace HardforkEntry

/-- The hardfork is met, by its block or by its time. -/
def metBy (blockNumber timestamp : ℕ) (hf : HardforkEntry) : Bool :=
  (hf.block.any fun block => decide (block ≤ blockNumber)) ||
    hf.timestamp.any fun time => decide (time.value ≤ timestamp)

/-- What `findIndex` of `getHardforkBy` looks for. -/
def comesAfter (blockNumber timestamp : Option ℕ) (hf : HardforkEntry) : Bool :=
  (blockNumber.any fun blockNumber => hf.block.any fun block => decide (blockNumber < block)) ||
    timestamp.any fun timestamp => hf.timestamp.any fun time => decide (timestamp < time.value)

/-- It has a block or a time. -/
def isScheduled (hf : HardforkEntry) : Bool := hf.block.isSome || hf.timestamp.isSome

end HardforkEntry

/-- The loop of `getHardforkBy` over hardforks that come together. -/
def skipTies (hfs : List HardforkEntry) : ℕ → ℕ → ℕ
  | 0, hfIndex => hfIndex
  | turns + 1, hfIndex =>
    match hfs[hfIndex]?, hfs[hfIndex + 1]? with
    | some hf, some next =>
      if hf.block ≠ next.block ∨ hf.timestamp ≠ next.timestamp then hfIndex
      else skipTies hfs turns (hfIndex + 1)
    | _, _ => hfIndex

/-- **`getHardforkBy`.** An index that is not found is -1. -/
def getHardforkBy (schemaHardforks : List HardforkEntry) (blockNumber timestamp : Option ℕ) :
    Except String Hardfork :=
  let hfs := schemaHardforks.filter HardforkEntry.isScheduled
  let hfIndex := (hfs.findIdx? (HardforkEntry.comesAfter blockNumber timestamp)).getD hfs.length
  if hfIndex = 0 ∧ hfs ≠ [] then .error "Must have at least one hardfork at block 0"
  else
    let hfIndex :=
      if timestamp = none then
        match (hfs.take hfIndex).reverse.findIdx? fun hf => hf.block.isSome with
        | some stepBack => hfIndex - stepBack
        | none => hfIndex + 1
      else hfIndex
    match hfs[skipTies hfs hfs.length (hfIndex - 1)]? with
    | some hf => .ok hf.name
    | none => .error "Cannot read properties of undefined (reading 'name')"

/-- **Blocks that do not decrease, and then times that do not.** -/
def BlocksThenTimes (hardforks : List HardforkEntry) : Prop :=
  ∃ blocks times, hardforks = blocks ++ times ∧ (∀ hf ∈ blocks, hf.timestamp = none) ∧
    (∀ hf ∈ times, hf.block = none) ∧
    (blocks.filterMap HardforkEntry.block).Pairwise (· ≤ ·) ∧
    (times.filterMap fun hf => hf.timestamp.map Timestamp.value).Pairwise (· ≤ ·)

/-- **The last hardfork that is met.** -/
def lastMet (hardforks : List HardforkEntry) (blockNumber timestamp : ℕ) : Option Hardfork :=
  ((hardforks.filter (HardforkEntry.metBy blockNumber timestamp)).getLast?).map HardforkEntry.name

/-! ## The last index -/

variable {α : Type} {p q : α → Bool} {l : List α} {i : ℕ}

theorem findLastIdx?_eq_none (h : findLastIdx? p l = none) : ∀ a ∈ l, p a = false := by
  intro a ha
  by_contra hp
  obtain ⟨i, hi⟩ := List.mem_iff_getElem?.1 ha
  obtain ⟨j, hj, -⟩ := findLastIdx?_ne_none hi (Bool.eq_true_of_not_eq_false hp)
  rw [h] at hj
  cases hj

theorem getLast?_filter_eq (p : α → Bool) (l : List α) :
    (l.filter p).getLast? = (findLastIdx? p l).bind fun i => l[i]? := by
  induction l with
  | nil => rfl
  | cons a l ih =>
    rw [findLastIdx?]
    cases hrest : findLastIdx? p l with
    | some i =>
      rw [hrest, Option.bind_some] at ih
      have hlt := findLastIdx?_lt hrest
      rw [List.getElem?_eq_getElem hlt] at ih
      dsimp only
      rw [Option.bind_some, List.getElem?_cons_succ, List.getElem?_eq_getElem hlt, List.filter_cons]
      split
      · rw [List.getLast?_cons, ih, Option.getD_some]
      · exact ih
    | none =>
      have hnil : l.filter p = [] :=
        List.filter_eq_nil_iff.2 fun a ha => by rw [findLastIdx?_eq_none hrest a ha]; decide
      rw [List.filter_cons, hnil]
      by_cases hp : p a = true
      · simp only [hp, if_true, List.getLast?_singleton, Option.bind_some, List.getElem?_cons_zero]
      · simp only [hp]
        rfl

theorem exists_of_findLastIdx? (h : findLastIdx? p l = some i) : ∃ a, l[i]? = some a ∧ p a = true := by
  have hlast := getLast?_filter_eq p l
  rw [h, Option.bind_some, List.getElem?_eq_getElem (findLastIdx?_lt h)] at hlast
  exact ⟨_, List.getElem?_eq_getElem (findLastIdx?_lt h),
    (List.mem_filter.1 (List.mem_of_getLast? hlast)).2⟩

theorem findLastIdx?_or (p q : α → Bool) (l : List α) :
    findLastIdx? (fun a => p a || q a) l = laterIndex (findLastIdx? p l) (findLastIdx? q l) := by
  induction l with
  | nil => rfl
  | cons a l ih =>
    simp only [findLastIdx?, ih]
    generalize findLastIdx? p l = i, findLastIdx? q l = j
    cases i with
    | none =>
      cases j with
      | none => by_cases hp : p a = true <;> by_cases hq : q a = true <;> simp [laterIndex, hp, hq]
      | some j => by_cases hp : p a = true <;> simp [laterIndex, hp]
    | some i =>
      cases j with
      | none => by_cases hq : q a = true <;> simp [laterIndex, hq]
      | some j => exact congrArg some (Nat.succ_max_succ i j).symm

theorem findLastIdx?_mono (hpq : ∀ a, p a = true → q a = true) (h : findLastIdx? p l = some i) :
    ∃ j, findLastIdx? q l = some j ∧ i ≤ j := by
  obtain ⟨a, ha, hp⟩ := exists_of_findLastIdx? h
  exact findLastIdx?_ne_none ha (hpq a hp)

/-! ## The lookup by block -/

variable {blockNumber timestamp : ℕ} {hardforks : List HardforkEntry} {hf : HardforkEntry}

namespace HardforkManager

variable {m : HardforkManager}

theorem index_le_of_getElem? {j : ℕ} {later : HardforkEntry} (hi : m.hardforks[i]? = some hf)
    (hj : m.hardforks[j]? = some later) : hf.name.index ≤ later.name.index ↔ i ≤ j := by
  obtain ⟨hilt, rfl⟩ := List.getElem?_eq_some_iff.1 hi
  obtain ⟨hjlt, rfl⟩ := List.getElem?_eq_some_iff.1 hj
  have hordered := List.pairwise_iff_getElem.1 m.ordered
  constructor
  · intro hle
    by_contra hlt
    exact absurd (hordered j i hjlt hilt (Nat.not_le.1 hlt)) (Nat.not_lt.2 hle)
  · intro hle
    rcases Nat.eq_or_lt_of_le hle with rfl | hlt
    · exact le_rfl
    · exact (hordered i j hilt hjlt hlt).le

theorem hardforkIndexByBlock_eq (m : HardforkManager) (blockNumber timestamp : ℕ) :
    m.hardforkIndexByBlock (some blockNumber) (some timestamp) =
      laterIndex (findLastIdx? (HardforkEntry.metBy blockNumber timestamp) m.hardforks)
        (m.defaultHardfork.bind fun defaultHardfork =>
          m.hardforks.findIdx? fun hf => hf.name = defaultHardfork) := by
  rw [hardforkIndexByBlock, Option.bind_some, Option.bind_some, ← findLastIdx?_or]
  rfl

theorem exists_findLastIdx? (hmem : hf ∈ hardforks)
    (hmet : hf.metBy blockNumber timestamp = true) :
    ∃ i, findLastIdx? (HardforkEntry.metBy blockNumber timestamp) hardforks = some i := by
  obtain ⟨i, hi⟩ := List.mem_iff_getElem?.1 hmem
  obtain ⟨j, hj, -⟩ := findLastIdx?_ne_none hi hmet
  exact ⟨j, hj⟩

/-- **The default hardfork is not later than what is met**: the last hardfork met is found. -/
theorem getHardforkByBlock_eq_lastMet (hmem : hf ∈ m.hardforks)
    (hmet : hf.metBy blockNumber timestamp = true)
    (hdefault : ∀ other ∈ m.hardforks, m.defaultHardfork = some other.name →
      ∃ met ∈ m.hardforks, met.metBy blockNumber timestamp = true ∧
        other.name.index ≤ met.name.index) :
    lastMet m.hardforks blockNumber timestamp =
      some (m.getHardforkByBlock (some blockNumber) (some timestamp)) := by
  obtain ⟨i, hi⟩ := exists_findLastIdx? hmem hmet
  have hlt := findLastIdx?_lt hi
  have hindex : m.hardforkIndexByBlock (some blockNumber) (some timestamp) = some i := by
    rw [hardforkIndexByBlock_eq, hi]
    cases hfloor : m.defaultHardfork.bind fun defaultHardfork =>
        m.hardforks.findIdx? fun hf => hf.name = defaultHardfork with
    | none => rfl
    | some j =>
      obtain ⟨name, hname, hj⟩ := Option.bind_eq_some_iff.1 hfloor
      obtain ⟨hjlt, heq, -⟩ := List.findIdx?_eq_some_iff_getElem.1 hj
      have hnamed : m.hardforks[j].name = name := of_decide_eq_true heq
      obtain ⟨met, hmem', hmet', hle⟩ :=
        hdefault _ (List.getElem_mem hjlt) (hname.trans (congrArg some hnamed.symm))
      obtain ⟨k, hk⟩ := List.mem_iff_getElem?.1 hmem'
      obtain ⟨i', hi', hki⟩ := findLastIdx?_ne_none hk hmet'
      rw [hi] at hi'
      cases hi'
      have hjk := (index_le_of_getElem? (List.getElem?_eq_getElem hjlt) hk).1 hle
      rw [laterIndex, max_eq_left (hjk.trans hki)]
  rw [lastMet, getLast?_filter_eq, hi, getHardforkByBlock, hindex]
  simp only [Option.bind_some, List.getElem?_eq_getElem hlt, Option.map_some]

theorem metBy_mono {blockNumber' timestamp' : ℕ} (hn : blockNumber ≤ blockNumber')
    (ht : timestamp ≤ timestamp') (hmet : hf.metBy blockNumber timestamp = true) :
    hf.metBy blockNumber' timestamp' = true := by
  simp only [HardforkEntry.metBy, Bool.or_eq_true, Option.any_eq_true, decide_eq_true_eq] at *
  rcases hmet with ⟨block, hblock, hle⟩ | ⟨time, htime, hle⟩
  · exact .inl ⟨block, hblock, hle.trans hn⟩
  · exact .inr ⟨time, htime, hle.trans ht⟩

theorem getHardforkByBlock_mono {blockNumber' timestamp' : ℕ} (hn : blockNumber ≤ blockNumber')
    (ht : timestamp ≤ timestamp') (hmem : hf ∈ m.hardforks)
    (hmet : hf.metBy blockNumber timestamp = true) :
    (m.getHardforkByBlock (some blockNumber) (some timestamp)).index ≤
      (m.getHardforkByBlock (some blockNumber') (some timestamp')).index := by
  obtain ⟨i, hi⟩ := exists_findLastIdx? hmem hmet
  obtain ⟨i', hi', hle⟩ := findLastIdx?_mono (fun a => metBy_mono hn ht) hi
  have hfloor : ∀ k ∈ m.defaultHardfork.bind fun defaultHardfork =>
      m.hardforks.findIdx? fun hf => hf.name = defaultHardfork, k < m.hardforks.length := by
    intro k hk
    obtain ⟨name, -, hk⟩ := Option.bind_eq_some_iff.1 hk
    exact (List.findIdx?_eq_some_iff_getElem.1 hk).1
  obtain ⟨j, hj, -, hjlt⟩ := laterIndex_some (findLastIdx?_lt hi) hfloor
  obtain ⟨j', hj', -, hjlt'⟩ := laterIndex_some (findLastIdx?_lt hi') hfloor
  have hjj : j ≤ j' := by
    revert hj hj'
    cases m.defaultHardfork.bind fun defaultHardfork =>
        m.hardforks.findIdx? fun hf => hf.name = defaultHardfork with
    | none =>
      rintro ⟨⟩ ⟨⟩
      exact hle
    | some k =>
      rintro ⟨⟩ ⟨⟩
      exact max_le_max hle le_rfl
  rw [getHardforkByBlock, getHardforkByBlock, hardforkIndexByBlock_eq, hardforkIndexByBlock_eq, hi,
    hi', hj, hj']
  simp only [Option.bind_some, List.getElem?_eq_getElem hjlt, List.getElem?_eq_getElem hjlt']
  exact (index_le_of_getElem? (List.getElem?_eq_getElem hjlt) (List.getElem?_eq_getElem hjlt')).2 hjj

end HardforkManager

/-! ## The lookup by what comes after -/

theorem skipTies_eq {hfs : List HardforkEntry} {b t : Option ℕ} (turns : ℕ)
    (hi : ∀ hf, hfs[i]? = some hf → hf.comesAfter b t = false)
    (hnext : ∀ hf, hfs[i + 1]? = some hf → hf.comesAfter b t = true) :
    skipTies hfs turns i = i := by
  cases turns with
  | zero => rfl
  | succ turns =>
    rw [skipTies]
    split
    · rename_i hf next hhf hn
      rw [if_pos]
      by_contra hsame
      rw [not_or, not_not, not_not] at hsame
      have hbefore := hi hf hhf
      have hafter := hnext next hn
      rw [HardforkEntry.comesAfter, ← hsame.1, ← hsame.2] at hafter
      exact Bool.false_ne_true (hbefore.symm.trans hafter)
    · rfl

theorem findIdx?_getD_length (p : α → Bool) (l : List α) :
    (l.findIdx? p).getD l.length = (l.takeWhile fun a => !p a).length := by
  induction l with
  | nil => rfl
  | cons a l ih =>
    rw [List.findIdx?_cons, List.takeWhile_cons]
    by_cases hp : p a = true
    · simp [hp]
    · rw [if_neg hp, if_pos (by simp [hp]), List.length_cons, List.length_cons, ← ih]
      cases l.findIdx? p with
      | none => rfl
      | some i => rfl

/-- **What `getHardforkBy` finds**, by number and by time: the last hardfork before the first
that comes after. -/
theorem getHardforkBy_eq_ok {name : Hardfork} :
    getHardforkBy hardforks (some blockNumber) (some timestamp) = .ok name ↔
      (((hardforks.filter HardforkEntry.isScheduled).takeWhile fun hf =>
        !hf.comesAfter (some blockNumber) (some timestamp)).getLast?).map HardforkEntry.name =
          some name := by
  rw [getHardforkBy]
  simp only [findIdx?_getD_length, reduceCtorEq, if_false]
  generalize hardforks.filter HardforkEntry.isScheduled = hfs
  generalize hbefore : hfs.takeWhile (fun hf =>
    !hf.comesAfter (some blockNumber) (some timestamp)) = before
  obtain ⟨after, hafter⟩ : ∃ after, hfs.dropWhile (fun hf =>
    !hf.comesAfter (some blockNumber) (some timestamp)) = after := ⟨_, rfl⟩
  have hsplit : hfs = before ++ after := by
    rw [← hbefore, ← hafter, List.takeWhile_append_dropWhile]
  rcases List.eq_nil_or_concat' before with rfl | ⟨init, last, rfl⟩
  · -- the first comes after, or there is none
    by_cases hnil : hfs = []
    · rw [if_neg (by simp [hnil]), hnil]
      simp
    · rw [if_pos ⟨rfl, hnil⟩]
      simp
  · have hlength : (init ++ [last]).length - 1 = init.length := by simp
    have hlast : hfs[init.length]? = some last := by
      rw [hsplit, List.append_assoc, List.getElem?_append_right le_rfl, Nat.sub_self]
      rfl
    have hties : skipTies hfs hfs.length init.length = init.length := by
      refine skipTies_eq (b := some blockNumber) (t := some timestamp) hfs.length ?_ ?_
      · intro hf hhf
        rw [hlast] at hhf
        cases hhf
        have hmem : last ∈ hfs.takeWhile fun hf =>
            !hf.comesAfter (some blockNumber) (some timestamp) :=
          hbefore ▸ List.mem_concat_self
        simpa using List.mem_takeWhile_imp hmem
      · intro hf hhf
        rw [hsplit, List.getElem?_append_right (by simp)] at hhf
        simp only [List.length_append, List.length_singleton, Nat.sub_self] at hhf
        cases after with
        | nil => cases hhf
        | cons next after =>
          cases hhf
          have hhead := List.head?_dropWhile_not
            (fun hf => !hf.comesAfter (some blockNumber) (some timestamp)) hfs
          rw [hafter] at hhead
          simpa using hhead
    rw [if_neg (by simp), hlength, hties, hlast, List.getLast?_concat]
    simp

theorem getHardforkBy_mono {m : HardforkManager} {blockNumber' timestamp' : ℕ}
    {name name' : Hardfork} (hn : blockNumber ≤ blockNumber') (ht : timestamp ≤ timestamp')
    (h : getHardforkBy m.hardforks (some blockNumber) (some timestamp) = .ok name)
    (h' : getHardforkBy m.hardforks (some blockNumber') (some timestamp') = .ok name') :
    name.index ≤ name'.index := by
  rw [getHardforkBy_eq_ok] at h h'
  have hordered : (m.hardforks.filter HardforkEntry.isScheduled).Pairwise
      fun hf later => hf.name.index < later.name.index := m.ordered.filter _
  generalize m.hardforks.filter HardforkEntry.isScheduled = hfs at *
  obtain ⟨last, hlast, rfl⟩ := Option.map_eq_some_iff.1 h
  obtain ⟨last', hlast', rfl⟩ := Option.map_eq_some_iff.1 h'
  have hpre : hfs.takeWhile (fun hf => !hf.comesAfter (some blockNumber) (some timestamp)) <+:
      hfs.takeWhile fun hf => !hf.comesAfter (some blockNumber') (some timestamp') := by
    have htwice := List.takeWhile_takeWhile
      (fun hf => !HardforkEntry.comesAfter (some blockNumber) (some timestamp) hf)
      (fun hf => !HardforkEntry.comesAfter (some blockNumber') (some timestamp') hf) hfs
    have hboth : ∀ hf : HardforkEntry, (!hf.comesAfter (some blockNumber) (some timestamp)) = true →
        (!hf.comesAfter (some blockNumber') (some timestamp')) = true := by
      intro hf hbefore
      simp only [Bool.not_eq_true', HardforkEntry.comesAfter, Option.any_some, Bool.or_eq_false_iff,
        Option.any_eq_false, decide_eq_false_iff_not] at hbefore ⊢
      exact ⟨fun block hblock hlt => hbefore.1 block hblock (hn.trans_lt hlt),
        fun time htime hlt => hbefore.2 time htime (ht.trans_lt hlt)⟩
    rw [show hfs.takeWhile (fun hf => !hf.comesAfter (some blockNumber) (some timestamp)) =
      (hfs.takeWhile fun hf => !hf.comesAfter (some blockNumber') (some timestamp')).takeWhile
        (fun hf => !hf.comesAfter (some blockNumber) (some timestamp)) from ?_]
    · exact List.takeWhile_prefix _
    · rw [htwice]
      refine congrArg (List.takeWhile · hfs) (funext fun hf => ?_)
      by_cases hp : (!hf.comesAfter (some blockNumber) (some timestamp)) = true
      · simp [hp, hboth hf hp]
      · simp [hp]
  obtain ⟨init, hinit⟩ := List.getLast?_eq_some_iff.1 hlast'
  have hmem := hpre.subset (List.mem_of_getLast? hlast)
  have hpairs := hordered.sublist (List.takeWhile_sublist
    (fun hf => !HardforkEntry.comesAfter (some blockNumber') (some timestamp') hf))
  rw [hinit] at hmem hpairs
  rcases List.mem_append.1 hmem with hmem | hmem
  · exact ((List.pairwise_append.1 hpairs).2.2 last hmem last' List.mem_cons_self).le
  · rw [List.mem_singleton.1 hmem]

/-! ## Agreement -/

theorem filter_eq_takeWhile (h : l.Pairwise fun a b => p b = true → p a = true)
    (hq : ∀ a ∈ l, q a = p a) : l.filter p = l.takeWhile q := by
  induction l with
  | nil => rfl
  | cons a l ih =>
    rw [List.pairwise_cons] at h
    rw [List.filter_cons, List.takeWhile_cons, hq a List.mem_cons_self]
    by_cases hp : p a = true
    · rw [if_pos hp, if_pos hp, ih h.2 fun b hb => hq b (List.mem_cons_of_mem a hb)]
    · rw [if_neg hp, if_neg hp, List.filter_eq_nil_iff]
      exact fun b hb hpb => hp (h.1 b hb hpb)

/-- **A time is not met before the blocks are.** -/
def BlocksMetFirst (hardforks : List HardforkEntry) (blockNumber timestamp : ℕ) : Prop :=
  (∃ hf ∈ hardforks, ∃ time, hf.timestamp = some time ∧ time.value ≤ timestamp) →
    ∀ hf ∈ hardforks, ∀ block, hf.block = some block → block ≤ blockNumber

theorem filter_metBy_eq (hshape : BlocksThenTimes hardforks)
    (hfirst : BlocksMetFirst hardforks blockNumber timestamp) :
    hardforks.filter (HardforkEntry.metBy blockNumber timestamp) =
      (hardforks.filter HardforkEntry.isScheduled).takeWhile fun hf =>
        !hf.comesAfter (some blockNumber) (some timestamp) := by
  obtain ⟨blocks, times, rfl, hblocks, htimes, hsorted, hsorted'⟩ := hshape
  have hscheduled : ∀ hf : HardforkEntry, hf.metBy blockNumber timestamp = true →
      hf.isScheduled = true := by
    intro hf hmet
    rcases hf with ⟨name, block, time, forkHash⟩
    cases block <;> cases time <;> simp_all [HardforkEntry.metBy, HardforkEntry.isScheduled]
  have hafter : ∀ hf ∈ (blocks ++ times).filter HardforkEntry.isScheduled,
      (!hf.comesAfter (some blockNumber) (some timestamp)) = hf.metBy blockNumber timestamp := by
    intro hf hmem
    obtain ⟨hmem, hsched⟩ := List.mem_filter.1 hmem
    rcases hf with ⟨name, block, time, forkHash⟩
    rcases List.mem_append.1 hmem with hmem | hmem
    · obtain rfl : time = none := hblocks _ hmem
      cases block with
      | none => cases hsched
      | some block => simp [HardforkEntry.comesAfter, HardforkEntry.metBy, ← decide_not]
    · obtain rfl : block = none := htimes _ hmem
      cases time with
      | none => cases hsched
      | some time => simp [HardforkEntry.comesAfter, HardforkEntry.metBy, ← decide_not]
  have hpairs : ((blocks ++ times).filter HardforkEntry.isScheduled).Pairwise fun hf later =>
      later.metBy blockNumber timestamp = true → hf.metBy blockNumber timestamp = true := by
    rw [List.pairwise_filterMap] at hsorted hsorted'
    rw [List.pairwise_filter, List.pairwise_append]
    refine ⟨?_, ?_, ?_⟩
    · refine List.Pairwise.imp_of_mem ?_ hsorted
      intro hf later hmem hmem' hle hsched hsched' hmet
      rcases hf with ⟨name, block, time, forkHash⟩
      rcases later with ⟨name', block', time', forkHash'⟩
      obtain rfl : time = none := hblocks _ hmem
      obtain rfl : time' = none := hblocks _ hmem'
      cases block with
      | none => cases hsched
      | some block =>
        cases block' with
        | none => cases hsched'
        | some block' =>
          have := hle block rfl block' rfl
          simp only [HardforkEntry.metBy, Option.any_some, Option.any_none, Bool.or_false,
            decide_eq_true_eq] at hmet ⊢
          omega
    · refine List.Pairwise.imp_of_mem ?_ hsorted'
      intro hf later hmem hmem' hle hsched hsched' hmet
      rcases hf with ⟨name, block, time, forkHash⟩
      rcases later with ⟨name', block', time', forkHash'⟩
      obtain rfl : block = none := htimes _ hmem
      obtain rfl : block' = none := htimes _ hmem'
      cases time with
      | none => cases hsched
      | some time =>
        cases time' with
        | none => cases hsched'
        | some time' =>
          have := hle time.value rfl time'.value rfl
          simp only [HardforkEntry.metBy, Option.any_some, Option.any_none, Bool.false_or,
            decide_eq_true_eq] at hmet ⊢
          omega
    · intro hf hmem later hmem' hsched hsched' hmet
      rcases hf with ⟨name, block, time, forkHash⟩
      rcases later with ⟨name', block', time', forkHash'⟩
      obtain rfl : time = none := hblocks _ hmem
      obtain rfl : block' = none := htimes _ hmem'
      cases block with
      | none => cases hsched
      | some block =>
        cases time' with
        | none => cases hsched'
        | some time' =>
          simp only [HardforkEntry.metBy, Option.any_some, Option.any_none, Bool.false_or,
            Bool.or_false, decide_eq_true_eq] at hmet ⊢
          exact hfirst ⟨_, List.mem_append_right _ hmem', time', rfl, hmet⟩ _
            (List.mem_append_left _ hmem) block rfl
  have hfilter : (blocks ++ times).filter (HardforkEntry.metBy blockNumber timestamp) =
      ((blocks ++ times).filter HardforkEntry.isScheduled).filter
        (HardforkEntry.metBy blockNumber timestamp) := by
    rw [List.filter_filter]
    refine List.filter_congr fun hf _ => ?_
    by_cases hmet : hf.metBy blockNumber timestamp = true
    · rw [hmet, hscheduled hf hmet, Bool.and_true]
    · rw [Bool.eq_false_iff.2 hmet, Bool.false_and]
  rw [hfilter, filter_eq_takeWhile hpairs hafter]

/-- **For every schedule**: where the blocks are met first and the default is not later than what
is met, the two lookups find the last hardfork met; and neither finds an earlier one for a later
block, the first where something is met, the second always. -/
theorem lookups_agree (m : HardforkManager) (hshape : BlocksThenTimes m.hardforks) :
    (∀ blockNumber timestamp,
      (∃ hf ∈ m.hardforks, hf.metBy blockNumber timestamp = true) →
      BlocksMetFirst m.hardforks blockNumber timestamp →
      (∀ other ∈ m.hardforks, m.defaultHardfork = some other.name →
        ∃ met ∈ m.hardforks, met.metBy blockNumber timestamp = true ∧
          other.name.index ≤ met.name.index) →
      ∃ name, lastMet m.hardforks blockNumber timestamp = some name ∧
        m.getHardforkByBlock (some blockNumber) (some timestamp) = name ∧
        getHardforkBy m.hardforks (some blockNumber) (some timestamp) = .ok name) ∧
    (∀ blockNumber timestamp blockNumber' timestamp', blockNumber ≤ blockNumber' →
      timestamp ≤ timestamp' →
      ((∃ hf ∈ m.hardforks, hf.metBy blockNumber timestamp = true) →
        (m.getHardforkByBlock (some blockNumber) (some timestamp)).index ≤
          (m.getHardforkByBlock (some blockNumber') (some timestamp')).index) ∧
      ∀ name name', getHardforkBy m.hardforks (some blockNumber) (some timestamp) = .ok name →
        getHardforkBy m.hardforks (some blockNumber') (some timestamp') = .ok name' →
        name.index ≤ name'.index) := by
  constructor
  · rintro blockNumber timestamp ⟨hf, hmem, hmet⟩ hfirst hdefault
    have hlast := HardforkManager.getHardforkByBlock_eq_lastMet hmem hmet hdefault
    refine ⟨_, hlast, rfl, ?_⟩
    rw [getHardforkBy_eq_ok, ← filter_metBy_eq hshape hfirst]
    exact hlast
  · intro blockNumber timestamp blockNumber' timestamp' hn ht
    constructor
    · rintro ⟨hf, hmem, hmet⟩
      exact HardforkManager.getHardforkByBlock_mono hn ht hmem hmet
    · intro name name' h h'
      exact getHardforkBy_mono hn ht h h'

/-- A chain that forks by number, then by time. -/
theorem lookups_agree_sample :
    getHardforkBy sampleManager.hardforks (some 20) (some 2500) =
      .ok (sampleManager.getHardforkByBlock (some 20) (some 2500)) := by
  have hshape : BlocksThenTimes sampleManager.hardforks := by
    refine ⟨sampleManager.hardforks.take 4, sampleManager.hardforks.drop 4, rfl, ?_, ?_, ?_, ?_⟩ <;>
      decide
  obtain ⟨name, -, rfl, hname⟩ := (lookups_agree sampleManager hshape).1 20 2500
    ⟨⟨.chainstart, some 0, none, none⟩, List.mem_cons_self, by decide⟩
    (fun _ => by decide) (fun other _ hdefault => by cases hdefault)
  exact hname

/-- **A time is met before a block**: at block 5 the first lookup finds Shanghai, and the second
one Berlin. And a default is a floor of the first. -/
theorem lookups_differ_sample :
    BlocksThenTimes sampleManager.hardforks ∧
    sampleManager.getHardforkByBlock (some 5) (some 1000) = .shanghai ∧
    getHardforkBy sampleManager.hardforks (some 5) (some 1000) = .ok .berlin ∧
    lastMet sampleManager.hardforks 5 1000 = some .shanghai ∧
    { sampleManager with defaultHardfork := some .paris }.getHardforkByBlock (some 5) (some 0) =
      .paris ∧
    getHardforkBy sampleManager.hardforks (some 5) (some 0) = .ok .berlin ∧
    lastMet sampleManager.hardforks 5 0 = some .berlin := by
  refine ⟨⟨sampleManager.hardforks.take 4, sampleManager.hardforks.drop 4, rfl, ?_, ?_, ?_, ?_⟩,
    ?_, ?_, ?_, ?_, ?_, ?_⟩ <;> decide +kernel

end ChainConfig

end TsEthereum
