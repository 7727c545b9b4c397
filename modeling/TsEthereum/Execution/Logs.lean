import TsEthereum.Common.Bytes
import TsEthereum.Common.Except
import TsEthereum.State.Account
import Mathlib.Data.List.Basic

/-!
# The logs of a range of blocks

`ReceiptsManager.getLogs`: block after block, the logs of the receipts with their places, filtered
by address and then by topic, until a limit is reached. The loop over the topics of a filter ends
each turn with `result = true`, so that what it has found out is lost, and a topic that a log does
not have is compared all the same, which throws.
-/

namespace TsEthereum

namespace Execution

/-- A `Log`. -/
structure Log where
  address : Bytes
  topics : List Bytes
  data : Bytes

/-- A receipt, as much of it as is read here. -/
structure TxReceipt where
  logs : List Log

/-- A block, as much of it as is read here. -/
structure LogBlock (Tx : Type) where
  hash : Bytes32
  transactions : List Tx

/-- An item of `GetLogsReturn`. -/
structure ReturnedLog (Tx : Type) where
  log : Log
  block : LogBlock Tx
  tx : Option Tx
  txIndex : ℕ
  logIndex : ℕ

/-- What is thrown. -/
inductive LogsError where
  /-- What `getBlock` throws. -/
  | notFound
  /-- What `equalsBytes` throws of `undefined`. -/
  | typeError

/-- A position of a filter: `null`, a topic, or a list of alternatives. -/
inductive TopicFilter where
  | any
  | topic (topic : Bytes)
  | alternatives (topics : List Bytes)
  deriving DecidableEq

/-- **What `getLogs` reads**: the chain, the receipts as they are decoded, and the size of
`JSON.stringify(logs)`. -/
structure ReceiptsManager (Tx : Type) where
  getBlock : ℕ → Except LogsError (LogBlock Tx)
  getReceipts : Bytes32 → List TxReceipt
  jsonSize : List (ReturnedLog Tx) → ℕ

def GET_LOGS_LIMIT : ℕ := 10000

/-- `GET_LOGS_LIMIT_MEGABYTES * 1048576`. -/
def GET_LOGS_LIMIT_BYTES : ℕ := 150 * 1048576

variable {Tx : Type}

/-! ## The filters -/

/-- `equalsBytes`, of what may be `undefined`. -/
def equalsBytes (a : Bytes) : Option Bytes → Except LogsError Bool
  | none => .error .typeError
  | some b => .ok (decide (a = b))

/-- `topic.find`: whether one of the alternatives is found. -/
def findTopic (logTopic : Option Bytes) : List Bytes → Except LogsError Bool
  | [] => .ok false
  | t :: ts => do
    if ← equalsBytes t logTopic then return true
    else findTopic logTopic ts

/-- What a turn of the loop finds out. -/
def turnResult (result : Bool) (logTopic : Option Bytes) : TopicFilter → Except LogsError Bool
  | .alternatives topics => do
    if ← findTopic logTopic topics then return result else return false
  | .any => .ok result
  | .topic topic => do
    if ← equalsBytes topic logTopic then return result else return false

/-- **The loop over the topics** of a filter, from a position on. -/
def topicLoop (log : Log) : ℕ → Bool → List TopicFilter → Except LogsError Bool
  | _, result, [] => .ok result
  | i, result, topic :: topics => do
    let _ ← turnResult result log.topics[i]? topic
    topicLoop log (i + 1) true topics

/-- `logs.filter`, by the topics. -/
def filterTopics (topics : List TopicFilter) :
    List (ReturnedLog Tx) → Except LogsError (List (ReturnedLog Tx))
  | [] => .ok []
  | l :: logs => do
    let keep ← topicLoop l.log 0 true topics
    let rest ← filterTopics topics logs
    return if keep then l :: rest else rest

/-- The address of a log is in the list, if there is one. -/
def acceptsAddress (addresses : Option (List Bytes)) (l : ReturnedLog Tx) : Bool :=
  match addresses with
  | some (a :: rest) => (a :: rest).any fun a => decide (a = l.log.address)
  | _ => true

/-! ## The range -/

/-- The logs of the receipts of a block, with a running index. -/
def collectLogs (block : LogBlock Tx) : ℕ → ℕ → List TxReceipt → List (ReturnedLog Tx)
  | _, _, [] => []
  | receiptIndex, logIndex, receipt :: receipts =>
    (receipt.logs.zipIdx logIndex).map
        (fun log => ⟨log.1, block, block.transactions[receiptIndex]?, receiptIndex, log.2⟩) ++
      collectLogs block (receiptIndex + 1) (logIndex + receipt.logs.length) receipts

namespace ReceiptsManager

variable (env : ReceiptsManager Tx)

/-- A block's logs, filtered. -/
def filteredLogs (addresses : Option (List Bytes)) (topics : List TopicFilter)
    (block : LogBlock Tx) (receipts : List TxReceipt) :
    Except LogsError (List (ReturnedLog Tx)) :=
  let logs := (collectLogs block 0 0 receipts).filter (acceptsAddress addresses)
  if topics = [] then .ok logs else filterTopics topics logs

/-- **The loop of `getLogs`**, of so many blocks that are left. -/
def getLogsLoop (addresses : Option (List Bytes)) (topics : List TopicFilter) :
    ℕ → ℕ → List (ReturnedLog Tx) → ℕ → Except LogsError (List (ReturnedLog Tx))
  | 0, _, returnedLogs, _ => .ok returnedLogs
  | left + 1, i, returnedLogs, returnedLogsSize => do
    let block ← env.getBlock i
    let receipts := env.getReceipts block.hash
    if receipts.isEmpty then getLogsLoop addresses topics left (i + 1) returnedLogs returnedLogsSize
    else
      let logs ← filteredLogs addresses topics block receipts
      let returnedLogs := returnedLogs ++ logs
      let returnedLogsSize := returnedLogsSize + env.jsonSize logs
      if GET_LOGS_LIMIT ≤ returnedLogs.length ∨ GET_LOGS_LIMIT_BYTES ≤ returnedLogsSize then
        return returnedLogs
      else getLogsLoop addresses topics left (i + 1) returnedLogs returnedLogsSize

/-- **`getLogs`**. -/
def getLogs (from_ to_ : ℕ) (addresses : Option (List Bytes)) (topics : List TopicFilter) :
    Except LogsError (List (ReturnedLog Tx)) :=
  env.getLogsLoop addresses topics (to_ + 1 - from_) from_ [] 0

end ReceiptsManager

/-! ## What is to be returned -/

/-- A position admits a topic of a log, or that it has none there. -/
def TopicFilter.Admits : TopicFilter → Option Bytes → Prop
  | .any, _ => True
  | .topic expected, logTopic => logTopic = some expected
  | .alternatives expected, logTopic => ∃ t ∈ expected, logTopic = some t

/-- **A log matches a filter** at every position. -/
def Matches (topics : List TopicFilter) (log : Log) : Prop :=
  ∀ (i : ℕ) (filter : TopicFilter), topics[i]? = some filter → filter.Admits log.topics[i]?

instance (filter : TopicFilter) (logTopic : Option Bytes) :
    Decidable (filter.Admits logTopic) :=
  match filter with
  | .any => isTrue trivial
  | .topic expected => inferInstanceAs (Decidable (logTopic = some expected))
  | .alternatives expected => inferInstanceAs (Decidable (∃ t ∈ expected, logTopic = some t))

theorem forall_zipIdx_iff_matches {topics : List TopicFilter} {log : Log} :
    (∀ position ∈ topics.zipIdx, position.1.Admits log.topics[position.2]?) ↔
      Matches topics log := by
  constructor
  · intro h i filter hget
    exact h (filter, i) (List.mem_zipIdx_iff_getElem?.2 hget)
  · intro h position hmem
    exact h position.2 position.1 (List.mem_zipIdx_iff_getElem?.1 hmem)

instance (topics : List TopicFilter) (log : Log) : Decidable (Matches topics log) :=
  decidable_of_iff _ forall_zipIdx_iff_matches

/-- The logs of a block, each with its transaction, and numbered through. -/
def blockLogs (block : LogBlock Tx) (receipts : List TxReceipt) : List (ReturnedLog Tx) :=
  (receipts.zipIdx.flatMap fun receipt => receipt.1.logs.map fun log => (log, receipt.2)).zipIdx.map
    fun log => ⟨log.1.1, block, block.transactions[log.1.2]?, log.1.2, log.2⟩

/-- A log is one of an address of the list, or the list is empty. -/
def OfAddress (addresses : Option (List Bytes)) (log : Log) : Prop :=
  addresses.getD [] = [] ∨ log.address ∈ addresses.getD []

instance (addresses : Option (List Bytes)) (log : Log) : Decidable (OfAddress addresses log) :=
  inferInstanceAs (Decidable (_ ∨ _))

section

variable (env : ReceiptsManager Tx) (addresses : Option (List Bytes)) (topics : List TopicFilter)
variable (blocks : ℕ → LogBlock Tx)

/-- The logs of a block that a filter is for. -/
def expectedOf (i : ℕ) : List (ReturnedLog Tx) :=
  (blockLogs (blocks i) (env.getReceipts (blocks i).hash)).filter fun l =>
    OfAddress addresses l.log ∧ Matches topics l.log

/-- **The logs that a filter is for**, of so many blocks from one on. -/
def expectedLogs (i left : ℕ) : List (ReturnedLog Tx) :=
  (List.range' i left).flatMap (expectedOf env addresses topics blocks)

/-- What a block adds to the size. -/
def expectedSizeOf (i : ℕ) : ℕ :=
  if env.getReceipts (blocks i).hash = [] then 0
  else env.jsonSize (expectedOf env addresses topics blocks i)

/-- Their size. -/
def expectedSize (i left : ℕ) : ℕ :=
  ((List.range' i left).map (expectedSizeOf env addresses topics blocks)).sum

/-- **Every log that the addresses let through matches the topics**, in a range. -/
def AllMatch (i left : ℕ) : Prop :=
  ∀ j, i ≤ j → j < i + left → ∀ l ∈ blockLogs (blocks j) (env.getReceipts (blocks j).hash),
    OfAddress addresses l.log → Matches topics l.log

end

/-! ## The filters come to nothing -/

section

variable {log : Log} {topics : List TopicFilter} {addresses : Option (List Bytes)}
variable {logs filtered : List (ReturnedLog Tx)} {block : LogBlock Tx} {receipts : List TxReceipt}

theorem findTopic_of_mem {t : Bytes} {ts : List Bytes} (h : t ∈ ts) :
    findTopic (some t) ts = .ok true := by
  induction ts with
  | nil => cases h
  | cons t' ts ih =>
    rw [findTopic, equalsBytes]
    by_cases heq : t' = t
    · rw [decide_eq_true heq]
      rfl
    · rw [decide_eq_false heq]
      exact ih ((List.mem_cons.1 h).resolve_left fun hmem => heq hmem.symm)

theorem turnResult_of_admits {filter : TopicFilter} {logTopic : Option Bytes}
    (h : filter.Admits logTopic) (result : Bool) : turnResult result logTopic filter = .ok result := by
  cases filter with
  | any => rfl
  | topic expected =>
    rw [TopicFilter.Admits] at h
    rw [turnResult, h, equalsBytes, decide_eq_true rfl]
    rfl
  | alternatives expected =>
    obtain ⟨t, hmem, heq⟩ := h
    rw [turnResult, heq, findTopic_of_mem hmem]
    rfl

theorem topicLoop_of_matches (log : Log) (i : ℕ) (result : Bool)
    (h : ∀ (j : ℕ) (filter : TopicFilter), topics[j]? = some filter →
      filter.Admits log.topics[i + j]?) :
    ∃ result', topicLoop log i result topics = .ok result' := by
  induction topics generalizing i result with
  | nil => exact ⟨result, rfl⟩
  | cons topic topics ih =>
    have hturn := turnResult_of_admits (h 0 topic rfl) result
    obtain ⟨result', hloop⟩ := ih (i + 1) true fun j filter hj => by
      have hadmits := h (j + 1) filter hj
      rwa [show i + (j + 1) = i + 1 + j by omega] at hadmits
    refine ⟨result', ?_⟩
    rw [topicLoop, show i = i + 0 from rfl, hturn]
    exact hloop

theorem topicLoop_eq_true {i : ℕ} {result result' : Bool} (hresult : topics = [] → result = true)
    (h : topicLoop log i result topics = .ok result') : result' = true := by
  induction topics generalizing i result with
  | nil =>
    obtain rfl := Except.ok.inj h
    exact hresult rfl
  | cons topic topics ih =>
    rw [topicLoop] at h
    obtain ⟨-, -, h⟩ := bind_eq_ok.1 h
    exact ih (fun _ => rfl) h

theorem filterTopics_eq (h : filterTopics topics logs = .ok filtered) : filtered = logs := by
  induction logs generalizing filtered with
  | nil => exact (Except.ok.inj h).symm
  | cons l logs ih =>
    rw [filterTopics] at h
    obtain ⟨keep, hkeep, h⟩ := bind_eq_ok.1 h
    obtain ⟨rest, hrest, h⟩ := bind_eq_ok.1 h
    obtain rfl := topicLoop_eq_true (fun _ => rfl) hkeep
    obtain rfl := Except.ok.inj h
    rw [ih hrest]
    rfl

theorem filterTopics_of_matches (h : ∀ l ∈ logs, Matches topics l.log) :
    filterTopics topics logs = .ok logs := by
  induction logs with
  | nil => rfl
  | cons l logs ih =>
    obtain ⟨keep, hkeep⟩ := topicLoop_of_matches l.log 0 true fun j filter hj => by
      rw [Nat.zero_add]
      exact h l List.mem_cons_self j filter hj
    obtain rfl := topicLoop_eq_true (fun _ => rfl) hkeep
    rw [filterTopics, hkeep, ok_bind, ih (List.forall_mem_cons.1 h).2]
    rfl

theorem collectLogs_eq (block : LogBlock Tx) (receipts : List TxReceipt) :
    collectLogs block 0 0 receipts = blockLogs block receipts := by
  have hall (k n : ℕ) : collectLogs block k n receipts =
      (((receipts.zipIdx k).flatMap fun receipt =>
        receipt.1.logs.map fun log => (log, receipt.2)).zipIdx n).map
          fun log => ⟨log.1.1, block, block.transactions[log.1.2]?, log.1.2, log.2⟩ := by
    induction receipts generalizing k n with
    | nil => rfl
    | cons receipt receipts ih =>
      rw [collectLogs, ih, List.zipIdx_cons, List.flatMap_cons, List.zipIdx_append, List.map_append,
        List.length_map, List.zipIdx_map, List.map_map]
      rfl
  exact hall 0 0

theorem acceptsAddress_iff {l : ReturnedLog Tx} :
    acceptsAddress addresses l = true ↔ OfAddress addresses l.log := by
  rw [OfAddress]
  cases addresses with
  | none => simp [acceptsAddress]
  | some list =>
    cases list with
    | nil => simp [acceptsAddress]
    | cons a rest =>
      simp only [acceptsAddress, List.any_eq_true, decide_eq_true_eq, Option.getD_some,
        reduceCtorEq, false_or]
      exact ⟨fun ⟨_, hmem, heq⟩ => heq ▸ hmem, fun hmem => ⟨_, hmem, rfl⟩⟩

theorem filteredLogs_eq
    (h : ReceiptsManager.filteredLogs addresses topics block receipts = .ok filtered) :
    filtered = (blockLogs block receipts).filter (acceptsAddress addresses) := by
  rw [ReceiptsManager.filteredLogs, collectLogs_eq] at h
  split at h
  · exact (Except.ok.inj h).symm
  · exact filterTopics_eq h

theorem filteredLogs_of_matches
    (h : ∀ l ∈ blockLogs block receipts, OfAddress addresses l.log → Matches topics l.log) :
    ReceiptsManager.filteredLogs addresses topics block receipts =
      .ok ((blockLogs block receipts).filter (acceptsAddress addresses)) := by
  rw [ReceiptsManager.filteredLogs, collectLogs_eq]
  split
  · rfl
  · refine filterTopics_of_matches fun l hmem => ?_
    obtain ⟨hmem, haccepts⟩ := List.mem_filter.1 hmem
    exact h l hmem (acceptsAddress_iff.1 haccepts)

end

/-! ## The range -/

section

variable {env : ReceiptsManager Tx} {addresses : Option (List Bytes)} {topics : List TopicFilter}
variable {blocks : ℕ → LogBlock Tx} {i left size : ℕ} {returned result : List (ReturnedLog Tx)}

/-- A block whose logs all match is one whose logs of the addresses are expected. -/
theorem expectedOf_eq (h : ∀ l ∈ blockLogs (blocks i) (env.getReceipts (blocks i).hash),
      OfAddress addresses l.log → Matches topics l.log) :
    expectedOf env addresses topics blocks i =
      (blockLogs (blocks i) (env.getReceipts (blocks i).hash)).filter
        (acceptsAddress addresses) := by
  rw [expectedOf]
  refine List.filter_congr fun l hmem => ?_
  rw [Bool.eq_iff_iff, decide_eq_true_iff, acceptsAddress_iff]
  exact ⟨fun hand => hand.1, fun haddress => ⟨haddress, h l hmem haddress⟩⟩

theorem expectedOf_eq_nil (h : env.getReceipts (blocks i).hash = []) :
    expectedOf env addresses topics blocks i = [] := by
  rw [expectedOf, h]
  rfl

theorem expectedLogs_succ (i left : ℕ) : expectedLogs env addresses topics blocks i (left + 1) =
    expectedOf env addresses topics blocks i ++
      expectedLogs env addresses topics blocks (i + 1) left := by
  rw [expectedLogs, List.range'_succ, List.flatMap_cons, expectedLogs]

theorem expectedSize_succ (i left : ℕ) : expectedSize env addresses topics blocks i (left + 1) =
    expectedSizeOf env addresses topics blocks i +
      expectedSize env addresses topics blocks (i + 1) left := by
  rw [expectedSize, List.range'_succ, List.map_cons, List.sum_cons, expectedSize]

theorem prefix_of_getLogsLoop
    (h : env.getLogsLoop addresses topics left i returned size = .ok result) :
    returned <+: result := by
  induction left generalizing i returned size with
  | zero =>
    obtain rfl := Except.ok.inj h
    exact List.prefix_rfl
  | succ left ih =>
    rw [ReceiptsManager.getLogsLoop] at h
    obtain ⟨block, -, h⟩ := bind_eq_ok.1 h
    dsimp only at h
    split at h
    · exact ih h
    · obtain ⟨logs, -, h⟩ := bind_eq_ok.1 h
      split at h
      · obtain rfl := Except.ok.inj h
        exact List.prefix_append _ _
      · exact (List.prefix_append _ _).trans (ih h)

theorem getLogsLoop_of_allMatch (returned : List (ReturnedLog Tx)) (size : ℕ)
    (hstored : ∀ j, i ≤ j → j < i + left → env.getBlock j = .ok (blocks j))
    (hcount : returned.length + (expectedLogs env addresses topics blocks i left).length <
      GET_LOGS_LIMIT)
    (hsize : size + expectedSize env addresses topics blocks i left < GET_LOGS_LIMIT_BYTES)
    (hmatch : AllMatch env addresses topics blocks i left) :
    env.getLogsLoop addresses topics left i returned size =
      .ok (returned ++ expectedLogs env addresses topics blocks i left) := by
  induction left generalizing i returned size with
  | zero =>
    rw [ReceiptsManager.getLogsLoop, expectedLogs]
    simp
  | succ left ih =>
    rw [expectedLogs_succ] at hcount ⊢
    rw [expectedSize_succ] at hsize
    rw [List.length_append] at hcount
    have hstored' : ∀ j, i + 1 ≤ j → j < i + 1 + left → env.getBlock j = .ok (blocks j) :=
      fun j hle hlt => hstored j (by omega) (by omega)
    have hmatch' : AllMatch env addresses topics blocks (i + 1) left :=
      fun j hle hlt => hmatch j (by omega) (by omega)
    have hhere := hmatch i le_rfl (by omega)
    rw [ReceiptsManager.getLogsLoop, hstored i le_rfl (by omega), ok_bind]
    dsimp only
    by_cases hnone : env.getReceipts (blocks i).hash = []
    · rw [expectedSizeOf, if_pos hnone] at hsize
      rw [expectedOf_eq_nil hnone] at hcount ⊢
      rw [hnone]
      exact ih returned size hstored' (by simpa using hcount) (by simpa using hsize) hmatch'
    · have hempty : (env.getReceipts (blocks i).hash).isEmpty = false := by
        rwa [List.isEmpty_eq_false_iff]
      rw [expectedSizeOf, if_neg hnone] at hsize
      rw [hempty, filteredLogs_of_matches hhere, ← expectedOf_eq hhere]
      simp only [Bool.false_eq_true, if_false, ok_bind]
      rw [if_neg, ih _ _ hstored' (by rw [List.length_append]; omega) (by omega) hmatch',
        List.append_assoc]
      rw [List.length_append]
      omega

theorem exists_not_matches
    (hstored : ∀ j, i ≤ j → j < i + left → env.getBlock j = .ok (blocks j))
    (hcount : returned.length + (expectedLogs env addresses topics blocks i left).length <
      GET_LOGS_LIMIT)
    (hsize : size + expectedSize env addresses topics blocks i left < GET_LOGS_LIMIT_BYTES)
    (hmatch : ¬ AllMatch env addresses topics blocks i left)
    (hresult : env.getLogsLoop addresses topics left i returned size = .ok result) :
    ∃ l ∈ result, ¬ Matches topics l.log := by
  induction left generalizing i returned size with
  | zero => exact absurd (fun j hle hlt => by omega) hmatch
  | succ left ih =>
    rw [expectedLogs_succ] at hcount
    rw [expectedSize_succ] at hsize
    rw [List.length_append] at hcount
    have hstored' : ∀ j, i + 1 ≤ j → j < i + 1 + left → env.getBlock j = .ok (blocks j) :=
      fun j hle hlt => hstored j (by omega) (by omega)
    rw [ReceiptsManager.getLogsLoop, hstored i le_rfl (by omega), ok_bind] at hresult
    dsimp only at hresult
    by_cases hhere : ∀ l ∈ blockLogs (blocks i) (env.getReceipts (blocks i).hash),
        OfAddress addresses l.log → Matches topics l.log
    · -- the block is returned as it is to be, and no limit is reached at it
      have hmatch' : ¬ AllMatch env addresses topics blocks (i + 1) left := by
        intro hrest
        refine hmatch fun j hle hlt => ?_
        rcases hle.eq_or_lt with rfl | hlt'
        · exact hhere
        · exact hrest j (by omega) (by omega)
      by_cases hnone : env.getReceipts (blocks i).hash = []
      · rw [expectedSizeOf, if_pos hnone] at hsize
        rw [expectedOf_eq_nil hnone] at hcount
        rw [hnone] at hresult
        exact ih hstored' (by simpa using hcount) (by simpa using hsize) hmatch' hresult
      · have hempty : (env.getReceipts (blocks i).hash).isEmpty = false := by
          rwa [List.isEmpty_eq_false_iff]
        rw [expectedSizeOf, if_neg hnone] at hsize
        rw [hempty, filteredLogs_of_matches hhere, ← expectedOf_eq hhere] at hresult
        simp only [Bool.false_eq_true, if_false, ok_bind] at hresult
        rw [if_neg (by rw [List.length_append]; omega)] at hresult
        exact ih hstored' (by rw [List.length_append]; omega) (by omega) hmatch' hresult
    · push Not at hhere
      obtain ⟨l, hmem, haddress, hnot⟩ := hhere
      have hempty : (env.getReceipts (blocks i).hash).isEmpty = false := by
        rw [List.isEmpty_eq_false_iff]
        intro hnil
        rw [hnil] at hmem
        cases hmem
      rw [hempty] at hresult
      simp only [Bool.false_eq_true, if_false] at hresult
      obtain ⟨logs, hlogs, hresult⟩ := bind_eq_ok.1 hresult
      have hin : l ∈ returned ++ logs := by
        rw [filteredLogs_eq hlogs]
        exact List.mem_append_right _ (List.mem_filter.2 ⟨hmem, acceptsAddress_iff.2 haddress⟩)
      refine ⟨l, ?_, hnot⟩
      split at hresult
      · obtain rfl := Except.ok.inj hresult
        exact hin
      · exact (prefix_of_getLogsLoop hresult).subset hin

/-- **`getLogs` returns the logs that its filter is for**, where no limit is reached, if and only
if the topics of the filter leave out none of the logs that its addresses let through. -/
theorem getLogs_eq_iff (env : ReceiptsManager Tx) (blocks : ℕ → LogBlock Tx) (from_ to_ : ℕ)
    (addresses : Option (List Bytes)) (topics : List TopicFilter)
    (hstored : ∀ j, from_ ≤ j → j ≤ to_ → env.getBlock j = .ok (blocks j))
    (hcount : (expectedLogs env addresses topics blocks from_ (to_ + 1 - from_)).length <
      GET_LOGS_LIMIT)
    (hsize : expectedSize env addresses topics blocks from_ (to_ + 1 - from_) <
      GET_LOGS_LIMIT_BYTES) :
    env.getLogs from_ to_ addresses topics =
        .ok (expectedLogs env addresses topics blocks from_ (to_ + 1 - from_)) ↔
      AllMatch env addresses topics blocks from_ (to_ + 1 - from_) := by
  have hstored' : ∀ j, from_ ≤ j → j < from_ + (to_ + 1 - from_) →
      env.getBlock j = .ok (blocks j) := fun j hle hlt => hstored j hle (by omega)
  rw [ReceiptsManager.getLogs]
  constructor
  · intro hresult
    by_contra hmatch
    obtain ⟨l, hmem, hnot⟩ := exists_not_matches hstored' (by simpa using hcount)
      (by simpa using hsize) hmatch hresult
    obtain ⟨i, -, hmem⟩ := List.mem_flatMap.1 hmem
    rw [expectedOf, List.mem_filter] at hmem
    exact hnot (of_decide_eq_true hmem.2).2
  · intro hmatch
    have hloop := getLogsLoop_of_allMatch [] 0 hstored' (by simpa using hcount)
      (by simpa using hsize) hmatch
    rwa [List.nil_append] at hloop

end

/-! ## A chain with one log -/

/-- A log with one topic. -/
def sampleLog : Log := ⟨[1], [[2]], []⟩

/-- One block, with one log. -/
def sampleReceipts : ReceiptsManager Unit where
  getBlock _ := .ok ⟨KECCAK256_NULL, [()]⟩
  getReceipts _ := [⟨[sampleLog]⟩]
  jsonSize := List.length

/-- A topic that the log has. -/
theorem getLogs_eq_iff_sampleReceipts :
    sampleReceipts.getLogs 7 7 none [.topic [2]] =
      .ok (expectedLogs sampleReceipts none [.topic [2]] (fun _ => ⟨KECCAK256_NULL, [()]⟩) 7 1) := by
  refine (getLogs_eq_iff sampleReceipts (fun _ => ⟨KECCAK256_NULL, [()]⟩) 7 7 none _
    (fun _ _ _ => rfl) (by decide) (by decide)).2 fun j _ _ => ?_
  change ∀ l ∈ blockLogs ⟨KECCAK256_NULL, [()]⟩ [⟨[sampleLog]⟩],
    OfAddress none l.log → Matches [.topic [2]] l.log
  decide

/-- **A log of another topic is returned**, and a filter that is longer than the topics of a log
throws. -/
theorem getLogs_not_expected_sampleReceipts :
    (sampleReceipts.getLogs 7 7 none [.topic [3]]).map List.length = .ok 1 ∧
      expectedLogs sampleReceipts none [.topic [3]] (fun _ => ⟨KECCAK256_NULL, [()]⟩) 7 1 = [] ∧
      sampleReceipts.getLogs 7 7 none [.any, .topic [3]] = .error .typeError :=
  ⟨rfl, by decide, rfl⟩

end Execution

end TsEthereum
