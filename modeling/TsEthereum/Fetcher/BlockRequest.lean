import TsEthereum.Block.RoundTrip

/-!
# Requests for blocks

`BlockFetcher.request` (`blockfetcher.ts`): headers, and then their bodies, fifty at a time. What a
peer leaves out of a batch is not asked for again; the next batch's bodies move up, and every body is
put to the header at its position. Withdrawals are not read. So an honest reply is accepted when each
body comes out at its own header and no block has withdrawals (`request_accepted_iff`).
-/

namespace TsEthereum

namespace Sync

namespace BlockFetcher

open TsEthereum.ChainConfig TsEthereum.Block

/-! ## The data of a block -/

/-- What is asked of transactions, and the roots of the tries. -/
structure DataChecks where
  getTransactionsValidationErrors : FrozenBlock → List String
  isSigned : Tx.TxData → Bool
  genTransactionsTrieRoot : List Tx.TxData → Bytes
  genWithdrawalsTrieRoot : List Withdrawal → Bytes

/-- What `validateData` throws. -/
inductive DataError where
  | transactions (txErrors : List String)
  | unsigned
  | transactionTrie
  | uncleHash
  | withdrawalsTrie
  deriving DecidableEq

section

variable (keccak256 : Bytes → Bytes32) (m : HardforkManager) (env : DataChecks)

def transactionsTrieIsValid (block : FrozenBlock) : Bool :=
  if block.transactions = [] then decide (block.header.transactionsTrie.1 = KECCAK256_RLP.1)
  else decide (env.genTransactionsTrieRoot block.transactions = block.header.transactionsTrie.1)

def uncleHashIsValid (block : FrozenBlock) : Bool :=
  if block.uncleHeaders = [] then decide (KECCAK256_RLP_ARRAY.1 = block.header.uncleHash.1)
  else
    let raw := Rlp.encode (.list (block.uncleHeaders.map fun uh => bytesValue (uh.toRaw m)))
    decide ((keccak256 raw).1 = block.header.uncleHash.1)

def withdrawalsTrieIsValid (block : FrozenBlock) : Bool :=
  let withdrawals := block.withdrawals.getD []
  let root := if withdrawals = [] then KECCAK256_RLP.1 else env.genWithdrawalsTrieRoot withdrawals
  decide (block.header.withdrawalsRoot.map Subtype.val = some root)

/-- **`validateData`**, not only of the header and without the size. -/
def validateData (block : FrozenBlock) : Except DataError Unit :=
  if env.getTransactionsValidationErrors block ≠ [] then
    .error (.transactions (env.getTransactionsValidationErrors block))
  else if block.transactions.any (fun tx => !env.isSigned tx) then .error .unsigned
  else if transactionsTrieIsValid env block = false then .error .transactionTrie
  else if uncleHashIsValid keccak256 m block = false then .error .uncleHash
  else if block.header.isEIPActive m 4895 = true ∧ withdrawalsTrieIsValid env block = false then
    .error .withdrawalsTrie
  else .ok ()

end

/-! ## The request -/

/-- A body as it comes over the wire. -/
structure BlockBody where
  txsData : List NestedUint8Array
  unclesData : List (List Bytes)
  withdrawalsData : Option (List WithdrawalBytes)

/-- **A peer**: what it answers to a request for headers, and to each request for bodies. -/
structure Peer where
  getBlockHeaders : (block : ℤ) → (max : ℕ) → (reverse : Bool) → List ValidatedHeader
  getBlockBodies : (request : ℕ) → (hashes : List Bytes32) → List BlockBody

structure JobTask where
  first : ℤ
  count : ℕ

/-- What `request` throws. -/
inductive RequestError where
  | block (error : BlockError)
  | data (error : DataError)
  | typeError

def BATCH_SIZE : ℕ := 50

/-- The headers of a batch. -/
def batch {α : Type} (i : ℕ) (headers : List α) : List α :=
  (headers.drop (BATCH_SIZE * i)).take BATCH_SIZE

/-- The number of batches. -/
def batches (length : ℕ) : ℕ := (length + (BATCH_SIZE - 1)) / BATCH_SIZE

/-- The loop over so many batches, from one on: it ends when there are no bodies. -/
def allBodies (reply : ℕ → List BlockBody) : ℕ → ℕ → List BlockBody
  | 0, _ => []
  | turns + 1, i => if reply i = [] then [] else reply i ++ allBodies reply turns (i + 1)

/-- The block so far from another, in the direction of the fetcher. -/
def further (reverse : Bool) (first : ℤ) (length : ℕ) : ℤ :=
  if reverse then first - length else first + length

section

variable (keccak256 : Bytes → Bytes32) (m : HardforkManager) (env : DataChecks)

/-- The options of a block from the wire. -/
def blockOptions : CreateHeaderOptions := ⟨m, none, false⟩

/-- The loop over the bodies: nothing at all when a body lacks what its header has. -/
def readBlocks : List ValidatedHeader → List BlockBody →
    Except RequestError (Option (List FrozenBlock))
  | _, [] => .ok (some [])
  | [], _ :: _ => .error .typeError
  | header :: headers, body :: bodies =>
    if (header.transactionsTrie.1 ≠ KECCAK256_RLP.1 ∧ body.txsData = []) ∨
        (header.uncleHash.1 ≠ KECCAK256_RLP_ARRAY.1 ∧ body.unclesData = []) then .ok none
    else do
      let block ← (FrozenBlock.fromBytesArray keccak256
        ⟨header.toRaw m, body.txsData, body.unclesData, []⟩ (blockOptions m)).mapError .block
      (validateData keccak256 m env block).mapError .data
      (readBlocks headers bodies).map fun blocks => blocks.map (block :: ·)

/-- The bodies that come for headers. -/
def receivedBodies (peer : Peer) (headers : List ValidatedHeader) : List BlockBody :=
  allBodies (fun i => peer.getBlockBodies i
    ((batch i headers).map (ValidatedHeader.computeHash keccak256 m))) (batches headers.length) 0

/-- **`request`**, of a job with a partial result of some length. -/
def request (reverse : Bool) (peer : Peer) (task : JobTask) (partialLength : ℕ) :
    Except RequestError (List FrozenBlock) :=
  let headers := peer.getBlockHeaders (further reverse task.first partialLength)
    (task.count - partialLength) reverse
  if headers = [] then .ok []
  else
    let bodies := receivedBodies keccak256 m peer headers
    if bodies = [] then .ok []
    else (readBlocks keccak256 m env headers bodies).map fun blocks => blocks.getD []

/-- **`process`**: a partial result, or the result. -/
def process (count : ℕ) (partialResult result : List FrozenBlock) :
    Option (List FrozenBlock) × Option (List FrozenBlock) :=
  let result := partialResult ++ result
  if result.length = count then (none, some result)
  else if 0 < result.length ∧ result.length < count then (some result, none)
  else (none, none)

/-- **A job that is requested from one peer after the other**, until it is done. -/
def fetchJob (reverse : Bool) (task : JobTask) : List Peer → List FrozenBlock →
    Except RequestError (Option (List FrozenBlock))
  | [], _ => .ok none
  | peer :: peers, partialResult =>
    match request keccak256 m env reverse peer task partialResult.length with
    | .error e => .error e
    | .ok result =>
      match process task.count partialResult result with
      | (_, some blocks) => .ok (some blocks)
      | (partialResult, none) => fetchJob reverse task peers (partialResult.getD [])

end

/-! ## Honest peers -/

/-- The blocks of a range. -/
def blocksFrom (chain : ℤ → FrozenBlock) (reverse : Bool) (first : ℤ) (count : ℕ) :
    List FrozenBlock :=
  (List.range count).map fun i => chain (further reverse first i)

/-- The blocks that are requested after some of a job's. -/
def requested (chain : ℤ → FrozenBlock) (reverse : Bool) (task : JobTask) (partialLength : ℕ) :
    List FrozenBlock :=
  blocksFrom chain reverse (further reverse task.first partialLength) (task.count - partialLength)

/-- **A block's body**, as eth sends it. -/
structure WireBody (m : HardforkManager) (block : FrozenBlock) (body : BlockBody) : Prop where
  txsData : block.transactions.mapM bodyData = .ok body.txsData
  unclesData : body.unclesData = block.uncleHeaders.map (ValidatedHeader.toRaw m)
  withdrawalsData : body.withdrawalsData =
    block.withdrawals.map fun withdrawals => withdrawals.map Withdrawal.raw

section

variable (keccak256 : Bytes → Bytes32) (m : HardforkManager) (env : DataChecks)

/-- **A valid block**, that its encoding reads back, with valid data. -/
structure Intact (block : FrozenBlock) : Prop where
  valid : block.Valid keccak256 m true
  signatures : ∀ tx ∈ block.transactions, tx.ValidSignature
  readable : block.Readable (blockOptions m)
  size : ∀ serialized, block.serialize m = .ok serialized → serialized.length < arrayBound
  data : validateData keccak256 m env block = .ok ()

/-- **An honest peer**: a prefix of what was asked for, that is not empty. -/
structure Honest (chain : ℤ → FrozenBlock) (peer : Peer) : Prop where
  headers : ∀ block max reverse, 0 < max → ∃ n, 0 < n ∧ n ≤ max ∧
    peer.getBlockHeaders block max reverse =
      ((blocksFrom chain reverse block max).take n).map FrozenBlock.header
  bodies : ∀ i blocks, blocks ≠ [] → (∀ block ∈ blocks, ∃ number, chain number = block) →
    ∃ n, 0 < n ∧ List.Forall₂ (WireBody m) (blocks.take n)
      (peer.getBlockBodies i (blocks.map (FrozenBlock.getHash keccak256 m)))

/-- The bodies that come for a job. -/
def received (reverse : Bool) (task : JobTask) (peer : Peer) (partialLength : ℕ) :
    List BlockBody :=
  receivedBodies keccak256 m peer (peer.getBlockHeaders
    (further reverse task.first partialLength) (task.count - partialLength) reverse)

/-- **A body is that of the block**, and the block has no withdrawals. -/
structure Paired (block : FrozenBlock) (body : BlockBody) : Prop where
  inactive : block.header.isEIPActive m 4895 = false
  txsData : block.transactions.mapM bodyData = .ok body.txsData
  unclesData : body.unclesData = block.uncleHeaders.map (ValidatedHeader.toRaw m)

/-- **Every body comes out at its own header.** -/
def Aligned (chain : ℤ → FrozenBlock) (reverse : Bool) (task : JobTask) (peer : Peer)
    (partialLength : ℕ) : Prop :=
  List.Forall₂ (Paired m)
    ((requested chain reverse task partialLength).take
      (received keccak256 m reverse task peer partialLength).length)
    (received keccak256 m reverse task peer partialLength)

/-- The same, from one peer after the other, until the job is done. -/
def AlignedRun (chain : ℤ → FrozenBlock) (reverse : Bool) (task : JobTask) :
    List Peer → ℕ → Prop
  | [], _ => True
  | peer :: peers, length => length < task.count →
    Aligned keccak256 m chain reverse task peer length ∧
      AlignedRun chain reverse task peers
        (length + (received keccak256 m reverse task peer length).length)

end

/-- **What is returned are the first of the requested blocks.** -/
def Accepted (chain : ℤ → FrozenBlock) (reverse : Bool) (task : JobTask) (partialLength : ℕ)
    (result : Except RequestError (List FrozenBlock)) : Prop :=
  ∃ blocks, result = .ok blocks ∧ blocks ≠ [] ∧ blocks <+: requested chain reverse task partialLength

/-! ## Reading a block -/

variable {keccak256 : Bytes → Bytes32} {m : HardforkManager} {env : DataChecks}
variable {block : FrozenBlock} {body : BlockBody} {blocks : List FrozenBlock}
  {bodies : List BlockBody} {headers : List ValidatedHeader}

theorem Intact.lacks_nothing (h : Intact keccak256 m env block) (hpaired : Paired m block body) :
    ¬((block.header.transactionsTrie.1 ≠ KECCAK256_RLP.1 ∧ body.txsData = []) ∨
      (block.header.uncleHash.1 ≠ KECCAK256_RLP_ARRAY.1 ∧ body.unclesData = [])) := by
  have hdata := h.data
  rw [validateData, ite_error_eq_ok, ite_error_eq_ok, ite_error_eq_ok, ite_error_eq_ok] at hdata
  obtain ⟨-, -, htrie, huncles, -⟩ := hdata
  rintro (⟨hroot, hempty⟩ | ⟨hhash, hempty⟩)
  · have hnone : block.transactions = [] := by
      have htxs := hpaired.txsData
      rw [hempty] at htxs
      cases htransactions : block.transactions with
      | nil => rfl
      | cons tx transactions =>
        rw [htransactions] at htxs
        obtain ⟨value, values, hcons, -⟩ := exists_of_mapM_cons htxs
        exact absurd hcons (List.cons_ne_nil _ _).symm
    rw [transactionsTrieIsValid, if_pos hnone] at htrie
    exact htrie (decide_eq_false hroot)
  · have hnone : block.uncleHeaders = [] := by
      have huh := hpaired.unclesData
      rw [hempty] at huh
      exact List.map_eq_nil_iff.1 huh.symm
    rw [uncleHashIsValid, if_pos hnone] at huncles
    exact huncles (decide_eq_false (Ne.symm hhash))

theorem Intact.length_lt (h : Intact keccak256 m env block) {txsData : List NestedUint8Array}
    (htxs : block.transactions.mapM bodyData = .ok txsData) :
    (Rlp.encode (.list (block.written m txsData).toValues)).length < arrayBound :=
  h.size _ (serialize_eq_ok.2 ⟨txsData, htxs, rfl⟩)

theorem Intact.fromBytesArray_eq (h : Intact keccak256 m env block)
    (hpaired : Paired m block body) :
    FrozenBlock.fromBytesArray keccak256
      ⟨block.header.toRaw m, body.txsData, body.unclesData, []⟩ (blockOptions m) = .ok block := by
  have hnone : block.withdrawals = none := by
    have hsome := h.valid.withdrawals
    rw [hpaired.inactive] at hsome
    simpa using hsome
  have hwritten : (⟨block.header.toRaw m, body.txsData, body.unclesData, []⟩ : BlockBytes) =
      block.written m body.txsData := by
    rw [FrozenBlock.written, hnone, hpaired.unclesData]
    rfl
  rw [hwritten]
  have hiff := @fromBytesArray_written_iff keccak256 (blockOptions m) block body.txsData h.valid
    h.signatures hpaired.txsData (h.length_lt hpaired.txsData)
  exact hiff.2 ⟨h.readable.header, h.readable.uncleHeaders,
    fun tx htx => (h.readable.transactions tx htx).1, h.readable.withdrawals⟩

theorem readBlocks_of_paired (h : List.Forall₂ (Paired m) blocks bodies)
    (hintact : ∀ block ∈ blocks, Intact keccak256 m env block) (rest : List ValidatedHeader) :
    readBlocks keccak256 m env (blocks.map FrozenBlock.header ++ rest) bodies =
      .ok (some blocks) := by
  induction h with
  | nil => cases rest <;> rfl
  | cons hpaired _ ih =>
    have hblock := hintact _ List.mem_cons_self
    rw [List.map_cons, List.cons_append, readBlocks, if_neg (hblock.lacks_nothing hpaired),
      hblock.fromBytesArray_eq hpaired, ih (List.forall_mem_cons.1 hintact).2]
    simp only [Except.mapError, hblock.data, ok_bind]
    rfl

/-- What a body of an intact block is read into has its transactions and uncles. -/
theorem paired_of_fromBytesArray {header : ValidatedHeader} {own : FrozenBlock}
    (hown : Intact keccak256 m env own) (hwire : WireBody m own body)
    (h : FrozenBlock.fromBytesArray keccak256 ⟨header.toRaw m, body.txsData, body.unclesData, []⟩
      (blockOptions m) = .ok block) : Paired m block body := by
  obtain ⟨-, -, hbytes, htxs, huncles, -⟩ := blockFromBytesArray_eq_ok.1 h
  have hread : body.txsData.mapM createTxManagerFromBlockBodyData = .ok own.transactions := by
    refine (readsBody_iff hown.signatures (fun value hvalue => ?_) hwire.txsData).2
      fun tx htx => (hown.readable.transactions tx htx).1
    calc (Rlp.encode value).length ≤ (Rlp.encode (.list body.txsData)).length :=
          length_encode_le_of_mem hvalue
      _ ≤ (Rlp.encode (.list (own.written m body.txsData).toValues)).length :=
          length_encode_le_of_mem (by simp [BlockBytes.toValues, FrozenBlock.written])
      _ < arrayBound := hown.length_lt hwire.txsData
  have hreads := (@readsUncles_iff (blockOptions m) own hown.valid.uncleHeaders).2
    hown.readable.uncleHeaders
  have htransactions : own.transactions = block.transactions :=
    Except.ok.inj (hread.symm.trans htxs)
  have hheaders : own.uncleHeaders = block.uncleHeaders := by
    rw [hwire.unclesData] at huncles
    exact Except.ok.inj (hreads.symm.trans huncles)
  refine ⟨?_, htransactions ▸ hwire.txsData, hheaders ▸ hwire.unclesData⟩
  cases hactive : block.header.isEIPActive m 4895 with
  | false => rfl
  | true =>
    simp only [blockOptions, hactive, checkWithdrawalBytes, if_true, List.head?_nil, and_self] at hbytes
    cases hbytes

theorem paired_of_readBlocks
    (hwire : ∀ body ∈ bodies, ∃ own, Intact keccak256 m env own ∧ WireBody m own body)
    (h : readBlocks keccak256 m env headers bodies = .ok (some blocks)) :
    List.Forall₂ (Paired m) blocks bodies := by
  induction bodies generalizing headers blocks with
  | nil =>
    have hnil : readBlocks keccak256 m env headers [] = .ok (some []) := by cases headers <;> rfl
    obtain rfl := Option.some.inj (Except.ok.inj (hnil.symm.trans h))
    exact .nil
  | cons body bodies ih =>
    cases headers with
    | nil => cases h
    | cons header headers =>
      rw [readBlocks] at h
      split at h
      · cases h
      · obtain ⟨block, hblock, h⟩ := bind_eq_ok.1 h
        obtain ⟨-, h⟩ := check_bind_eq_ok.1 h
        obtain ⟨read, hread, h⟩ := map_eq_ok h
        cases read with
        | none => cases h
        | some rest =>
          obtain rfl : block :: rest = blocks := Option.some.inj h
          obtain ⟨own, hown, hbody⟩ := hwire body List.mem_cons_self
          exact .cons (paired_of_fromBytesArray hown hbody (mapError_eq_ok.1 hblock))
            (ih (List.forall_mem_cons.1 hwire).2 hread)

/-! ## The bodies of an honest peer -/

theorem length_batch {α : Type} (i : ℕ) (l : List α) :
    (batch i l).length = min BATCH_SIZE (l.length - BATCH_SIZE * i) := by
  rw [batch, List.length_take, List.length_drop]

theorem length_allBodies_le {reply : ℕ → List BlockBody} (length turns i : ℕ)
    (h : ∀ j, j < i + turns → (reply j).length ≤ min BATCH_SIZE (length - BATCH_SIZE * j)) :
    (allBodies reply turns i).length ≤ length - BATCH_SIZE * i := by
  induction turns generalizing i with
  | zero => exact Nat.zero_le _
  | succ turns ih =>
    rw [allBodies]
    split
    · exact Nat.zero_le _
    · have hfirst := h i (by omega)
      have hrest := ih (i + 1) fun j hj => h j (by omega)
      rw [List.length_append]
      rw [Nat.mul_add] at hrest
      omega

theorem mem_allBodies {reply : ℕ → List BlockBody} (turns i : ℕ)
    (h : body ∈ allBodies reply turns i) : ∃ j, j < i + turns ∧ body ∈ reply j := by
  induction turns generalizing i with
  | zero => cases h
  | succ turns ih =>
    rw [allBodies] at h
    split at h
    · cases h
    · rcases List.mem_append.1 h with hmem | hmem
      · exact ⟨i, by omega, hmem⟩
      · obtain ⟨j, hj, hmem⟩ := ih (i + 1) hmem
        exact ⟨j, by omega, hmem⟩

/-- **What an honest peer sends for headers**: some bodies of their blocks, and no more than there
are headers. -/
theorem Honest.receivedBodies {chain : ℤ → FrozenBlock} {peer : Peer}
    (h : Honest keccak256 m chain peer) (hne : blocks ≠ [])
    (hchain : ∀ block ∈ blocks, ∃ number, chain number = block) :
    BlockFetcher.receivedBodies keccak256 m peer (blocks.map FrozenBlock.header) ≠ [] ∧
      (BlockFetcher.receivedBodies keccak256 m peer (blocks.map FrozenBlock.header)).length ≤
        blocks.length ∧
      ∀ body ∈ BlockFetcher.receivedBodies keccak256 m peer (blocks.map FrozenBlock.header),
        ∃ own ∈ blocks, WireBody m own body := by
  have hhashes : ∀ i, (batch i (blocks.map FrozenBlock.header)).map
      (ValidatedHeader.computeHash keccak256 m) =
        (batch i blocks).map (FrozenBlock.getHash keccak256 m) := by
    intro i
    rw [batch, batch, ← List.map_drop, ← List.map_take, List.map_map]
    rfl
  rw [BlockFetcher.receivedBodies, List.length_map]
  simp only [hhashes]
  have hreply : ∀ i, i < 0 + batches blocks.length → ∃ n, 0 < n ∧ batch i blocks ≠ [] ∧
      List.Forall₂ (WireBody m) ((batch i blocks).take n)
        (peer.getBlockBodies i ((batch i blocks).map (FrozenBlock.getHash keccak256 m))) := by
    intro i hi
    have hsome : batch i blocks ≠ [] := by
      refine List.ne_nil_of_length_pos ?_
      rw [length_batch]
      simp only [batches, BATCH_SIZE] at hi ⊢
      omega
    obtain ⟨n, hn, hwire⟩ := h.bodies i (batch i blocks) hsome fun block hmem =>
      hchain block (List.mem_of_mem_drop (List.mem_of_mem_take hmem))
    exact ⟨n, hn, hsome, hwire⟩
  have hpos : 0 < blocks.length := List.length_pos_of_ne_nil hne
  refine ⟨?_, ?_, fun body hmem => ?_⟩
  · obtain ⟨turns, hturns⟩ : ∃ turns, batches blocks.length = turns + 1 := by
      refine Nat.exists_eq_succ_of_ne_zero ?_
      simp only [batches, BATCH_SIZE]
      omega
    obtain ⟨n, hn, hsome, hwire⟩ := hreply 0 (by omega)
    have hlength := hwire.length_eq
    rw [List.length_take] at hlength
    have hbatch := List.length_pos_of_ne_nil hsome
    rw [hturns, allBodies, if_neg]
    · exact fun h => absurd (List.append_eq_nil_iff.1 h).1
        (List.ne_nil_of_length_pos (by omega))
    · exact List.ne_nil_of_length_pos (by omega)
  · refine (length_allBodies_le blocks.length _ 0 fun i hi => ?_).trans
      (Nat.sub_le _ _)
    obtain ⟨n, -, -, hwire⟩ := hreply i hi
    rw [← hwire.length_eq, ← length_batch, List.length_take]
    exact Nat.min_le_right _ _
  · obtain ⟨i, hi, hmem⟩ := mem_allBodies _ _ hmem
    obtain ⟨n, -, -, hwire⟩ := hreply i hi
    obtain ⟨j, hj, rfl⟩ := List.getElem_of_mem hmem
    have hj' : j < ((batch i blocks).take n).length := hwire.length_eq ▸ hj
    exact ⟨_, List.mem_of_mem_drop (List.mem_of_mem_take (List.mem_of_mem_take
      (List.getElem_mem hj'))), hwire.get hj' hj⟩

/-! ## One request -/

section

variable {chain : ℤ → FrozenBlock} {reverse : Bool} {task : JobTask} {peer : Peer} {length : ℕ}

theorem length_requested (chain : ℤ → FrozenBlock) (reverse : Bool) (task : JobTask) (length : ℕ) :
    (requested chain reverse task length).length = task.count - length := by
  rw [requested, blocksFrom, List.length_map, List.length_range]

theorem mem_requested (h : block ∈ requested chain reverse task length) :
    ∃ number, chain number = block := by
  obtain ⟨i, -, rfl⟩ := List.mem_map.1 h
  exact ⟨_, rfl⟩

theorem Honest.request_eq (env : DataChecks) (reverse : Bool) (h : Honest keccak256 m chain peer) (hlt : length < task.count) :
    received keccak256 m reverse task peer length ≠ [] ∧
      (received keccak256 m reverse task peer length).length ≤ task.count - length ∧
      (∀ body ∈ received keccak256 m reverse task peer length,
        ∃ own ∈ requested chain reverse task length, WireBody m own body) ∧
      ∃ rest, request keccak256 m env reverse peer task length =
        (readBlocks keccak256 m env (((requested chain reverse task length).take
            (received keccak256 m reverse task peer length).length).map FrozenBlock.header ++ rest)
          (received keccak256 m reverse task peer length)).map fun blocks => blocks.getD [] := by
  obtain ⟨n, hn, -, hheaders⟩ := h.headers (further reverse task.first length)
    (task.count - length) reverse (by omega)
  have hsome : (requested chain reverse task length).take n ≠ [] := by
    refine List.ne_nil_of_length_pos ?_
    rw [List.length_take, length_requested]
    omega
  obtain ⟨hne, hle, hwire⟩ := h.receivedBodies hsome fun block hmem =>
    mem_requested (List.mem_of_mem_take hmem)
  have hreceived : received keccak256 m reverse task peer length =
      BlockFetcher.receivedBodies keccak256 m peer
        (((requested chain reverse task length).take n).map FrozenBlock.header) := by
    rw [received, hheaders]
    rfl
  rw [← hreceived] at hne hle hwire
  rw [List.length_take, length_requested] at hle
  refine ⟨hne, hle.trans (Nat.min_le_right _ _), fun body hmem => ?_,
    (((requested chain reverse task length).take n).drop
      (received keccak256 m reverse task peer length).length).map FrozenBlock.header, ?_⟩
  · obtain ⟨own, hown, hbody⟩ := hwire body hmem
    exact ⟨own, List.mem_of_mem_take hown, hbody⟩
  · have hsplit : (requested chain reverse task length).take
        (received keccak256 m reverse task peer length).length =
          ((requested chain reverse task length).take n).take
            (received keccak256 m reverse task peer length).length := by
      rw [List.take_take, Nat.min_eq_left (hle.trans (Nat.min_le_left _ _))]
    rw [hsplit, ← List.map_append, List.take_append_drop, request]
    have hmap : peer.getBlockHeaders (further reverse task.first length) (task.count - length)
        reverse = ((requested chain reverse task length).take n).map FrozenBlock.header := hheaders
    simp only [hmap, ← hreceived]
    rw [if_neg (mt List.map_eq_nil_iff.1 hsome), if_neg hne]

theorem request_of_aligned (h : Honest keccak256 m chain peer) (hlt : length < task.count)
    (hintact : ∀ block ∈ requested chain reverse task length, Intact keccak256 m env block)
    (haligned : Aligned keccak256 m chain reverse task peer length) :
    request keccak256 m env reverse peer task length =
      .ok ((requested chain reverse task length).take
        (received keccak256 m reverse task peer length).length) := by
  obtain ⟨-, -, -, rest, hrequest⟩ := h.request_eq env reverse hlt
  rw [hrequest, readBlocks_of_paired haligned fun block hmem =>
    hintact block (List.mem_of_mem_take hmem)]
  rfl

theorem accepted_iff (h : Honest keccak256 m chain peer) (hlt : length < task.count)
    (hintact : ∀ block ∈ requested chain reverse task length, Intact keccak256 m env block) :
    Accepted chain reverse task length (request keccak256 m env reverse peer task length) ↔
      Aligned keccak256 m chain reverse task peer length := by
  obtain ⟨hne, hle, hwire, rest, hrequest⟩ := h.request_eq env reverse hlt
  constructor
  · rintro ⟨blocks, hok, hsome, hprefix⟩
    rw [hrequest] at hok
    obtain ⟨read, hread, hblocks⟩ := map_eq_ok hok
    obtain rfl : read = some blocks := by
      cases read with
      | none => exact absurd hblocks.symm hsome
      | some read => exact congrArg some hblocks
    have hpaired := paired_of_readBlocks (fun body hmem => by
      obtain ⟨own, hown, hbody⟩ := hwire body hmem
      exact ⟨own, hintact own hown, hbody⟩) hread
    rw [Aligned, ← hpaired.length_eq, ← List.prefix_iff_eq_take.1 hprefix]
    exact hpaired
  · intro haligned
    refine ⟨_, request_of_aligned h hlt hintact haligned, ?_, List.take_prefix _ _⟩
    refine List.ne_nil_of_length_pos ?_
    rw [List.length_take, length_requested]
    have hpos := List.length_pos_of_ne_nil hne
    omega

end

/-! ## A job -/

section

variable {chain : ℤ → FrozenBlock} {reverse : Bool} {task : JobTask}

theorem drop_requested (chain : ℤ → FrozenBlock) (reverse : Bool) (task : JobTask) (length : ℕ) :
    (requested chain reverse task 0).drop length = requested chain reverse task length := by
  refine List.ext_getElem ?_ fun i hi hi' => ?_
  · rw [List.length_drop, length_requested, length_requested, Nat.sub_zero]
  · simp only [requested, blocksFrom, List.getElem_drop, List.getElem_map, List.getElem_range]
    congr 1
    cases reverse
    · simp only [further, Bool.false_eq_true, if_false]
      push_cast
      omega
    · simp only [further, if_true]
      push_cast
      omega

/-- **A job is done by honest peers in turn**, from any partial result, when their bodies are
aligned. -/
theorem fetchJob_eq (hintact : ∀ block ∈ requested chain reverse task 0, Intact keccak256 m env block)
    (peers : List Peer) {length : ℕ} (hlt : length < task.count)
    (hhonest : ∀ peer ∈ peers, Honest keccak256 m chain peer)
    (haligned : AlignedRun keccak256 m chain reverse task peers length)
    (hpeers : task.count ≤ length + peers.length) :
    fetchJob keccak256 m env reverse task peers ((requested chain reverse task 0).take length) =
      .ok (some (requested chain reverse task 0)) := by
  induction peers generalizing length with
  | nil =>
    rw [List.length_nil] at hpeers
    omega
  | cons peer peers ih =>
    obtain ⟨hstep, hrest⟩ := haligned hlt
    have hpeer := hhonest peer List.mem_cons_self
    obtain ⟨hne, hle, -⟩ := hpeer.request_eq env reverse hlt
    have hpos := List.length_pos_of_ne_nil hne
    have hpartial : ((requested chain reverse task 0).take length).length = length := by
      rw [List.length_take, length_requested]
      omega
    have hrequest := request_of_aligned hpeer hlt (fun block hmem => by
      rw [← drop_requested] at hmem
      exact hintact block (List.mem_of_mem_drop hmem)) hstep
    generalize (received keccak256 m reverse task peer length).length = more at *
    have hjoined : (requested chain reverse task 0).take length ++
        (requested chain reverse task length).take more =
          (requested chain reverse task 0).take (length + more) := by
      rw [← drop_requested chain reverse task length, List.take_add]
    have hlength : ((requested chain reverse task 0).take (length + more)).length =
        length + more := by
      rw [List.length_take, length_requested]
      omega
    rw [fetchJob, hpartial, hrequest]
    simp only [process, hjoined, hlength]
    by_cases hdone : length + more = task.count
    · rw [if_pos hdone]
      simp only [hdone]
      rw [List.take_of_length_le (by rw [length_requested]; omega)]
    · rw [if_neg hdone, if_pos (by omega)]
      exact ih (by omega) (List.forall_mem_cons.1 hhonest).2 hrest
        (by rw [List.length_cons] at hpeers; omega)

end

/-! ## A block with withdrawals -/

/-- A peer that sends one header and one body. -/
def onePeer (header : ValidatedHeader) (body : BlockBody) : Peer where
  getBlockHeaders _ _ _ := [header]
  getBlockBodies _ _ := [body]

theorem honest_onePeer (hwire : WireBody m block body) :
    Honest keccak256 m (fun _ => block) (onePeer block.header body) where
  headers _ max _ hmax := by
    refine ⟨1, Nat.one_pos, hmax, ?_⟩
    obtain ⟨rest, rfl⟩ := Nat.exists_eq_succ_of_ne_zero hmax.ne'
    rw [blocksFrom, List.range_succ_eq_map]
    rfl
  bodies _ blocks hne hchain := by
    obtain ⟨own, rest, rfl⟩ := List.exists_cons_of_ne_nil hne
    obtain ⟨-, rfl⟩ := hchain own List.mem_cons_self
    exact ⟨1, Nat.one_pos, .cons hwire .nil⟩

/-- No transaction is asked about. -/
def sampleChecks : DataChecks := ⟨fun _ => [], fun _ => true, fun _ => [], fun _ => []⟩

/-- A block before London. -/
def sampleEmptyBlock : FrozenBlock := ⟨coreDefaults 5 500, [], [], none⟩

theorem intact_sampleEmptyBlock :
    Intact (fun _ => KECCAK256_NULL) sampleManager sampleChecks sampleEmptyBlock where
  valid := ⟨⟨by decide +kernel, by decide +kernel, by decide +kernel, by decide +kernel,
    by decide +kernel, by decide +kernel, by decide +kernel, by decide +kernel, by decide +kernel⟩,
    by simp [sampleEmptyBlock], rfl, rfl, by decide +kernel⟩
  signatures := by simp [sampleEmptyBlock]
  readable := ⟨⟨⟨by decide +kernel, by decide +kernel, by decide +kernel, by decide +kernel⟩, rfl⟩,
    by simp [sampleEmptyBlock], by simp [sampleEmptyBlock], by decide +kernel, fun _ _ => rfl⟩
  size serialized h := by
    have hlen : ((sampleEmptyBlock.serialize sampleManager).toOption.map List.length).getD 0 <
        arrayBound := by
      decide +kernel
    rwa [h] at hlen
  data := by decide +kernel

/-- A chain that has Shanghai from its first block on. -/
def shanghaiManager : HardforkManager :=
  { sampleManager with
    hardforks := [⟨.chainstart, some 0, none, none⟩, ⟨.london, some 0, none, none⟩,
      ⟨.shanghai, some 0, none, none⟩]
    ordered := by decide
    first := ⟨_, rfl, .inl rfl⟩ }

/-- A block of it, without withdrawals in its list. -/
def sampleShanghaiBlock : FrozenBlock where
  header :=
    { coreDefaults 1 12 with baseFeePerGas := some 7, withdrawalsRoot := some emptyTrieRoot }
  transactions := []
  uncleHeaders := []
  withdrawals := some []

theorem intact_sampleShanghaiBlock :
    Intact (fun _ => KECCAK256_NULL) shanghaiManager sampleChecks sampleShanghaiBlock where
  valid := ⟨⟨by decide +kernel, by decide +kernel, by decide +kernel, by decide +kernel,
    by decide +kernel, by decide +kernel, by decide +kernel, by decide +kernel, by decide +kernel⟩,
    by simp [sampleShanghaiBlock], rfl, rfl, by decide +kernel⟩
  signatures := by simp [sampleShanghaiBlock]
  readable := ⟨⟨⟨by decide +kernel, by decide +kernel, by decide +kernel, by decide +kernel⟩, rfl⟩,
    by simp [sampleShanghaiBlock], by simp [sampleShanghaiBlock], by decide +kernel,
    fun _ _ => rfl⟩
  size serialized h := by
    have hlen : ((sampleShanghaiBlock.serialize shanghaiManager).toOption.map List.length).getD 0 <
        arrayBound := by
      decide +kernel
    rwa [h] at hlen
  data := by decide +kernel

end BlockFetcher

end Sync

end TsEthereum
