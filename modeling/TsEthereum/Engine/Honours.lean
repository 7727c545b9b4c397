import TsEthereum.Block.RoundTrip
import TsEthereum.Engine.Payloads
import TsEthereum.Miner.Agreement

/-!
# What is asked of a payload, and what its block has

A builder that is kept was started by a request with its identifier (`Started`), and a block it
has built is of that request (`Kept`): no call breaks this, whatever throws. With one request to an
identifier, the block of a payload is of the attributes that were handed over, and these are
without the withdrawals.
-/

namespace TsEthereum

namespace Engine

open TsEthereum.ChainConfig TsEthereum.Block

section

variable (keccak256 : Bytes → Bytes32) (m : HardforkManager)

/-! ## What is kept -/

/-- **A builder is of a request**: it was started with its data and has its withdrawals. -/
structure Started (request : StartRequest) (builder : BlockBuilder) : Prop where
  headerData : ∃ fee, Miner.chosenBaseFee m request.parentBlock request.headerData = .ok fee ∧
    builder.headerData =
      Miner.startedData keccak256 m request.parentBlock request.headerData fee
  withdrawals : builder.withdrawals = request.withdrawals

/-- **A block is of a request**: its header is one that is built of the request, and its
withdrawals are the request's, or none at all where they are left out. -/
structure Built (request : StartRequest) (block : FrozenBlock) : Prop where
  header : ∃ acc fee, Miner.Buildable m request.parentBlock request.headerData acc fee ∧
    block.header = Miner.builtHeader keccak256 m request.parentBlock request.headerData acc fee
  withdrawals : block.withdrawals = request.withdrawals.or
    (if Miner.activeAt m request.parentBlock request.headerData 4895 then some [] else none)

/-- What is kept is of a request, and so is the block it has built. -/
structure KeptOf (request : StartRequest) (builder : BlockBuilder) : Prop where
  started : Started keccak256 m request builder
  built : ∀ block, builder.blockStatus = .build block → Built keccak256 m request block

/-- **The invariant**: what is kept under an identifier is of a request with that identifier. -/
def Kept (requests : StartRequest → Prop) (pendingPayloads : PendingBlock) : Prop :=
  ∀ payloadId cached, pendingPayloads.get payloadId = some cached →
    ∃ request, requests request ∧ request.payloadId keccak256 m = payloadId ∧
      KeptOf keccak256 m request cached.builder

end

variable {keccak256 : Bytes → Bytes32} {m : HardforkManager}
variable {genWithdrawalsTrieRoot : List Withdrawal → Bytes32}
variable {requests : StartRequest → Prop} {pendingPayloads : PendingBlock}
variable {request : StartRequest} {payloadId : Bytes}

theorem kept_empty : Kept keccak256 m requests (JsMap.empty : PendingBlock) := by
  intro payloadId cached hget
  cases hget

theorem Kept.delete (h : Kept keccak256 m requests pendingPayloads) (payloadId : Bytes) :
    Kept keccak256 m requests (pendingPayloads.delete payloadId) := by
  intro payloadId' cached hget
  rw [JsMap.get_delete] at hget
  split at hget
  · cases hget
  · exact h payloadId' cached hget

theorem Kept.set (h : Kept keccak256 m requests pendingPayloads) {cached : CachedPendingBlock}
    (hrequest : requests request) (hid : request.payloadId keccak256 m = payloadId)
    (hcached : KeptOf keccak256 m request cached.builder) :
    Kept keccak256 m requests (pendingPayloads.set payloadId cached) := by
  intro payloadId' cached' hget
  rw [JsMap.get_set] at hget
  split at hget
  · next heq =>
    obtain rfl := Option.some.inj hget
    exact ⟨request, hrequest, hid.trans heq.symm, hcached⟩
  · exact h payloadId' cached' hget

theorem Kept.mono {requests' : StartRequest → Prop} (h : Kept keccak256 m requests pendingPayloads)
    (hsub : ∀ request, requests request → requests' request) :
    Kept keccak256 m requests' pendingPayloads := by
  intro payloadId cached hget
  obtain ⟨request, hrequest, hrest⟩ := h payloadId cached hget
  exact ⟨request, hsub request hrequest, hrest⟩

/-! ## A start -/

theorem Kept.resolveCached (h : Kept keccak256 m requests pendingPayloads) (now : ℕ)
    (payloadId : Bytes) (parentHash : Bytes32) :
    Kept keccak256 m requests (pendingPayloads.resolveCached now payloadId parentHash).2 := by
  rw [PendingBlock.resolveCached]
  split
  · exact h
  · split
    · exact h.delete payloadId
    · split
      · exact h.delete payloadId
      · exact h

theorem Kept.pruneSetToMax (h : Kept keccak256 m requests pendingPayloads) (maxItems : ℕ) :
    Kept keccak256 m requests (pendingPayloads.pruneSetToMax maxItems) := by
  rw [PendingBlock.pruneSetToMax]
  generalize pendingPayloads.keys.take _ = oldest
  induction oldest generalizing pendingPayloads with
  | nil => exact h
  | cons payloadId oldest ih => exact ih (h.delete payloadId)

theorem keptOf_start {now : ℕ} {headerData : HeaderData}
    (hstart : Miner.start keccak256 m request.parentBlock now request.headerData = .ok headerData) :
    KeptOf keccak256 m request ⟨headerData, request.withdrawals, .pending⟩ := by
  rw [Miner.start_eq] at hstart
  obtain ⟨fee, hfee, rfl⟩ := map_eq_ok hstart
  refine ⟨⟨⟨fee, hfee, rfl⟩, rfl⟩, ?_⟩
  intro block hblock
  cases hblock

theorem Kept.start (h : Kept keccak256 m requests pendingPayloads) (hrequest : requests request)
    (env : StartEnvironment) :
    Kept keccak256 m requests (PendingBlock.start keccak256 m env request pendingPayloads).2 := by
  rw [PendingBlock.start]
  split
  · exact h
  · dsimp only
    have hresolved := h.resolveCached env.now (request.payloadId keccak256 m)
      (request.parentBlock.computeHash keccak256 m)
    generalize pendingPayloads.resolveCached env.now (request.payloadId keccak256 m)
      (request.parentBlock.computeHash keccak256 m) = resolved at hresolved ⊢
    have hpruned := hresolved.pruneSetToMax MAX_PAYLOAD_CACHE
    split
    · exact hresolved
    · split
      · exact hpruned
      · split
        · exact hpruned
        · next hstart =>
          split
          · exact hpruned
          · exact hpruned.set hrequest rfl (keptOf_start hstart)

theorem start_eq_ok {env : StartEnvironment}
    (hstart : (PendingBlock.start keccak256 m env request pendingPayloads).1 = .ok payloadId) :
    request.payloadId keccak256 m = payloadId := by
  rw [PendingBlock.start] at hstart
  split at hstart
  · cases hstart
  · dsimp only at hstart
    split at hstart
    · exact Except.ok.inj hstart
    · split at hstart
      · cases hstart
      · split at hstart
        · cases hstart
        · split at hstart
          · cases hstart
          · dsimp only at hstart
            split at hstart
            · exact Except.ok.inj hstart
            · cases hstart

/-! ## A build -/

theorem built_of_build {builder : BlockBuilder} {added : Added} {block : FrozenBlock}
    (h : Started keccak256 m request builder)
    (hbuild : builder.build keccak256 genWithdrawalsTrieRoot m added = .ok block) :
    Built keccak256 m request block := by
  obtain ⟨fee, hfee, hdata⟩ := h.headerData
  rw [BlockBuilder.build] at hbuild
  obtain ⟨header, hheader, hbuild⟩ := bind_eq_ok.1 hbuild
  obtain ⟨validated, hvalidated, hblock⟩ := bind_eq_ok.1 hbuild
  obtain rfl := Except.ok.inj hblock
  have hheader := mapError_eq_ok.1 hheader
  rw [hdata] at hheader
  obtain ⟨hbuildable, rfl⟩ := (Miner.build_eq_ok (Miner.isSome_of_chosenBaseFee hfee)).1 hheader
  refine ⟨⟨_, fee, hbuildable, rfl⟩, ?_⟩
  have hvalidated := mapError_eq_ok.1 hvalidated
  rw [validateBlockConstructor] at hvalidated
  simp only [check_bind_eq_ok] at hvalidated
  obtain ⟨-, -, -, hvalidated⟩ := hvalidated
  obtain rfl := Except.ok.inj hvalidated
  rw [← h.withdrawals]
  rfl

/-- **A build keeps the invariant**, and what it answers is of a request with the identifier. -/
theorem Kept.build (h : Kept keccak256 m requests pendingPayloads) (added : Option Added)
    (payloadId : Bytes) :
    Kept keccak256 m requests (PendingBlock.build keccak256 genWithdrawalsTrieRoot m added payloadId
        pendingPayloads).2 ∧
      ∀ block, (PendingBlock.build keccak256 genWithdrawalsTrieRoot m added payloadId
          pendingPayloads).1 = .ok (some block) →
        ∃ request, requests request ∧ request.payloadId keccak256 m = payloadId ∧
          Built keccak256 m request block := by
  rw [PendingBlock.build]
  split
  · refine ⟨h, ?_⟩
    rintro block ⟨⟩
  · next cached hget =>
    obtain ⟨request, hrequest, hid, hcached⟩ := h payloadId cached hget
    split
    -- a payload that is built is answered again
    · next block hstatus =>
      refine ⟨h, ?_⟩
      rintro block' heq
      obtain rfl := Option.some.inj (Except.ok.inj heq)
      exact ⟨request, hrequest, hid, hcached.built block hstatus⟩
    · refine ⟨h, ?_⟩
      rintro block ⟨⟩
    · split
      · refine ⟨h, ?_⟩
        rintro block ⟨⟩
      · split
        · refine ⟨h, ?_⟩
          rintro block ⟨⟩
        · next block hbuild =>
          have hbuilt := built_of_build hcached.started hbuild
          constructor
          · refine h.set hrequest hid
              ⟨⟨hcached.started.headerData, hcached.started.withdrawals⟩, ?_⟩
            intro block' heq
            obtain rfl := BlockStatus.build.inj heq
            exact hbuilt
          · intro block' heq
            obtain rfl := Option.some.inj (Except.ok.inj heq)
            exact ⟨request, hrequest, hid, hbuilt⟩

theorem getPayload_snd (payloadVersion : ℕ) (env : BuildEnvironment) (payloadId : Bytes)
    (pendingPayloads : PendingBlock) :
    (getPayload keccak256 genWithdrawalsTrieRoot m payloadVersion env payloadId
      pendingPayloads).2 =
      (PendingBlock.build keccak256 genWithdrawalsTrieRoot m env.added payloadId
        pendingPayloads).2 := by
  rw [getPayload]
  split
  · next heq => rw [heq]
  · next heq => rw [heq]
  · next heq => rw [heq]

theorem build_of_getPayload {payloadVersion : ℕ} {env : BuildEnvironment} {block : FrozenBlock}
    (hbuilt : (getPayload keccak256 genWithdrawalsTrieRoot m payloadVersion env payloadId
      pendingPayloads).1 = .ok block) :
    (PendingBlock.build keccak256 genWithdrawalsTrieRoot m env.added payloadId
      pendingPayloads).1 = .ok (some block) := by
  rw [getPayload] at hbuilt
  split at hbuilt
  · cases hbuilt
  · cases hbuilt
  · next heq =>
    rw [heq]
    dsimp only at hbuilt
    split at hbuilt
    · cases hbuilt
    · obtain ⟨-, -, rfl⟩ := map_eq_ok hbuilt
      rfl

/-! ## Runs -/

theorem Kept.forkchoiceUpdated (h : Kept keccak256 m requests pendingPayloads) (version : Version)
    (env : StartEnvironment) {headBlock : ValidatedHeader} {attributes : PayloadAttributes}
    (hrequest : requests (attributes.startRequest headBlock)) :
    Kept keccak256 m requests
      (Engine.forkchoiceUpdated keccak256 m version env headBlock attributes
        pendingPayloads).2 := by
  rw [Engine.forkchoiceUpdated]
  split
  · exact h
  · split
    · exact h
    · exact h.start hrequest env

theorem Kept.step (h : Kept keccak256 m requests pendingPayloads) {call : Call}
    (hrequests : ∀ request, call.request? = some request → requests request) :
    Kept keccak256 m requests
      (call.step keccak256 genWithdrawalsTrieRoot m pendingPayloads) := by
  cases call with
  | forkchoiceUpdated version env headBlock attributes =>
    exact h.forkchoiceUpdated version env (hrequests _ rfl)
  | getPayload payloadVersion env payloadId =>
    rw [Call.step, getPayload_snd]
    exact (h.build env.added payloadId).1
  | start env request => exact h.start (hrequests _ rfl) env
  | stop payloadId => exact h.delete payloadId

theorem kept_run (genWithdrawalsTrieRoot : List Withdrawal → Bytes32) (calls : List Call) :
    Kept keccak256 m (fun request => some request ∈ calls.map Call.request?)
      (run keccak256 genWithdrawalsTrieRoot m calls) := by
  rw [run]
  induction calls using List.reverseRecOn with
  | nil => exact kept_empty
  | append_singleton calls call ih =>
    rw [List.foldl_append]
    refine Kept.step (ih.mono ?_) ?_
    · intro request hmem
      rw [List.map_append]
      exact List.mem_append_left _ hmem
    · intro request heq
      rw [List.map_append]
      exact List.mem_append_right _ (List.mem_singleton.2 heq.symm)

/-! ## The attributes -/

/-- **The attributes are honoured**: the block has the head as its parent, and the time, the
randomness, the fee recipient, the withdrawals and the beacon root that were asked for. Withdrawals
that are left out are none. -/
structure Honours (keccak256 : Bytes → Bytes32) (m : HardforkManager)
    (headBlock : ValidatedHeader) (attributes : PayloadAttributes) (block : FrozenBlock) :
    Prop where
  parentHash : block.header.parentHash.1 = (headBlock.computeHash keccak256 m).1
  timestamp : block.header.timestamp = attributes.timestamp
  prevRandao : block.header.mixHash.1 = attributes.prevRandao.1
  suggestedFeeRecipient : block.header.coinbase = attributes.suggestedFeeRecipient
  withdrawals : block.withdrawals.getD [] = attributes.withdrawals.getD []
  parentBeaconBlockRoot : ∀ root, attributes.parentBeaconBlockRoot = some root →
    block.header.parentBeaconBlockRoot.map Subtype.val = some root.1

/-- **What is of the attributes that were handed over honours them, but for the withdrawals**: it
has none. -/
theorem Built.honours_iff {headBlock : ValidatedHeader} {attributes : PayloadAttributes}
    {block : FrozenBlock} (h : Built keccak256 m (attributes.startRequest headBlock) block) :
    Honours keccak256 m headBlock attributes block ↔ attributes.withdrawals.getD [] = [] := by
  obtain ⟨acc, fee, hbuildable, hheader⟩ := h.header
  have hnone : block.withdrawals.getD [] = [] := by
    rw [h.withdrawals]
    cases Miner.activeAt m (attributes.startRequest headBlock).parentBlock
        (attributes.startRequest headBlock).headerData 4895 with
    | false => rfl
    | true => rfl
  -- the withdrawals are what the build does not take over; the rest it does
  constructor
  · intro hhonours
    rw [← hhonours.withdrawals, hnone]
  · intro hwithdrawals
    refine ⟨?_, ?_, ?_, ?_, hnone.trans hwithdrawals.symm, ?_⟩
    · rw [hheader]
      rfl
    · rw [hheader]
      rfl
    · rw [hheader]
      rfl
    · rw [hheader]
      rfl
    · intro root hroot
      have hactive : Miner.activeAt m headBlock (attributes.startRequest headBlock).headerData 4788 =
          true := hbuildable.parentBeaconBlockRoot (by
        simp only [PayloadAttributes.startRequest, hroot, Option.isSome_some])
      have hfield : block.header.parentBeaconBlockRoot =
          if Miner.activeAt m headBlock (attributes.startRequest headBlock).headerData 4788 then
            some ((attributes.parentBeaconBlockRoot.map Miner.Bytes32.toField).getD (zeros 32))
          else none := by
        rw [hheader]
        rfl
      rw [hfield, if_pos hactive, hroot]
      rfl

/-- **One request to an identifier**, among those of the calls. -/
def DistinctIds (keccak256 : Bytes → Bytes32) (m : HardforkManager) (calls : List Call) : Prop :=
  ∀ request request', some request ∈ calls.map Call.request? →
    some request' ∈ calls.map Call.request? →
    request.payloadId keccak256 m = request'.payloadId keccak256 m → request = request'

theorem payloadId_of_forkchoiceUpdated {version : Version} {env : StartEnvironment}
    {headBlock : ValidatedHeader} {attributes : PayloadAttributes}
    (hstarted : (forkchoiceUpdated keccak256 m version env headBlock attributes
      pendingPayloads).1 = .ok payloadId) :
    (attributes.startRequest headBlock).payloadId keccak256 m = payloadId := by
  rw [forkchoiceUpdated] at hstarted
  split at hstarted
  · cases hstarted
  · split at hstarted
    · cases hstarted
    · exact start_eq_ok hstarted

theorem built_of_answers {before between : List Call} {version : Version} {env : StartEnvironment}
    {headBlock : ValidatedHeader} {attributes : PayloadAttributes} {payloadVersion : ℕ}
    {buildEnv : BuildEnvironment} {block : FrozenBlock}
    (hids : DistinctIds keccak256 m
      (before ++ .forkchoiceUpdated version env headBlock attributes :: between))
    (hstarted : (forkchoiceUpdated keccak256 m version env headBlock attributes
      (run keccak256 genWithdrawalsTrieRoot m before)).1 = .ok payloadId)
    (hbuilt : (getPayload keccak256 genWithdrawalsTrieRoot m payloadVersion buildEnv payloadId
      (run keccak256 genWithdrawalsTrieRoot m
        (before ++ .forkchoiceUpdated version env headBlock attributes :: between))).1 =
      .ok block) :
    Built keccak256 m (attributes.startRequest headBlock) block := by
  have hid := payloadId_of_forkchoiceUpdated hstarted
  obtain ⟨request, hrequest, hid', hof⟩ := ((kept_run genWithdrawalsTrieRoot _).build
    buildEnv.added payloadId).2 block (build_of_getPayload hbuilt)
  have hmem : some (attributes.startRequest headBlock) ∈
      (before ++ Call.forkchoiceUpdated version env headBlock attributes :: between).map
        Call.request? := by
    rw [List.map_append]
    exact List.mem_append_right _ List.mem_cons_self
  rw [hids _ _ hmem hrequest (hid.trans hid'.symm)]
  exact hof

/-- **A payload's block honours its attributes exactly when no withdrawals are asked for**: in any
run in which no two requests have one identifier, whatever is started, stopped or built before,
in between or again. -/
theorem honours_iff_no_withdrawals (keccak256 : Bytes → Bytes32)
    (genWithdrawalsTrieRoot : List Withdrawal → Bytes32) (m : HardforkManager)
    (before between : List Call) (version : Version) (env : StartEnvironment)
    (headBlock : ValidatedHeader) (attributes : PayloadAttributes) (payloadId : Bytes)
    (payloadVersion : ℕ) (buildEnv : BuildEnvironment) (block : FrozenBlock)
    (hids : DistinctIds keccak256 m
      (before ++ .forkchoiceUpdated version env headBlock attributes :: between))
    (hstarted : (forkchoiceUpdated keccak256 m version env headBlock attributes
      (run keccak256 genWithdrawalsTrieRoot m before)).1 = .ok payloadId)
    (hbuilt : (getPayload keccak256 genWithdrawalsTrieRoot m payloadVersion buildEnv payloadId
      (run keccak256 genWithdrawalsTrieRoot m
        (before ++ .forkchoiceUpdated version env headBlock attributes :: between))).1 =
      .ok block) :
    Honours keccak256 m headBlock attributes block ↔ attributes.withdrawals.getD [] = [] :=
  (built_of_answers hids hstarted hbuilt).honours_iff

/-! ## A request with withdrawals -/

/-- A head after Shanghai. -/
def sampleHead : ValidatedHeader :=
  { coreDefaults 30 1990 with
    gasLimit := 30000000, baseFeePerGas := some 7, withdrawalsRoot := some emptyTrieRoot }

/-- What is asked for after Cancun, with some withdrawals. -/
def sampleRequested (withdrawals : List Withdrawal) : PayloadAttributes where
  timestamp := 2001
  prevRandao := KECCAK256_RLP
  suggestedFeeRecipient := repeated 7
  withdrawals := some withdrawals
  parentBeaconBlockRoot := some KECCAK256_RLP

/-- Everything goes through. -/
def sampleStartEnvironment : StartEnvironment := ⟨5000, 5, true, true, true⟩

/-- No transaction is added. -/
def sampleBuildEnvironment : BuildEnvironment := ⟨some ⟨[], Miner.sampleAccumulated⟩, true⟩

/-- Its identifier. -/
def samplePayloadId : Bytes := KECCAK256_NULL.1.take 8

/-- The one call. -/
def sampleUpdate (withdrawals : List Withdrawal) : Call :=
  .forkchoiceUpdated .v3 sampleStartEnvironment sampleHead (sampleRequested withdrawals)

theorem distinctIds_sampleUpdate (withdrawals : List Withdrawal) :
    DistinctIds (fun _ => KECCAK256_NULL) sampleManager [sampleUpdate withdrawals] := by
  intro request request' hmem hmem' _
  have h := Option.some.inj (List.mem_singleton.1 hmem)
  have h' := Option.some.inj (List.mem_singleton.1 hmem')
  exact h.trans h'.symm

theorem forkchoiceUpdated_sampleRequested (withdrawals : List Withdrawal) :
    (forkchoiceUpdated (fun _ => KECCAK256_NULL) sampleManager .v3 sampleStartEnvironment
      sampleHead (sampleRequested withdrawals)
      (run (fun _ => KECCAK256_NULL) (fun _ => KECCAK256_NULL) sampleManager [])).1 =
      .ok samplePayloadId := by
  have haccepted : (forkchoiceUpdated (fun _ => KECCAK256_NULL) sampleManager .v3
      sampleStartEnvironment sampleHead (sampleRequested [])
      (run (fun _ => KECCAK256_NULL) (fun _ => KECCAK256_NULL) sampleManager [])).1.isOk =
      true := by
    decide +kernel
  obtain ⟨payloadId, hok⟩ := exists_ok_of_isOk haccepted
  have hid : samplePayloadId = payloadId := payloadId_of_forkchoiceUpdated hok
  rw [hid]
  exact hok

theorem getPayload_sampleRequested (withdrawals : List Withdrawal) :
    ∃ block, (getPayload (fun _ => KECCAK256_NULL) (fun _ => KECCAK256_NULL) sampleManager 3
      sampleBuildEnvironment samplePayloadId
      (run (fun _ => KECCAK256_NULL) (fun _ => KECCAK256_NULL) sampleManager
        [sampleUpdate withdrawals])).1 = .ok block := by
  have hbuilt : (getPayload (fun _ => KECCAK256_NULL) (fun _ => KECCAK256_NULL) sampleManager 3
      sampleBuildEnvironment samplePayloadId
      (run (fun _ => KECCAK256_NULL) (fun _ => KECCAK256_NULL) sampleManager
        [sampleUpdate []])).1.isOk = true := by
    decide +kernel
  exact exists_ok_of_isOk hbuilt

/-- **A request without withdrawals is honoured.** -/
theorem honours_iff_no_withdrawals_sampleRequested :
    ∃ block, Honours (fun _ => KECCAK256_NULL) sampleManager sampleHead (sampleRequested [])
      block := by
  obtain ⟨block, hbuilt⟩ := getPayload_sampleRequested []
  exact ⟨block, (honours_iff_no_withdrawals (fun _ => KECCAK256_NULL) (fun _ => KECCAK256_NULL)
    sampleManager [] [] .v3 sampleStartEnvironment sampleHead (sampleRequested []) samplePayloadId 3
    sampleBuildEnvironment block (distinctIds_sampleUpdate [])
    (forkchoiceUpdated_sampleRequested []) hbuilt).2 rfl⟩

/-- **One withdrawal**: the attributes are accepted, and the payload's block is without it. -/
theorem not_honours_sampleRequested :
    ∃ block, (getPayload (fun _ => KECCAK256_NULL) (fun _ => KECCAK256_NULL) sampleManager 3
        sampleBuildEnvironment samplePayloadId
        (run (fun _ => KECCAK256_NULL) (fun _ => KECCAK256_NULL) sampleManager
          [sampleUpdate [⟨0, 1, repeated 9, 32⟩]])).1 = .ok block ∧
      DistinctIds (fun _ => KECCAK256_NULL) sampleManager
        [sampleUpdate [⟨0, 1, repeated 9, 32⟩]] ∧
      (forkchoiceUpdated (fun _ => KECCAK256_NULL) sampleManager .v3 sampleStartEnvironment
        sampleHead (sampleRequested [⟨0, 1, repeated 9, 32⟩])
        (run (fun _ => KECCAK256_NULL) (fun _ => KECCAK256_NULL) sampleManager [])).1 =
        .ok samplePayloadId ∧
      ¬ Honours (fun _ => KECCAK256_NULL) sampleManager sampleHead
        (sampleRequested [⟨0, 1, repeated 9, 32⟩]) block := by
  obtain ⟨block, hbuilt⟩ := getPayload_sampleRequested [⟨0, 1, repeated 9, 32⟩]
  have hids : DistinctIds (fun _ => KECCAK256_NULL) sampleManager
      ([] ++ sampleUpdate [⟨0, 1, repeated 9, 32⟩] :: []) := distinctIds_sampleUpdate _
  have hof : Built (fun _ => KECCAK256_NULL) sampleManager
      ((sampleRequested [⟨0, 1, repeated 9, 32⟩]).startRequest sampleHead) block :=
    built_of_answers hids (forkchoiceUpdated_sampleRequested _) hbuilt
  refine ⟨block, hbuilt, hids, forkchoiceUpdated_sampleRequested _, ?_⟩
  rw [hof.honours_iff]
  exact List.cons_ne_nil _ _

end Engine

end TsEthereum
