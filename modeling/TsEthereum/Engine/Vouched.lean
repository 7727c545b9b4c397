import TsEthereum.Engine.Honours
import TsEthereum.Engine.NewPayload

/-!
# What a valid answer says

A hash is vouched for when its block was seen canonical and executed, or was executed or built on a
parent that is vouched for (`Vouched`). The caches only hold what is vouched for (`Sound`), and no
call breaks this. An answer is drawn from the caches and from what is executed meanwhile.
-/

namespace TsEthereum

namespace Engine

open TsEthereum.ChainConfig TsEthereum.Block

section

variable {keccak256 : Bytes → Bytes32} {m : HardforkManager}

/-- **A hash that is vouched for**: of a canonical block that is not beyond the VM's head, or of the
head; of a block that was executed, and whose header passed its check, on a parent that is vouched
for; or of one that was built on such a parent. -/
inductive Vouched (history : List (Event keccak256 m)) : Bytes → Prop
  | canonical {view : ChainView keccak256 m} {block : FrozenBlock} :
    .saw view ∈ history → validExecutedBlock view block = some block →
      Vouched history (hashKey keccak256 m block)
  | vmHead {view : ChainView keccak256 m} :
    .saw view ∈ history → Vouched history (hashKey keccak256 m view.iteratorHead)
  | executed {view : ChainView keccak256 m} {block : FrozenBlock} :
    .executed block view ∈ history → headerPasses m view block = true →
      Vouched history block.header.parentHash.1 → Vouched history (hashKey keccak256 m block)
  | built {block : FrozenBlock} :
    .built block ∈ history → Vouched history block.header.parentHash.1 →
      Vouched history (hashKey keccak256 m block)

variable {history history' : List (Event keccak256 m)} {hash : Bytes}

theorem Vouched.mono (h : Vouched history hash) (hsub : history ⊆ history') :
    Vouched history' hash := by
  induction h with
  | canonical hsaw hvalid => exact .canonical (hsub hsaw) hvalid
  | vmHead hsaw => exact .vmHead (hsub hsaw)
  | executed hexecuted hpasses _ ih => exact .executed (hsub hexecuted) hpasses ih
  | built hbuilt _ ih => exact .built (hsub hbuilt) ih

variable {view : ChainView keccak256 m} {block : FrozenBlock}

theorem eq_of_validExecutedBlock {block' : FrozenBlock}
    (h : validExecutedBlock view block = some block') : block' = block := by
  rw [validExecutedBlock] at h
  split at h
  · exact (Option.some.inj h).symm
  · cases h

theorem vouched_of_validExecutedChainBlock (hsaw : .saw view ∈ history)
    (h : (validExecutedChainBlock view hash).isSome = true) : Vouched history hash := by
  obtain ⟨block', hblock'⟩ := Option.isSome_iff_exists.1 h
  obtain ⟨block, hblock, hvalid⟩ := Option.bind_eq_some_iff.1 hblock'
  obtain rfl := eq_of_validExecutedBlock hvalid
  rw [← view.getBlock_hash hash _ hblock]
  exact .canonical hsaw hvalid

theorem vouched_of_genesis (hsaw : .saw view ∈ history) (hget : view.getBlock hash = some block)
    (hzero : block.header.number = 0) : Vouched history (hashKey keccak256 m block) := by
  have hcanonical := view.genesis hash block hget hzero
  refine .canonical hsaw ?_
  rw [validExecutedBlock, if_pos]
  rw [hzero, view.getBlock_hash hash block hget]
  exact ⟨Nat.zero_le _, hcanonical⟩

/-! ## The caches -/

/-- **The invariant**: what is kept as executed is vouched for, blocks are under their hashes, and
the pending payloads are on heads that are vouched for. -/
structure Sound (s : EngineState keccak256 m) : Prop where
  executed : ∀ hash block, s.executedBlocks.get hash = some block →
    Vouched s.history hash ∧ hashKey keccak256 m block = hash
  remote : ∀ hash block, s.remoteBlocks.get hash = some block → hashKey keccak256 m block = hash
  pending : Kept keccak256 m (fun request => Vouched s.history
    (request.parentBlock.computeHash keccak256 m).1) s.pendingPayloads

variable {s : EngineState keccak256 m}

theorem sound_initial : Sound (EngineState.initial : EngineState keccak256 m) where
  executed _ _ hget := by cases hget
  remote _ _ hget := by cases hget
  pending := kept_empty

/-- **A state with more history that keeps no more** is sound, when the same payloads are
pending. -/
theorem Sound.of_less (h : Sound s) {s' : EngineState keccak256 m}
    (hhistory : s.history ⊆ s'.history)
    (hexecuted : ∀ hash block, s'.executedBlocks.get hash = some block →
      s.executedBlocks.get hash = some block)
    (hremote : ∀ hash block, s'.remoteBlocks.get hash = some block →
      s.remoteBlocks.get hash = some block)
    (hpending : s'.pendingPayloads = s.pendingPayloads) : Sound s' where
  executed hash block hget := by
    obtain ⟨hvouched, hkey⟩ := h.executed hash block (hexecuted hash block hget)
    exact ⟨hvouched.mono hhistory, hkey⟩
  remote hash block hget := h.remote hash block (hremote hash block hget)
  pending := by
    rw [hpending]
    exact h.pending.mono fun request hrequest => hrequest.mono hhistory

theorem get_of_get_delete {β : Type} {entries : JsMap Bytes β} {key hash : Bytes} {value : β}
    (hget : (entries.delete key).get hash = some value) : entries.get hash = some value := by
  rw [JsMap.get_delete] at hget
  split at hget
  · cases hget
  · exact hget

theorem get_of_get_prune {β : Type} {keys : List Bytes} {entries : JsMap Bytes β} {hash : Bytes}
    {value : β} (hget : (keys.foldl JsMap.delete entries).get hash = some value) :
    entries.get hash = some value := by
  induction keys generalizing entries with
  | nil => exact hget
  | cons key keys ih => exact get_of_get_delete (ih hget)

theorem Sound.stash (h : Sound s) (block : FrozenBlock) : Sound (s.stash block) where
  executed := h.executed
  remote hash block' hget := by
    rw [EngineState.stash, JsMap.get_set] at hget
    split at hget
    · next heq =>
      obtain rfl := Option.some.inj hget
      exact heq.symm
    · exact h.remote hash block' hget
  pending := h.pending

theorem Sound.vouched_executed (h : Sound s) (hsaw : .saw view ∈ s.history)
    (hexecuted : (s.executed? view hash).isSome = true) : Vouched s.history hash := by
  rw [EngineState.executed?] at hexecuted
  cases hget : s.executedBlocks.get hash with
  | some block => exact (h.executed hash block hget).1
  | none =>
    rw [hget, Option.none_or] at hexecuted
    exact vouched_of_validExecutedChainBlock hsaw hexecuted

theorem Sound.set_executed (h : Sound s) {block : FrozenBlock} {event : Event keccak256 m}
    (hvouched : Vouched (s.history ++ [event]) (hashKey keccak256 m block)) :
    Sound { s with
      executedBlocks := s.executedBlocks.set (hashKey keccak256 m block) block
      history := s.history ++ [event] } where
  executed hash block' hget := by
    rw [JsMap.get_set] at hget
    split at hget
    · next heq =>
      obtain rfl := Option.some.inj hget
      rw [heq]
      exact ⟨hvouched, rfl⟩
    · obtain ⟨hold, hkey⟩ := h.executed hash block' hget
      exact ⟨hold.mono (List.subset_append_left _ _), hkey⟩
  remote := h.remote
  pending := h.pending.mono fun _ hrequest => hrequest.mono (List.subset_append_left _ _)

/-! ## The latest valid hash -/

/-- **A hash that may be answered as the latest valid one**: it is vouched for and is not marked
invalid; the hash of zeros is answered of a chain without a latest block. -/
def LatestSound (view : ChainView keccak256 m) (invalidBlocks : JsMap Bytes Unit)
    (history : List (Event keccak256 m)) (latestValidHash : Option Bytes) : Prop :=
  ∀ hash, latestValidHash = some hash →
    (Vouched history hash ∧ invalidBlocks.get hash = none) ∨
      (view.latest = none ∧ hash = List.replicate 32 0)

theorem latestSound_none {invalidBlocks : JsMap Bytes Unit} :
    LatestSound view invalidBlocks history none := by
  intro hash heq
  cases heq

theorem latestSound_validHashLoop (h : Sound s) (hsaw : .saw view ∈ s.history) (fuel : ℕ)
    (hash : Bytes) :
    LatestSound view s.invalidBlocks s.history (s.validHashLoop view fuel hash) := by
  induction fuel generalizing hash with
  | zero => exact latestSound_none
  | succ fuel ih =>
    rw [EngineState.validHashLoop]
    split
    · exact latestSound_none
    · split
      · exact latestSound_none
      · next hvalid =>
        split
        · next hexecuted =>
          intro hash' heq
          obtain rfl := Option.some.inj heq
          exact .inl ⟨h.vouched_executed hsaw hexecuted, by simpa using hvalid⟩
        · exact ih _

theorem latestSound_validHash (opts : EngineOptions) (h : Sound s) (hsaw : .saw view ∈ s.history)
    (hash : Bytes) : LatestSound view s.invalidBlocks s.history (validHash opts view s hash) :=
  latestSound_validHashLoop h hsaw _ hash

theorem latestSound_latestHash (opts : EngineOptions) (h : Sound s)
    (hsaw : .saw view ∈ s.history) :
    LatestSound view s.invalidBlocks s.history (latestHash opts view s) := by
  rw [latestHash]
  split
  · exact latestSound_validHash opts h hsaw _
  · next hlatest =>
    intro hash heq
    exact .inr ⟨hlatest, (Option.some.inj heq).symm⟩

/-! ## Execution -/

/-- A block follows another: the other is its parent. -/
def Follows (keccak256 : Bytes → Bytes32) (m : HardforkManager) (parent block : FrozenBlock) :
    Prop :=
  block.header.parentHash.1 = hashKey keccak256 m parent

/-- **What executing blocks leaves**: the history is longer, what is marked invalid is as before, and
where all are done all are vouched for. -/
structure ExecutesSoundly (s : EngineState keccak256 m) (blocks : List FrozenBlock)
    (result : Execution × EngineState keccak256 m) : Prop where
  sound : Sound result.2
  history : s.history ⊆ result.2.history
  invalidBlocks : result.2.invalidBlocks = s.invalidBlocks
  done : result.1 = .done → ∀ block ∈ blocks, Vouched result.2.history (hashKey keccak256 m block)

theorem executesSoundly_same (h : Sound s) {blocks : List FrozenBlock} {outcome : Execution}
    (hdone : outcome = .done → blocks = []) : ExecutesSoundly s blocks (outcome, s) where
  sound := h
  history := List.Subset.refl _
  invalidBlocks := rfl
  done heq block hmem := by
    rw [hdone heq] at hmem
    cases hmem

/-- **Executing a chain of blocks keeps the caches sound**, when the first of them, or its parent,
is vouched for: by then the parent of each is. -/
theorem executeBlocks_sound (opts : EngineOptions) (env : NewPayloadEnvironment keccak256 m)
    (blocks : List FrozenBlock) (previous : Option FrozenBlock) (h : Sound s)
    (hsaw : .saw env.view ∈ s.history)
    (hchain : blocks.IsChain (Follows keccak256 m))
    (hfirst : ∀ block ∈ blocks.head?, Vouched s.history (hashKey keccak256 m block) ∨
      Vouched s.history block.header.parentHash.1) :
    ExecutesSoundly s blocks (executeBlocks opts env previous blocks s) := by
  -- on the blocks that are left; each leaves the one before it vouched for, or its parent is
  induction blocks generalizing previous s with
  | nil => exact executesSoundly_same h fun _ => rfl
  | cons block blocks ih =>
    have hrest : blocks.IsChain (Follows keccak256 m) := hchain.tail
    have hnext : ∀ {history : List (Event keccak256 m)},
        Vouched history (hashKey keccak256 m block) → ∀ next ∈ blocks.head?,
          Vouched history (hashKey keccak256 m next) ∨
            Vouched history next.header.parentHash.1 := by
      intro history hvouched next hmem
      cases blocks with
      | nil => cases hmem
      | cons next' blocks =>
        obtain rfl := Option.some.inj hmem
        have hfollows : Follows keccak256 m block next' := (List.isChain_cons_cons.1 hchain).1
        rw [Follows] at hfollows
        rw [hfollows]
        exact .inr hvouched
    rw [executeBlocks]
    split
    · next hexecuted =>
      -- it was executed before, and is only passed by
      have hvouched := h.vouched_executed hsaw hexecuted
      have hstep := ih (some block) h hsaw hrest (hnext hvouched)
      refine ⟨hstep.sound, hstep.history, hstep.invalidBlocks, ?_⟩
      intro hdone block' hmem
      rcases List.mem_cons.1 hmem with rfl | hmem
      · exact hvouched.mono hstep.history
      · exact hstep.done hdone block' hmem
    · split
      · exact executesSoundly_same h (by rintro ⟨⟩)
      · dsimp only
        split
        · exact executesSoundly_same h (by rintro ⟨⟩)
        · next blockParent _ =>
          split
          · next hrun =>
            -- a run that ends well is a run of a header that passes
            have hpasses : headerPasses m env.view block = true := by
              rw [runWithoutSetHead] at hrun
              split at hrun
              · cases hrun
              · split at hrun
                · cases hrun
                · split at hrun
                  · cases hrun
                  · next hpasses => simpa using hpasses
            have hsub : s.history ⊆ s.history ++ [.executed block env.view] :=
              List.subset_append_left _ _
            have hvouched : Vouched (s.history ++ [.executed block env.view])
                (hashKey keccak256 m block) := by
              rcases hfirst block rfl with hself | hparent
              · exact hself.mono hsub
              · exact .executed (List.mem_append_right _ List.mem_cons_self) hpasses
                  (hparent.mono hsub)
            have hstep := ih (some block) (h.set_executed hvouched) (hsub hsaw) hrest
              (hnext hvouched)
            refine ⟨hstep.sound, List.Subset.trans hsub hstep.history, hstep.invalidBlocks, ?_⟩
            intro hdone block' hmem
            rcases List.mem_cons.1 hmem with rfl | hmem
            · exact hvouched.mono hstep.history
            · exact hstep.done hdone block' hmem
          · next hrun =>
            exact executesSoundly_same h fun heq => absurd heq hrun

/-- **A chain back to what is vouched for**: of blocks that follow each other up to the last. -/
structure BackTo (history : List (Event keccak256 m)) (last : FrozenBlock)
    (blocks : List FrozenBlock) : Prop where
  chain : blocks.IsChain (Follows keccak256 m)
  last : blocks.getLast? = some last
  first : ∀ first ∈ blocks.head?, Vouched history (hashKey keccak256 m first)

theorem backTo_singleton (hvouched : Vouched history (hashKey keccak256 m block)) :
    BackTo history block [block] := by
  refine ⟨List.isChain_singleton _, rfl, ?_⟩
  intro first hfirst
  obtain rfl := Option.some.inj hfirst
  exact hvouched

theorem BackTo.append {last : FrozenBlock} {blocks : List FrozenBlock}
    (h : BackTo history block blocks) (hfollows : Follows keccak256 m block last) :
    BackTo history last (blocks ++ [last]) := by
  refine ⟨?_, List.getLast?_concat, ?_⟩
  · rw [List.isChain_append]
    refine ⟨h.chain, List.isChain_singleton _, ?_⟩
    intro parent hparent next hnext
    rw [h.last] at hparent
    obtain rfl := Option.some.inj hparent
    obtain rfl := Option.some.inj hnext
    exact hfollows
  · intro first hmem
    cases blocks with
    | nil => cases h.last
    | cons oldest blocks => exact h.first first hmem

theorem follows_of_getBlock {last : FrozenBlock}
    (hget : view.getBlock last.header.parentHash.1 = some block) :
    Follows keccak256 m block last :=
  (view.getBlock_hash _ _ hget).symm

theorem backTo_findParents {vmHeadHash : Bytes} (hsaw : .saw view ∈ history)
    (hvmHead : Vouched history vmHeadHash) (depth : ℕ) {last : FrozenBlock}
    {blocks : List FrozenBlock} (h : findParents view vmHeadHash depth last = some blocks) :
    BackTo history last blocks := by
  induction depth generalizing last blocks with
  | zero =>
    rw [findParents] at h
    split at h
    · next hhead =>
      obtain rfl := Option.some.inj h
      exact backTo_singleton (hhead ▸ hvmHead)
    · split at h
      · cases h
      · next block hget =>
        split at h
        · next hzero =>
          obtain rfl := Option.some.inj h
          exact (backTo_singleton (vouched_of_genesis hsaw hget hzero)).append
            (follows_of_getBlock hget)
        · cases h
  | succ depth ih =>
    rw [findParents] at h
    split at h
    · next hhead =>
      obtain rfl := Option.some.inj h
      exact backTo_singleton (hhead ▸ hvmHead)
    · split at h
      · cases h
      · next block hget =>
        split at h
        · next hzero =>
          obtain rfl := Option.some.inj h
          exact (backTo_singleton (vouched_of_genesis hsaw hget hzero)).append
            (follows_of_getBlock hget)
        · obtain ⟨older, holder, rfl⟩ := Option.map_eq_some_iff.1 h
          exact (ih holder).append (follows_of_getBlock hget)

/-- With the new head it is still a chain; where nothing is found, the head's parent is vouched
for. -/
theorem recursivelyFindParents_chain {opts : EngineOptions} {vmHeadHash : Bytes}
    {headBlock : FrozenBlock} (hsaw : .saw view ∈ history) (hvmHead : Vouched history vmHeadHash)
    (hparent : Vouched history headBlock.header.parentHash.1) {blocks : List FrozenBlock}
    (h : recursivelyFindParents opts view vmHeadHash headBlock.header.parentHash.1 = some blocks) :
    (blocks ++ [headBlock]).IsChain (Follows keccak256 m) ∧
      ∀ first ∈ (blocks ++ [headBlock]).head?, Vouched history (hashKey keccak256 m first) ∨
        Vouched history first.header.parentHash.1 := by
  rw [recursivelyFindParents] at h
  split at h
  · obtain rfl := Option.some.inj h
    refine ⟨List.isChain_singleton _, ?_⟩
    intro first hfirst
    obtain rfl := Option.some.inj hfirst
    exact .inr hparent
  · split at h
    · cases h
    · next block hget =>
      have hback := (backTo_findParents hsaw hvmHead _ h).append (follows_of_getBlock hget)
      exact ⟨hback.chain, fun first hmem => .inl (hback.first first hmem)⟩

/-! ## Answers -/

/-- **What a call of `newPayload` answers and leaves**: the caches stay sound; where the answer is
`VALID` the payload's block is vouched for; and the latest valid hash is as it may be, what is
marked invalid being what was, but for the payload's block. -/
structure AnswersSoundly (view : ChainView keccak256 m) (payload : Payload)
    (s : EngineState keccak256 m) (result : Option PayloadStatus × EngineState keccak256 m) :
    Prop where
  sound : Sound result.2
  history : s.history ⊆ result.2.history
  valid : ∀ response ∈ result.1, response.status = .VALID →
    response.latestValidHash = some payload.blockHash ∧
      Vouched result.2.history payload.blockHash
  latest : ∀ response ∈ result.1,
    LatestSound view s.invalidBlocks result.2.history response.latestValidHash

variable {payload : Payload} {opts : EngineOptions} {env : NewPayloadEnvironment keccak256 m}
variable {headBlock : FrozenBlock}

theorem answersSoundly_of_ne {s' : EngineState keccak256 m} (h : Sound s')
    (hhistory : s.history ⊆ s'.history) {response : PayloadStatus}
    (hne : response.status ≠ .VALID)
    (hlatest : LatestSound view s.invalidBlocks s'.history response.latestValidHash) :
    AnswersSoundly view payload s (some response, s') where
  sound := h
  history := hhistory
  valid response' heq hvalid := by
    obtain rfl := Option.some.inj heq
    exact absurd hvalid hne
  latest response' heq := by
    obtain rfl := Option.some.inj heq
    exact hlatest

theorem answersSoundly_none {s' : EngineState keccak256 m} (h : Sound s')
    (hhistory : s.history ⊆ s'.history) : AnswersSoundly view payload s (none, s') where
  sound := h
  history := hhistory
  valid response heq := by cases heq
  latest response heq := by cases heq

theorem waiting_status_ne : (waiting env).status ≠ .VALID := by
  rw [waiting]
  split <;> rintro ⟨⟩

theorem of_invalidSkeleton (h : Sound s) (hsaw : .saw env.view ∈ s.history)
    {response : PayloadStatus} (hresponse : invalidSkeleton opts env headBlock s = some response) :
    response.status ≠ .VALID ∧
      LatestSound env.view s.invalidBlocks s.history response.latestValidHash := by
  rw [invalidSkeleton] at hresponse
  split at hresponse
  · cases hresponse
  · split at hresponse
    · obtain rfl := Option.some.inj hresponse
      exact ⟨by rintro ⟨⟩, latestSound_latestHash opts h hsaw⟩
    · cases hresponse

theorem of_invalidAlongChain (h : Sound s) (hsaw : .saw env.view ∈ s.history)
    {response : PayloadStatus}
    (hresponse : invalidAlongChain opts env headBlock s = some response) :
    response.status ≠ .VALID ∧
      LatestSound env.view s.invalidBlocks s.history response.latestValidHash := by
  rw [invalidAlongChain] at hresponse
  split at hresponse
  · cases hresponse
  · split at hresponse
    · obtain ⟨invalidBlock, -, rfl⟩ := Option.map_eq_some_iff.1 hresponse
      exact ⟨by rintro ⟨⟩, latestSound_validHash opts h hsaw _⟩
    · cases hresponse

theorem withoutParent_sound (h : Sound s) (hsaw : .saw env.view ∈ s.history) :
    AnswersSoundly env.view payload s ((withoutParent opts env headBlock s).map some id) := by
  have hstash := h.stash headBlock
  have hanswer : ∀ response, response = ((invalidSkeleton opts env headBlock (s.stash headBlock)).or
      (invalidAlongChain opts env headBlock (s.stash headBlock))).getD (waiting env) →
        response.status ≠ .VALID ∧
          LatestSound env.view s.invalidBlocks s.history response.latestValidHash := by
    rintro response rfl
    cases hskeleton : invalidSkeleton opts env headBlock (s.stash headBlock) with
    | some response => exact of_invalidSkeleton hstash hsaw hskeleton
    | none =>
      cases hchain : invalidAlongChain opts env headBlock (s.stash headBlock) with
      | some response => exact of_invalidAlongChain hstash hsaw hchain
      | none => exact ⟨waiting_status_ne, latestSound_none⟩
  obtain ⟨hne, hlatest⟩ := hanswer _ rfl
  have hhistory : s.history ⊆ (s.stash headBlock).history := List.Subset.refl _
  exact answersSoundly_of_ne hstash hhistory hne hlatest

theorem execute_sound (h : Sound s) (hsaw : .saw env.view ∈ s.history)
    (hhash : hashKey keccak256 m headBlock = payload.blockHash)
    (hparentHash : headBlock.header.parentHash.1 = payload.parentHash)
    (hparent : Vouched s.history payload.parentHash)
    (hvalid : s.invalidBlocks.get payload.blockHash = none) :
    AnswersSoundly env.view payload s (execute opts env payload headBlock s) := by
  have hvmHead : Vouched s.history (hashKey keccak256 m
      ((s.executedBlocks.get payload.parentHash).getD env.view.iteratorHead)) := by
    cases hget : s.executedBlocks.get payload.parentHash with
    | none => exact .vmHead hsaw
    | some block =>
      obtain ⟨hvouched, hkey⟩ := h.executed _ block hget
      rw [Option.getD_some, hkey]
      exact hvouched
  rw [execute]
  dsimp only
  split
  · exact answersSoundly_of_ne h (List.Subset.refl _) (by rintro ⟨⟩) latestSound_none
  · next blocks hfind =>
    obtain ⟨hchain, hfirst⟩ :=
      recursivelyFindParents_chain hsaw hvmHead (hparentHash ▸ hparent) hfind
    have hexec := executeBlocks_sound opts env (blocks ++ [headBlock]) none h hsaw hchain hfirst
    generalize executeBlocks opts env none (blocks ++ [headBlock]) s = result at hexec
    obtain ⟨outcome, s'⟩ := result
    have hsound : Sound s' := hexec.sound
    have hhistory : s.history ⊆ s'.history := hexec.history
    have hinvalid : s'.invalidBlocks = s.invalidBlocks := hexec.invalidBlocks
    -- what `validHash` answers of the state that the execution leaves
    have hlatest : ∀ hash, LatestSound env.view s.invalidBlocks s'.history
        (validHash opts env.view s' hash) := fun hash =>
      hinvalid ▸ latestSound_validHash opts hsound (hhistory hsaw) hash
    cases outcome with
    | done =>
      have hhead : Vouched s'.history payload.blockHash := by
        rw [← hhash]
        exact hexec.done rfl headBlock (List.mem_append_right _ List.mem_cons_self)
      refine ⟨hsound, hhistory, ?_, ?_⟩
      · intro response heq _
        obtain rfl := Option.some.inj heq
        exact ⟨congrArg some hhash, hhead⟩
      · intro response heq hash hsome
        obtain rfl := Option.some.inj heq
        obtain rfl := Option.some.inj hsome
        rw [hhash]
        exact .inl ⟨hhead, hvalid⟩
    | skipped => exact answersSoundly_of_ne hsound hhistory waiting_status_ne latestSound_none
    | threw =>
      dsimp only
      split
      · split
        · exact answersSoundly_none hsound hhistory
        · exact answersSoundly_of_ne hsound hhistory (by rintro ⟨⟩) (hlatest _)
      · refine answersSoundly_of_ne ?_ ?_ ?_ ?_
        · exact hsound.of_less (List.Subset.refl _) (fun _ _ hget => hget)
            (fun _ _ hget => get_of_get_delete hget) rfl
        · exact hhistory
        · rintro ⟨⟩
        · exact hlatest _

theorem withParent_sound (h : Sound s) (hsaw : .saw env.view ∈ s.history)
    (hhash : hashKey keccak256 m headBlock = payload.blockHash)
    (hparentHash : headBlock.header.parentHash.1 = payload.parentHash)
    (hparent : Vouched s.history payload.parentHash)
    (hvalid : s.invalidBlocks.get payload.blockHash = none) :
    AnswersSoundly env.view payload s (withParent opts env payload headBlock s) := by
  have hstash := h.stash headBlock
  have hof_stash : ∀ {result : Option PayloadStatus × EngineState keccak256 m},
      AnswersSoundly env.view payload (s.stash headBlock) result →
        AnswersSoundly env.view payload s result :=
    fun hresult => ⟨hresult.sound, hresult.history, hresult.valid, hresult.latest⟩
  rw [withParent]
  split
  · next response hskeleton =>
    obtain ⟨hne, hlatest⟩ := of_invalidSkeleton h hsaw hskeleton
    exact answersSoundly_of_ne h (List.Subset.refl _) hne hlatest
  · apply hof_stash
    dsimp only
    split
    · next hexecuted =>
      have hvouched := hstash.vouched_executed hsaw hexecuted
      refine ⟨hstash, List.Subset.refl _, ?_, ?_⟩
      · intro response heq _
        obtain rfl := Option.some.inj heq
        exact ⟨rfl, hvouched⟩
      · intro response heq hash hsome
        obtain rfl := Option.some.inj heq
        obtain rfl := Option.some.inj hsome
        exact .inl ⟨hvouched, hvalid⟩
    · split
      · next response hchain =>
        obtain ⟨hne, hlatest⟩ := of_invalidAlongChain hstash hsaw hchain
        exact answersSoundly_of_ne hstash (List.Subset.refl _) hne hlatest
      · exact execute_sound hstash hsaw hhash hparentHash hparent hvalid

theorem assembleBlock_eq_ok (h : assembleBlock keccak256 m payload = .ok headBlock) :
    payload.reassembled = some headBlock ∧ hashKey keccak256 m headBlock = payload.blockHash := by
  rw [assembleBlock] at h
  split at h
  · cases h
  · next block hblock =>
    split at h
    · cases h
    · next hhash =>
      split at h
      · cases h
      · obtain rfl := Except.ok.inj h
        exact ⟨hblock, not_not.1 hhash⟩

theorem assembleBlock_error_ne {status : Status}
    (h : assembleBlock keccak256 m payload = .error status) : status ≠ .VALID := by
  rintro rfl
  rw [assembleBlock] at h
  split at h
  · cases h
  · split at h
    · cases h
    · split at h <;> cases h

/-- What a call is evaluated from: its block is not marked invalid, and what it sees is noted. -/
def EngineState.entered (s : EngineState keccak256 m) (view : ChainView keccak256 m)
    (payload : Payload) : EngineState keccak256 m :=
  { s with
    invalidBlocks := s.invalidBlocks.delete payload.blockHash
    history := s.history ++ [.saw view] }

theorem newPayloadCore_sound (h : Sound s) :
    AnswersSoundly env.view payload (s.entered env.view payload)
      (newPayloadCore opts env payload s) := by
  have hentered : Sound (s.entered env.view payload) :=
    h.of_less (List.subset_append_left _ _) (fun _ _ hget => hget) (fun _ _ hget => hget) rfl
  have hsaw : .saw env.view ∈ (s.entered env.view payload).history :=
    List.mem_append_right _ List.mem_cons_self
  have hvalid : (s.entered env.view payload).invalidBlocks.get payload.blockHash = none := by
    rw [EngineState.entered, JsMap.get_delete, if_pos rfl]
  rw [newPayloadCore]
  dsimp only
  split
  · next status hassemble =>
    exact answersSoundly_of_ne hentered (List.Subset.refl _) (assembleBlock_error_ne hassemble)
      (latestSound_validHash opts hentered hsaw _)
  · next headBlock hassemble =>
    obtain ⟨hread, hhash⟩ := assembleBlock_eq_ok hassemble
    split
    · exact withoutParent_sound hentered hsaw
    · split
      · exact answersSoundly_of_ne hentered (List.Subset.refl _) (by rintro ⟨⟩)
          (latestSound_validHash opts hentered hsaw _)
      · split
        · exact withoutParent_sound hentered hsaw
        · next hexecuted =>
          have hparent := hentered.vouched_executed hsaw (Option.isSome_iff_ne_none.2
            fun hnone => hexecuted (Option.isNone_iff_eq_none.2 hnone))
          exact withParent_sound hentered hsaw hhash (payload.parentHash_eq _ hread) hparent hvalid

theorem reassembled_of_valid {response : PayloadStatus}
    (hanswer : (newPayloadCore opts env payload s).1 = some response)
    (hvalid : response.status = .VALID) :
    ∃ block, payload.reassembled = some block ∧ hashKey keccak256 m block = payload.blockHash := by
  rw [newPayloadCore] at hanswer
  dsimp only at hanswer
  split at hanswer
  · next status hassemble =>
    obtain rfl := Option.some.inj hanswer
    exact absurd hvalid (assembleBlock_error_ne hassemble)
  · next headBlock hassemble => exact ⟨headBlock, assembleBlock_eq_ok hassemble⟩

/-! ## Runs -/

theorem Sound.prune (h : Sound s) (env : ForkchoiceEnvironment keccak256 m) : Sound (s.prune env) :=
  h.of_less (List.Subset.refl _) (fun _ _ hget => get_of_get_prune hget)
    (fun _ _ hget => get_of_get_prune hget) rfl

theorem Sound.hashKey_known (h : Sound s) (hknown : s.known? view hash = some block) :
    hashKey keccak256 m block = hash := by
  rw [EngineState.known?] at hknown
  rcases Option.or_eq_some_iff.1 hknown with hknown | ⟨-, hget⟩
  · rcases Option.or_eq_some_iff.1 hknown with hget | ⟨-, hget⟩
    · exact h.remote hash block hget
    · exact view.skeletonBlock_hash hash block hget
  · exact view.getBlock_hash hash block hget

/-- **`forkchoiceUpdated` keeps the caches sound**: a payload is only started on a head that is
vouched for. -/
theorem Sound.forkchoiceUpdatedCore (h : Sound s) (version : Version)
    (env : ForkchoiceEnvironment keccak256 m) (headBlockHash : Bytes)
    (attributes : Option PayloadAttributes) :
    Sound (Engine.forkchoiceUpdatedCore version env headBlockHash attributes s) := by
  have hseen : Sound { s with history := s.history ++ [.saw env.view] } :=
    h.of_less (List.subset_append_left _ _) (fun _ _ hget => hget) (fun _ _ hget => hget) rfl
  rw [Engine.forkchoiceUpdatedCore]
  dsimp only
  split
  · exact hseen
  · split
    · exact hseen
    · next headBlock hknown =>
      split
      · exact hseen
      · split
        · exact hseen
        · next hexecuted =>
          split
          · exact hseen
          · split
            · exact hseen.prune env
            · next attributes =>
              -- only an executed head starts a payload
              have hhead : Vouched (s.history ++ [.saw env.view])
                  (headBlock.header.computeHash keccak256 m).1 := by
                have hkey : hashKey keccak256 m headBlock = headBlockHash :=
                  hseen.hashKey_known hknown
                change Vouched _ (hashKey keccak256 m headBlock)
                cases hget : s.executedBlocks.get headBlockHash with
                | some block =>
                  rw [hkey]
                  exact (hseen.executed headBlockHash block hget).1
                | none =>
                  rw [hget, Option.none_or] at hexecuted
                  cases hcanonical : validExecutedBlock env.view headBlock with
                  | none => exact absurd (Option.isNone_iff_eq_none.2 hcanonical) hexecuted
                  | some block =>
                    obtain rfl := eq_of_validExecutedBlock hcanonical
                    exact .canonical (List.mem_append_right _ List.mem_cons_self) hcanonical
              have hstarted : Sound { s with
                  history := s.history ++ [.saw env.view]
                  pendingPayloads := (Engine.forkchoiceUpdated keccak256 m version env.start
                    headBlock.header attributes s.pendingPayloads).2 } :=
                ⟨hseen.executed, hseen.remote,
                  hseen.pending.forkchoiceUpdated version env.start hhead⟩
              split
              · exact hstarted
              · exact hstarted.prune env

/-- **`getPayload` keeps the caches sound**: what is built is on the head its payload was started
on. -/
theorem Sound.getPayloadCore (h : Sound s) (genWithdrawalsTrieRoot : List Withdrawal → Bytes32)
    (env : BuildEnvironment) (payloadId : Bytes) :
    Sound (Engine.getPayloadCore genWithdrawalsTrieRoot env payloadId s) := by
  obtain ⟨hkept, hof⟩ :=
    @Kept.build keccak256 m genWithdrawalsTrieRoot _ _ h.pending env.added payloadId
  rw [Engine.getPayloadCore]
  generalize PendingBlock.build keccak256 genWithdrawalsTrieRoot m env.added payloadId
    s.pendingPayloads = result at hkept hof
  obtain ⟨outcome, pendingPayloads⟩ := result
  have hpending : Sound { s with pendingPayloads } := ⟨h.executed, h.remote, hkept⟩
  split
  · next block pendingPayloads' heq =>
    obtain ⟨rfl, rfl⟩ := Prod.mk.inj heq
    split
    · obtain ⟨request, hrequest, -, hbuilt⟩ := hof block rfl
      obtain ⟨acc, fee, -, hheader⟩ := hbuilt.header
      have hparent : block.header.parentHash.1 =
          (request.parentBlock.computeHash keccak256 m).1 := by
        rw [hheader]
        rfl
      refine hpending.set_executed (.built (List.mem_append_right _ List.mem_cons_self) ?_)
      rw [hparent]
      exact hrequest.mono (List.subset_append_left _ _)
    · exact hpending
  · next heq =>
    obtain ⟨-, rfl⟩ := Prod.mk.inj heq
    exact hpending

theorem Sound.step (h : Sound s) (opts : EngineOptions)
    (genWithdrawalsTrieRoot : List Withdrawal → Bytes32) (call : EngineCall keccak256 m) :
    Sound (call.step opts genWithdrawalsTrieRoot s) := by
  cases call with
  | newPayload env payload => exact (newPayloadCore_sound h).sound
  | forkchoiceUpdated version env headBlockHash attributes =>
    exact h.forkchoiceUpdatedCore version env headBlockHash attributes
  | getPayload env payloadId => exact h.getPayloadCore genWithdrawalsTrieRoot env payloadId

theorem sound_runEngine (opts : EngineOptions)
    (genWithdrawalsTrieRoot : List Withdrawal → Bytes32) (calls : List (EngineCall keccak256 m)) :
    Sound (runEngine opts genWithdrawalsTrieRoot calls) := by
  rw [runEngine]
  induction calls using List.reverseRecOn with
  | nil => exact sound_initial
  | append_singleton calls call ih =>
    rw [List.foldl_append]
    exact ih.step opts genWithdrawalsTrieRoot call

end

/-- **A valid answer is of a block that is vouched for**, after any calls: the payload is read as a
block with the given hash, and that block and its ancestors, down to one that was seen executed,
were executed or built. The latest valid hash is one that is vouched for and is not marked invalid,
if there is one. -/
theorem vouched_of_valid {keccak256 : Bytes → Bytes32} {m : HardforkManager} (opts : EngineOptions)
    (genWithdrawalsTrieRoot : List Withdrawal → Bytes32) (calls : List (EngineCall keccak256 m))
    (env : NewPayloadEnvironment keccak256 m) (payload : Payload) (response : PayloadStatus)
    (hanswer : (newPayloadCore opts env payload
      (runEngine opts genWithdrawalsTrieRoot calls)).1 = some response) :
    (response.status = .VALID →
      (∃ block, payload.reassembled = some block ∧
        hashKey keccak256 m block = payload.blockHash) ∧
      Vouched (newPayloadCore opts env payload
        (runEngine opts genWithdrawalsTrieRoot calls)).2.history payload.blockHash) ∧
    LatestSound env.view
      ((runEngine opts genWithdrawalsTrieRoot calls).invalidBlocks.delete payload.blockHash)
      (newPayloadCore opts env payload (runEngine opts genWithdrawalsTrieRoot calls)).2.history
      response.latestValidHash := by
  have hsound : AnswersSoundly env.view payload
      ((runEngine opts genWithdrawalsTrieRoot calls).entered env.view payload)
      (newPayloadCore opts env payload (runEngine opts genWithdrawalsTrieRoot calls)) :=
    newPayloadCore_sound (sound_runEngine opts genWithdrawalsTrieRoot calls)
  refine ⟨fun hvalid => ⟨reassembled_of_valid hanswer hvalid, ?_⟩, hsound.latest response hanswer⟩
  exact (hsound.valid response hanswer hvalid).2

/-! ## A header that is not checked -/

/-- A genesis block. -/
def sampleGenesisBlock : FrozenBlock := ⟨coreDefaults 0 0, [], [], none⟩

/-- A hash that begins as what is hashed does. -/
def sampleKeccak256 (bytes : Bytes) : Bytes32 :=
  ⟨(bytes ++ List.replicate 32 0).take 32, by simp⟩

/-- Its hash. -/
def sampleGenesisHash : Bytes32 := sampleGenesisBlock.getHash sampleKeccak256 sampleManager

/-- A second block, right after the genesis block. -/
def sampleSecondBlock : FrozenBlock :=
  ⟨{ coreDefaults 2 10 with parentHash := Miner.Bytes32.toField sampleGenesisHash }, [], [], none⟩

theorem parentHash_sampleSecondBlock :
    sampleSecondBlock.header.parentHash.1 = sampleGenesisHash.1 := by
  rw [sampleSecondBlock, Miner.Bytes32.toField]

/-- A chain of the genesis block. -/
def sampleView : ChainView sampleKeccak256 sampleManager where
  getBlock hash := if hash = sampleGenesisHash.1 then some sampleGenesisBlock else none
  canonicalHash number := if number = 0 then some sampleGenesisHash.1 else none
  iteratorHead := sampleGenesisBlock
  headersHeight := 0
  latest := some sampleGenesisBlock
  skeletonBlock _ := none
  fillStatus := none
  chainStatus := none
  headerContext := Miner.sampleContext sampleGenesisBlock.header
  getBlock_hash hash block hget := by
    split at hget
    · next heq =>
      obtain rfl := Option.some.inj hget
      exact heq.symm
    · cases hget
  skeletonBlock_hash hash block hget := by cases hget
  genesis hash block hget _ := by
    split at hget
    · next heq => rw [if_pos rfl, heq]
    · cases hget

/-- Everything goes through. -/
def sampleNewPayload : NewPayloadEnvironment sampleKeccak256 sampleManager :=
  ⟨sampleView, true, true, fun _ => true, fun _ => true, false⟩

/-- The defaults. -/
def sampleEngineOptions : EngineOptions := ⟨128, 2, 200⟩

/-- The second block's payload. -/
def sampleSecondPayload : Payload where
  blockHash := hashKey sampleKeccak256 sampleManager sampleSecondBlock
  parentHash := sampleGenesisHash.1
  reassembled := some sampleSecondBlock
  dataValid := true
  parentHash_eq block heq := by
    obtain rfl := Option.some.inj heq
    exact parentHash_sampleSecondBlock

theorem newPayloadCore_sampleSecondPayload :
    (newPayloadCore sampleEngineOptions sampleNewPayload sampleSecondPayload
      (runEngine sampleEngineOptions (fun _ => KECCAK256_NULL) [])).1 =
      some ⟨.VALID, some sampleSecondPayload.blockHash⟩ := by
  decide +kernel

/-- The second block's payload, to an engine that has just started. -/
theorem vouched_of_valid_sampleSecondPayload :
    Vouched (newPayloadCore sampleEngineOptions sampleNewPayload sampleSecondPayload
      (runEngine sampleEngineOptions (fun _ => KECCAK256_NULL) [])).2.history
      sampleSecondPayload.blockHash :=
  ((vouched_of_valid sampleEngineOptions (fun _ => KECCAK256_NULL) [] sampleNewPayload
    sampleSecondPayload _ newPayloadCore_sampleSecondPayload).1 rfl).2

/-- **A block that is valid but for its header**: it is not numbered after its parent, and is
answered to be valid. -/
theorem valid_sampleSecondPayload :
    (newPayloadCore sampleEngineOptions sampleNewPayload sampleSecondPayload
      (runEngine sampleEngineOptions (fun _ => KECCAK256_NULL) [])).1 =
      some ⟨.VALID, some sampleSecondPayload.blockHash⟩ ∧
    sampleSecondPayload.reassembled = some sampleSecondBlock ∧
    sampleView.getBlock sampleSecondBlock.header.parentHash.1 = some sampleGenesisBlock ∧
    (validateHeader sampleManager sampleSecondBlock.header
      (Miner.sampleContext sampleGenesisBlock.header) none).isOk = false := by
  refine ⟨newPayloadCore_sampleSecondPayload, ?_, by decide +kernel, by decide +kernel⟩
  rw [sampleSecondPayload]

end Engine

end TsEthereum
