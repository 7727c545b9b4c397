import TsEthereum.Blockchain.Manager
import TsEthereum.Blockchain.Walks

/-!
# What a call does to a plain chain

Each call of `blockchain-manager.ts`, taken apart once: what its reads found
when it returned, and the state and the batch it left
(`putBlockOrHeader_ok`, `resetCanonicalHead_ok`, `setIteratorHead_ok`); and
when it threw, that it left the database alone and its pointers with it,
unless the consensus threw after the batch (`putBlockOrHeader_error`).
-/

namespace TsEthereum.Blockchain

open TsEthereum

variable {cfg : Config} {hooks : Hook → Except ChainError Unit} {trackDeleted : Bool}
variable {c c' : Chain} {item : Item} {dbOps : List DBWrite}

/-! ## The plain backend -/

@[simp] theorem plain_await {α : Type} (p : Reading α) (c : Chain) :
    (plain hooks).await p c = (p.eval c.db, c) := rfl

@[simp] theorem plain_executeBatch (ops : List DBWrite) (c : Chain) :
    (plain hooks).executeBatch ops c = (.ok (), { c with db := c.db.batch ops }) := rfl

@[simp] theorem plain_hook (h : Hook) (c : Chain) : (plain hooks).hook h c = (hooks h, c) := rfl

theorem plain_await_ok {α : Type} {p : Reading α} {a : α}
    (h : (plain hooks).await p c = (.ok a, c')) : p.eval c.db = .ok a ∧ c' = c := by
  rw [plain_await] at h
  exact ⟨congrArg Prod.fst h, (congrArg Prod.snd h).symm⟩

theorem plain_hook_ok {h : Hook} {u : Unit} (hh : (plain hooks).hook h c = (.ok u, c')) :
    c' = c := by
  rw [plain_hook] at hh
  exact (congrArg Prod.snd hh).symm

theorem plain_hookIf_ok {b : Bool} {h : Hook} {u : Unit}
    (hh : (plain hooks).hookIf b h c = (.ok u, c')) : c' = c := by
  unfold Backend.hookIf at hh
  split at hh
  · exact plain_hook_ok hh
  · exact (congrArg Prod.snd hh).symm

/-! ## A call that returned -/

/-- What a put writes of its item: the total difficulty, the header, and the
body if there is one to store. -/
def itemOps (cfg : Config) (item : Item) (td : ℕ) : List DBWrite :=
  createSetTDOp td item.header.number (cfg.hash item.header) ::
    createSetBlockOrHeaderOps cfg item.header item.bodyToStore

theorem batch_saveHeadOps (db : Database) (state : MutableState) (r : Record) :
    Store.batch db (createSaveHeadOps state) (.record r) = db (.record r) := by
  refine Store.batch_of_notMem fun v hv => ?_
  simp [createSaveHeadOps] at hv

/-- The pointers once they are at the new head. -/
def pointed (cfg : Config) (item : Item) (state : MutableState) : MutableState :=
  { state with
    headHeaderHash := cfg.hash item.header
    headBlockHash := if item.isBlock then cfg.hash item.header else state.headBlockHash }

/-- The state once the references above are deleted. -/
def DeleteCanonicalResult.state (result : DeleteCanonicalResult) : MutableState where
  heads := result.updatedHeads
  headHeaderHash := result.updatedHeadHeaderHash
  headBlockHash := result.updatedHeadBlockHash
  deletedBlocks := result.deletedBlocks

/-- The state once the references below are rebuilt. -/
def RebuildCanonicalResult.state (result : RebuildCanonicalResult) (state : MutableState) :
    MutableState :=
  { state with heads := result.updatedHeads, headBlockHash := result.updatedHeadBlockHash }

/-- **What a put that becomes canonical reads.** -/
structure Canonicalises (cfg : Config) (trackDeleted : Bool) (c : Chain) (item : Item)
    (commonAncestor : BlockHeader) (ancestorHeaders : List BlockHeader)
    (deleteResult : DeleteCanonicalResult) (rebuildResult : RebuildCanonicalResult) : Prop where
  ancestor : (findCommonAncestor cfg item.header c.state.headHeaderHash).eval c.db =
    .ok (commonAncestor, ancestorHeaders)
  deleted : (createDeleteCanonicalChainOps cfg (item.header.number + 1) (cfg.hash item.header)
    (pointed cfg item c.state) trackDeleted).eval c.db = .ok deleteResult
  rebuilt : (createRebuildCanonicalOps cfg item.header deleteResult.state).eval c.db =
    .ok rebuildResult

theorem savePut_ok {commonAncestor : Option BlockHeader} {ancestorHeaders : List BlockHeader}
    (h : savePut (plain hooks) item dbOps commonAncestor ancestorHeaders c = (.ok (), c')) :
    c' = { c with db := c.db.batch (dbOps ++ createSaveHeadOps c.state) } := by
  unfold savePut at h
  simp only [Action.bind_eq_ok_iff] at h
  obtain ⟨state, c₁, h₁, u, c₂, h₂, h₃⟩ := h
  cases h₁
  cases h₂
  exact plain_hook_ok h₃

theorem putCanonical_ok
    (h : putCanonical cfg (plain hooks) trackDeleted item dbOps c = (.ok (), c')) :
    ∃ commonAncestor ancestorHeaders deleteResult rebuildResult,
      Canonicalises cfg trackDeleted c item commonAncestor ancestorHeaders deleteResult
        rebuildResult ∧
      c' = ⟨rebuildResult.state deleteResult.state,
        c.db.batch (dbOps ++ deleteResult.ops ++ rebuildResult.ops ++
          createSaveHeadOps (rebuildResult.state deleteResult.state))⟩ := by
  unfold putCanonical at h
  simp only [Action.bind_eq_ok_iff] at h
  obtain ⟨state, c₁, h₁, ⟨A, ancestorHeaders⟩, c₂, h₂, u₃, c₃, h₃, u₄, c₄, h₄, state₅, c₅, h₅,
    deleteResult, c₆, h₆, u₇, c₇, h₇, state₈, c₈, h₈, rebuildResult, c₉, h₉, u₁₀, c₁₀, h₁₀, h⟩ := h
  cases h₁
  obtain ⟨hancestor, rfl⟩ := plain_await_ok h₂
  cases h₃
  obtain rfl := plain_hookIf_ok h₄
  cases h₅
  obtain ⟨hdeleted, rfl⟩ := plain_await_ok h₆
  cases h₇
  cases h₈
  obtain ⟨hrebuilt, rfl⟩ := plain_await_ok h₉
  cases h₁₀
  exact ⟨A, ancestorHeaders, deleteResult, rebuildResult, ⟨hancestor, hdeleted, hrebuilt⟩,
    savePut_ok h⟩

/-- The state of a put beside the canonical chain. -/
def besideState (cfg : Config) (item : Item) (td currentTdBlock : ℕ) (state : MutableState) :
    MutableState :=
  { state with
    headBlockHash :=
      if td > currentTdBlock ∧ item.isBlock then cfg.hash item.header else state.headBlockHash }

theorem putBeside_ok {td currentTdBlock : ℕ}
    (h : putBeside cfg (plain hooks) item dbOps td currentTdBlock c = (.ok (), c')) :
    c' = ⟨besideState cfg item td currentTdBlock c.state,
      c.db.batch (dbOps ++ [createSetHashToNumberOp (cfg.hash item.header) item.header.number] ++
        createSaveHeadOps (besideState cfg item td currentTdBlock c.state))⟩ := by
  unfold putBeside at h
  simp only [Action.bind_eq_ok_iff] at h
  obtain ⟨u, c₁, h₁, h⟩ := h
  cases h₁
  exact savePut_ok h

/-- **The difficulties a put reads**: of the head header, of the head block,
and of its parent. -/
structure ReadsDifficulties (c : Chain) (item : Item)
    (currentTdHeader currentTdBlock parentTd : ℕ) : Prop where
  header : (getTotalDifficulty c.state.headHeaderHash).eval c.db = .ok currentTdHeader
  block : (getTotalDifficulty c.state.headBlockHash).eval c.db = .ok currentTdBlock
  parent : (getParentTD item.header).eval c.db = .ok parentTd

/-- **How a put that returned came out**: it was the genesis, it became
canonical, or it was put beside the canonical chain. -/
inductive PutOutcome (cfg : Config) (trackDeleted : Bool) (c : Chain) (item : Item) :
    MutableState → Database → Prop where
  | genesis (h : item.header.number = 0)
      (hhash : cfg.hash cfg.genesisBlock.header = cfg.hash item.header) :
      PutOutcome cfg trackDeleted c item c.state c.db
  | canonical (hne : item.header.number ≠ 0) {currentTdHeader currentTdBlock parentTd : ℕ}
      (hreads : ReadsDifficulties c item currentTdHeader currentTdBlock parentTd)
      (hshould : shouldBecomeCanonical item (item.header.difficulty + parentTd) currentTdHeader)
      {commonAncestor : BlockHeader} {ancestorHeaders : List BlockHeader}
      {deleteResult : DeleteCanonicalResult} {rebuildResult : RebuildCanonicalResult}
      (h : Canonicalises cfg trackDeleted c item commonAncestor ancestorHeaders deleteResult
        rebuildResult) :
      PutOutcome cfg trackDeleted c item (rebuildResult.state deleteResult.state)
        (c.db.batch (itemOps cfg item (item.header.difficulty + parentTd) ++ deleteResult.ops ++
          rebuildResult.ops ++ createSaveHeadOps (rebuildResult.state deleteResult.state)))
  | beside (hne : item.header.number ≠ 0) {currentTdHeader currentTdBlock parentTd : ℕ}
      (hreads : ReadsDifficulties c item currentTdHeader currentTdBlock parentTd)
      (hshould : ¬ shouldBecomeCanonical item (item.header.difficulty + parentTd)
        currentTdHeader) :
      PutOutcome cfg trackDeleted c item
        (besideState cfg item (item.header.difficulty + parentTd) currentTdBlock c.state)
        (c.db.batch (itemOps cfg item (item.header.difficulty + parentTd) ++
          [createSetHashToNumberOp (cfg.hash item.header) item.header.number] ++
          createSaveHeadOps
            (besideState cfg item (item.header.difficulty + parentTd) currentTdBlock c.state)))

theorem putUnderLock_ok
    (h : putUnderLock cfg (plain hooks) trackDeleted item c = (.ok (), c')) :
    PutOutcome cfg trackDeleted c item c'.state c'.db := by
  unfold putUnderLock at h
  split at h
  · next hzero =>
    split at h
    · next hhash =>
      cases h
      exact .genesis hzero hhash
    · cases h
  · next hne =>
    split at h
    · cases h
    · simp only [Action.bind_eq_ok_iff] at h
      obtain ⟨u₁, c₁, h₁, u₂, c₂, h₂, state, c₃, h₃, tdHeader, c₄, h₄, tdBlock, c₅, h₅, tdParent,
        c₆, h₆, h⟩ := h
      obtain rfl := plain_hookIf_ok h₁
      obtain rfl := plain_hookIf_ok h₂
      cases h₃
      obtain ⟨hheader, rfl⟩ := plain_await_ok h₄
      obtain ⟨hblock, rfl⟩ := plain_await_ok h₅
      obtain ⟨hparent, rfl⟩ := plain_await_ok h₆
      split at h
      · next hshould =>
        obtain ⟨A, ancestorHeaders, deleteResult, rebuildResult, hcanonical, rfl⟩ :=
          putCanonical_ok h
        exact .canonical hne ⟨hheader, hblock, hparent⟩ hshould hcanonical
      · next hshould =>
        rw [putBeside_ok h]
        exact .beside hne ⟨hheader, hblock, hparent⟩ hshould

theorem putBlockOrHeader_ok
    (h : putBlockOrHeader cfg (plain hooks) trackDeleted item c = (.ok (), c')) :
    ∃ state, PutOutcome cfg trackDeleted c item state c'.db ∧
      c'.state = { state with deletedBlocks := [] } := by
  unfold putBlockOrHeader at h
  simp only [Action.bind_eq_ok_iff] at h
  obtain ⟨old, c₁, h₁, u, c₂, h₂, h⟩ := h
  cases h₁
  cases h
  exact ⟨c₂.state, putUnderLock_ok (Action.onError_eq_ok_iff.1 h₂), rfl⟩

theorem resetCanonicalHead_ok {n : ℤ}
    (h : resetCanonicalHead cfg (plain hooks) trackDeleted n c = (.ok (), c')) :
    ∃ hash header deleteResult, c.db.numberToHash n = some hash ∧
      c.db.header n hash = some header ∧
      (createDeleteCanonicalChainOps cfg (n + 1) hash c.state trackDeleted).eval c.db =
        .ok deleteResult ∧
      c' = ⟨{ deleteResult.state with deletedBlocks := [] },
        c.db.batch (deleteResult.ops ++ createSaveHeadOps deleteResult.state)⟩ := by
  unfold resetCanonicalHead at h
  simp only [Action.bind_eq_ok_iff] at h
  obtain ⟨found, c₁, h₁, h⟩ := h
  obtain ⟨hfound, rfl⟩ := plain_await_ok h₁
  have hfound : c₁.db.numberToHash n = found := Except.ok.inj hfound
  cases found with
  | none => cases h
  | some hash =>
    simp only [Action.bind_eq_ok_iff] at h
    obtain ⟨header, c₂, h₂, state, c₃, h₃, deleteResult, c₄, h₄, u₅, c₅, h₅, u₆, c₆, h₆, u₇, c₇,
      h₇, h⟩ := h
    obtain ⟨hheader, rfl⟩ := plain_await_ok h₂
    cases h₃
    obtain ⟨hdeleted, rfl⟩ := plain_await_ok h₄
    cases h₅
    cases h₆
    obtain rfl := plain_hook_ok h₇
    cases h
    exact ⟨hash, header, deleteResult, hfound, (getHeader_ok.1 hheader).1, hdeleted, rfl⟩

theorem setIteratorHead_ok {tag : String} {headHash : Bytes}
    (h : setIteratorHead (plain hooks) tag headHash c = (.ok (), c')) :
    c' = ⟨{ c.state with heads := Function.update c.state.heads tag (some headHash) },
      c.db.batch (createSaveHeadOps
        { c.state with heads := Function.update c.state.heads tag (some headHash) })⟩ := by
  unfold setIteratorHead at h
  simp only [Action.bind_eq_ok_iff] at h
  obtain ⟨u, c₁, h₁, state, c₂, h₂, h⟩ := h
  cases h₁
  cases h₂
  cases h
  rfl

/-! ## A call that threw -/

theorem plain_spares_await {α : Type} (p : Reading α) :
    ((plain hooks).await p).Spares Chain.db := fun _ => rfl

theorem plain_spares_getState : (plain hooks).getState.Spares Chain.db := fun _ => rfl

theorem plain_spares_modify (f : MutableState → MutableState) :
    ((plain hooks).modify f).Spares Chain.db := fun _ => rfl

theorem plain_spares_hookIf (b : Bool) (h : Hook) :
    ((plain hooks).hookIf b h).Spares Chain.db := by
  intro c
  unfold Backend.hookIf
  split <;> rfl

/-- **The hooks after a batch return**: the consensus takes the new block, and
the transition of a reset. -/
structure Quiet (hooks : Hook → Except ChainError Unit) : Prop where
  newBlock : ∀ block commonAncestor ancestorHeaders,
    hooks (.newBlock block commonAncestor ancestorHeaders) = .ok ()
  transition : ∀ n, hooks (.transition n) = .ok ()

theorem savePut_sparesOnError (hquiet : Quiet hooks) (commonAncestor : Option BlockHeader)
    (ancestorHeaders : List BlockHeader) :
    (savePut (plain hooks) item dbOps commonAncestor ancestorHeaders).SparesOnError Chain.db := by
  intro c e c' h
  unfold savePut at h
  rcases Action.bind_eq_error_iff.1 h with h | ⟨state, c₁, h₁, h⟩
  · cases h
  · rcases Action.bind_eq_error_iff.1 h with h | ⟨u, c₂, h₂, h⟩
    · cases h
    · rw [plain_hook, hquiet.newBlock] at h
      cases h

theorem putUnderLock_sparesOnError (hquiet : Quiet hooks) :
    (putUnderLock cfg (plain hooks) trackDeleted item).SparesOnError Chain.db := by
  unfold putUnderLock
  split
  · split
    · intro c e c' h
      cases h
    · intro c e c' h
      cases h
      rfl
  · split
    · intro c e c' h
      cases h
      rfl
    · refine .bind (plain_spares_hookIf _ _) fun _ => .bind (plain_spares_hookIf _ _) fun _ =>
        .bind plain_spares_getState fun _ => .bind (plain_spares_await _) fun _ =>
        .bind (plain_spares_await _) fun _ => .bind (plain_spares_await _) fun _ => ?_
      dsimp only
      split
      · exact .bind plain_spares_getState fun _ => .bind (plain_spares_await _) fun _ =>
          .bind (plain_spares_modify _) fun _ => .bind (plain_spares_hookIf _ _) fun _ =>
          .bind plain_spares_getState fun _ => .bind (plain_spares_await _) fun _ =>
          .bind (plain_spares_modify _) fun _ => .bind plain_spares_getState fun _ =>
          .bind (plain_spares_await _) fun _ => .bind (plain_spares_modify _) fun _ =>
          savePut_sparesOnError hquiet _ _
      · exact .bind (plain_spares_modify _) fun _ => savePut_sparesOnError hquiet _ _

theorem putBlockOrHeader_error (hquiet : Quiet hooks) {e : ChainError}
    (h : putBlockOrHeader cfg (plain hooks) trackDeleted item c = (.error e, c')) :
    c'.db = c.db ∧ c'.state.heads = c.state.heads ∧
      c'.state.headHeaderHash = c.state.headHeaderHash ∧
      c'.state.headBlockHash = c.state.headBlockHash := by
  unfold putBlockOrHeader at h
  rcases Action.bind_eq_error_iff.1 h with h | ⟨old, c₁, h₁, h⟩
  · cases h
  · cases h₁
    rcases Action.bind_eq_error_iff.1 h with h | ⟨u, c₂, h₂, h⟩
    · obtain ⟨u, hu, rfl⟩ := Action.onError_eq_error_iff.1 h
      exact ⟨putUnderLock_sparesOnError hquiet c e u hu, rfl, rfl, rfl⟩
    · cases h

theorem resetCanonicalHead_error (hquiet : Quiet hooks) {n : ℤ} {e : ChainError}
    (h : resetCanonicalHead cfg (plain hooks) trackDeleted n c = (.error e, c')) : c' = c := by
  unfold resetCanonicalHead at h
  rcases Action.bind_eq_error_iff.1 h with hthrow | ⟨found, c₁, h₁, hrest⟩
  · cases hthrow
  clear h
  obtain ⟨-, rfl⟩ := plain_await_ok h₁
  cases found with
  | none =>
    cases hrest
    rfl
  | some hash =>
    rcases Action.bind_eq_error_iff.1 hrest with hthrow | ⟨header, c₂, h₂, hrest₂⟩
    · exact (congrArg Prod.snd hthrow).symm
    clear hrest
    obtain ⟨-, rfl⟩ := plain_await_ok h₂
    rcases Action.bind_eq_error_iff.1 hrest₂ with hthrow | ⟨state, c₃, h₃, hrest₃⟩
    · cases hthrow
    cases h₃
    rcases Action.bind_eq_error_iff.1 hrest₃ with hthrow | ⟨deleteResult, c₄, h₄, hrest₄⟩
    · exact (congrArg Prod.snd hthrow).symm
    -- from here on nothing throws
    exfalso
    rcases Action.bind_eq_error_iff.1 hrest₄ with hthrow | ⟨u₅, c₅, h₅, hrest₅⟩
    · cases hthrow
    rcases Action.bind_eq_error_iff.1 hrest₅ with hthrow | ⟨u₆, c₆, h₆, hrest₆⟩
    · cases hthrow
    rcases Action.bind_eq_error_iff.1 hrest₆ with hthrow | ⟨u₇, c₇, h₇, hrest₇⟩
    · rw [plain_hook, hquiet.transition] at hthrow
      cases hthrow
    · cases hrest₇

end TsEthereum.Blockchain
