import TsEthereum.Blockchain.Heads

/-!
# The head block

`getCanonicalHeadBlock` is to return a canonical block whose body is stored.
`HeadBlockKept` and `HeadBlockKeptByReset` say what a call has to find for
that: the head block moves to a block beside the canonical chain when its
total difficulty is higher, and to a header without a body when one becomes
canonical below it, when the ancestor it goes back to is one, or when the
chain is reset to one. A call that returns keeps the head block stored
exactly when it finds that (`headBlockStored_put_iff`,
`headBlockStored_reset_iff`), and so a run does in which all of them do
(`headBlockStored_of_run`).
-/

namespace TsEthereum.Blockchain

open TsEthereum

variable {cfg : Config} {H : Set BlockHeader} {c c' : Chain} {chain path : List BlockHeader}
variable {db : Database} {item : Item} {trackDeleted : Bool} {A x y : BlockHeader}

def getCanonicalHeadBlock (cfg : Config) (state : MutableState) : Reading Block :=
  getBlockByHash cfg state.headBlockHash

/-- **The head block is stored**: it is returned, its body is stored, and the
index has its hash at its number. -/
def HeadBlockStored (cfg : Config) (c : Chain) : Prop :=
  ∃ block, (getCanonicalHeadBlock cfg c.state).eval c.db = .ok block ∧
    (c.db.body block.header.number (cfg.hash block.header)).isSome ∧
    c.db.numberToHash block.header.number = some (cfg.hash block.header)

/-- A block made of a header and a body is accepted. -/
def Config.Accepts (cfg : Config) (x : BlockHeader) (body : BlockBodyBytes) : Prop :=
  cfg.headerDefect x = none ∧ cfg.blockDefect ⟨x, body⟩ = none

/-- **A block is stored**, with a body, and accepted. -/
def Config.HasBlock (cfg : Config) (db : Database) (x : BlockHeader) : Prop :=
  ∃ body, db.body x.number (cfg.hash x) = some body ∧ cfg.Accepts x body

/-- **The item can be read back**: with the body that is stored for it, or the
one that was if none is. -/
def Config.ReadsBack (cfg : Config) (db : Database) (item : Item) : Prop :=
  ∃ body, item.bodyToStore.or (db.body item.header.number (cfg.hash item.header)) = some body ∧
    cfg.Accepts item.header body

/-- **The first canonical ancestor** of a header, itself included. -/
inductive FirstCanonical (cfg : Config) (db : Database) : BlockHeader → BlockHeader → Prop where
  | here {x : BlockHeader} (h : db.numberToHash x.number = some (cfg.hash x)) :
      FirstCanonical cfg db x x
  | step {x y A : BlockHeader} (h : db.numberToHash x.number ≠ some (cfg.hash x))
      (hparent : db.Parent x y) (hA : FirstCanonical cfg db y A) : FirstCanonical cfg db x A

/-- **What a put has to find to keep the head block `x` stored.** One that
becomes canonical: the item can be read back if the head block goes to it or
is at it; and if a header alone replaces the head block, the ancestor the
head block goes back to has a block. One beside the canonical chain: if the
head block goes to the item, that is canonical; and if it goes to it or is at
it, the item can be read back. -/
def HeadBlockKept (cfg : Config) (c : Chain) (item : Item) (x : BlockHeader) : Prop :=
  item.header.number ≠ 0 → ∀ currentTdHeader currentTdBlock parentTd,
    ReadsDifficulties c item currentTdHeader currentTdBlock parentTd →
    (shouldBecomeCanonical item (item.header.difficulty + parentTd) currentTdHeader →
      ((item.isBlock = true ∨ item.header.number < x.number ∨ item.header = x) →
        cfg.ReadsBack c.db item) ∧
      (item.isBlock = false → x.number ≤ item.header.number →
        ∀ A, FirstCanonical cfg c.db item.header A → A.number < x.number →
          cfg.HasBlock c.db A)) ∧
    (¬ shouldBecomeCanonical item (item.header.difficulty + parentTd) currentTdHeader →
      (item.header.difficulty + parentTd > currentTdBlock ∧ item.isBlock = true →
        c.db.numberToHash item.header.number = some (cfg.hash item.header)) ∧
      ((item.header.difficulty + parentTd > currentTdBlock ∧ item.isBlock = true) ∨
          item.header = x →
        cfg.ReadsBack c.db item))

/-- **What a reset has to find**: the header it resets to has a block, if the
head block is above it. -/
def HeadBlockKeptByReset (cfg : Config) (c : Chain) (n : ℤ) (x : BlockHeader) : Prop :=
  ∀ hash header, c.db.numberToHash n = some hash → c.db.header n hash = some header →
    header.number < x.number → cfg.HasBlock c.db header

/-- **What a call has to find**, the head block being at `x`. -/
def Call.KeepsHeadBlock (cfg : Config) (c : Chain) (call : Call) (x : BlockHeader) : Prop :=
  match call.op with
  | .put item => HeadBlockKept cfg c item x
  | .resetCanonicalHead n => HeadBlockKeptByReset cfg c n x
  | .setIteratorHead _ _ => True

/-! ## Reading the head block -/

/-- **A block is returned where its header is stored**, and a body, or it has
an empty one, and both are accepted. -/
theorem getBlockAt_ok_iff {hash : Bytes} {n : ℤ} {block : Block} :
    (getBlockAt cfg hash n).eval db = .ok block ↔
      db.header n hash = some block.header ∧
        (db.body n hash).elim (emptyBody block.header) Except.ok = .ok block.body ∧
        cfg.Accepts block.header block.body := by
  unfold getBlockAt
  simp only [Await.eval_bind, bind_eq_ok, getHeader_ok, eval_lookupBody, Except.ok.injEq]
  constructor
  · rintro ⟨header, ⟨hheader, hdefect⟩, stored, rfl, body, hbody, hblock⟩
    split at hblock
    · next hnone =>
      cases hblock
      exact ⟨hheader, hbody, hdefect, hnone⟩
    · cases hblock
  · rintro ⟨hheader, hbody, hdefect, hnone⟩
    refine ⟨block.header, ⟨hheader, hdefect⟩, _, rfl, block.body, hbody, ?_⟩
    rw [hnone]
    rfl

theorem getBlockByHash_ok_iff {hash : Bytes} {block : Block} :
    (getBlockByHash cfg hash).eval db = .ok block ↔
      ∃ n : ℕ, db.hashToNumber hash = some n ∧ (getBlockAt cfg hash n).eval db = .ok block := by
  unfold getBlockByHash DBManager.hashToNumber
  simp only [Await.eval_bind, eval_lookupNumber, ok_bind]
  cases db.hashToNumber hash with
  | none => simp
  | some n => simp

/-- **The head block is stored exactly when it is one of the chain, and has a
block.** -/
theorem Kept.headBlockStored_iff (h : Kept cfg H c chain) (hH : cfg.Admits H) :
    HeadBlockStored cfg c ↔
      ∃ x ∈ chain, c.state.headBlockHash = cfg.hash x ∧ cfg.HasBlock c.db x := by
  unfold HeadBlockStored getCanonicalHeadBlock
  constructor
  · rintro ⟨block, hget, hbody, hcanonical⟩
    obtain ⟨n, -, hget⟩ := getBlockByHash_ok_iff.1 hget
    obtain ⟨hheader, hread, haccepts⟩ := getBlockAt_ok_iff.1 hget
    obtain ⟨hxH, hhash, hnumber⟩ := h.indexed.header _ _ _ hheader
    refine ⟨block.header,
      List.mem_of_getElem? ((h.indexed.numberToHash_eq_iff hH hxH).1 hcanonical), hhash.symm, ?_⟩
    -- the body that was read is the one stored at the number of the header
    have hlt := hH.number_lt _ hxH
    obtain ⟨body, hbody⟩ := Option.isSome_iff_exists.1 hbody
    have hsame : c.db.body n c.state.headBlockHash = some body := by
      rw [Database.body, ← hnumber, ← hhash, ← hbody, Database.body,
        asUintN64_natCast (n := block.header.number) (by omega)]
    rw [hsame] at hread
    rw [← Except.ok.inj hread] at haccepts
    exact ⟨body, hbody, haccepts⟩
  · rintro ⟨x, hx, hhash, body, hbody, haccepts⟩
    have hxH := h.indexed.mem hx
    refine ⟨⟨x, body⟩, getBlockByHash_ok_iff.2 ⟨x.number, ?_, getBlockAt_ok_iff.2 ⟨?_, ?_, haccepts⟩⟩,
      ?_, (h.indexed.numberToHash_eq_iff hH hxH).2 (h.indexed.branch.getElem?_number hx)⟩
    · rw [hhash]
      exact h.indexed.number x (h.indexed.stored x hx)
    · rw [hhash, Indexed.header_eq hH hxH]
      exact h.indexed.stored x hx
    · rw [hhash, hbody]
      rfl
    · rw [hbody]
      rfl

theorem Kept.eq_headBlock (h : Kept cfg H c chain) (hH : cfg.Admits H) (hx : x ∈ H)
    (hhash : c.state.headBlockHash = cfg.hash x) :
    (∃ y ∈ chain, c.state.headBlockHash = cfg.hash y ∧ cfg.HasBlock c.db y) ↔
      x ∈ chain ∧ cfg.HasBlock c.db x := by
  constructor
  · rintro ⟨y, hy, hyhash, hblock⟩
    obtain rfl := hH.injOn hx (h.indexed.mem hy) (hhash.symm.trans hyhash)
    exact ⟨hy, hblock⟩
  · rintro ⟨hx, hblock⟩
    exact ⟨x, hx, hhash, hblock⟩

/-! ## Blocks after a call -/

theorem batch_put_body {ops : List DBWrite} (hops : IndexOps ops) {td : ℕ} {state : MutableState}
    (n : ℕ) (hash : Bytes) :
    Store.batch db (itemOps cfg item td ++ ops ++ createSaveHeadOps state)
        (.record (.body n hash)) =
      if n = asUintN64 item.header.number ∧ hash = cfg.hash item.header then
        item.bodyToStore.or (db (.record (.body n hash)))
      else db (.record (.body n hash)) := by
  rw [batch_put_of_ne hops (by simp) (by simp)]
  split
  · next hsame =>
    cases hbody : item.bodyToStore with
    | none =>
      refine Store.batch_of_notMem fun v hv => ?_
      obtain ⟨-, body, hsome, -⟩ := mem_itemOps_body.1 hv
      rw [hbody] at hsome
      cases hsome
    | some body =>
      refine Store.batch_of_mem (fun v hv => ?_) (mem_itemOps_body.2 ⟨hsame, body, hbody, rfl⟩)
      obtain ⟨-, body', hsome, rfl⟩ := mem_itemOps_body.1 hv
      rw [← hsome, hbody]
      rfl
  · next hne => exact Store.batch_of_notMem fun v hv => hne (mem_itemOps_body.1 hv).1

/-- **What has a block after a put**: the item if it can be read back, and what
had one. -/
theorem hasBlock_put_iff (hH : cfg.Admits H) (hx : item.header ∈ H) (hy : y ∈ H)
    {ops : List DBWrite} (hops : IndexOps ops) {td : ℕ} {state : MutableState} :
    cfg.HasBlock (Store.batch db (itemOps cfg item td ++ ops ++ createSaveHeadOps state)) y ↔
      (item.header = y → cfg.ReadsBack db item) ∧ (item.header ≠ y → cfg.HasBlock db y) := by
  unfold Config.HasBlock Config.ReadsBack Database.body
  simp only [batch_put_body hops]
  by_cases hsame : item.header = y
  · subst hsame
    simp
  · have hne : ¬ (asUintN64 y.number = asUintN64 item.header.number ∧
        cfg.hash y = cfg.hash item.header) := fun heq => hsame (hH.injOn hx hy heq.2.symm)
    simp [hsame, hne]

theorem hasBlock_reset_iff {n : ℕ} {state : MutableState} :
    cfg.HasBlock (Store.batch db (switchOps cfg chain n [] ++ createSaveHeadOps state)) y ↔
      cfg.HasBlock db y := by
  unfold Config.HasBlock Database.body
  rw [Store.batch_append, batch_saveHeadOps, Store.batch_of_notMem]
  intro v hv
  rcases indexOps_switchOps _ _ _ hv with ⟨m, hm⟩ | ⟨hash, hm⟩
  · cases hm
  · cases hm

theorem firstCanonical_iff (h : Indexed cfg H db chain) (hH : cfg.Admits H) (hx : x ∈ H)
    (hj : Fork.Joins BlockHeader.number db.Parent chain x path A) {B : BlockHeader} :
    FirstCanonical cfg db x B ↔ B = A := by
  constructor
  · intro hB
    induction hj generalizing B with
    | here hcanonical =>
      cases hB with
      | here _ => rfl
      | step hne _ _ => exact absurd ((h.numberToHash_eq_iff hH hx).2 hcanonical) hne
    | step hne hparent _ _ ih =>
      cases hB with
      | here hcanonical => exact absurd ((h.numberToHash_eq_iff hH hx).1 hcanonical) hne
      | step _ hparent' hB =>
        obtain rfl := Option.some.inj (hparent.2.symm.trans hparent'.2)
        exact ih (h.parent hH hx hparent).1 hB
  · rintro rfl
    induction hj with
    | here hcanonical => exact .here ((h.numberToHash_eq_iff hH hx).2 hcanonical)
    | step hne hparent _ _ ih =>
      exact .step (mt (h.numberToHash_eq_iff hH hx).1 hne) hparent (ih (h.parent hH hx hparent).1)

/-! ## One call -/

/-- Where the head block goes when a put becomes canonical. -/
def headBlockTarget (item : Item) (x A : BlockHeader) : BlockHeader :=
  if item.isBlock ∨ item.header.number < x.number then item.header
  else if A.number < x.number then A
  else x

theorem movePointer_headBlock (h : Indexed cfg H c.db chain) (hH : cfg.Admits H)
    (hitem : item.header ∈ H)
    (hj : Fork.Joins BlockHeader.number c.db.Parent chain item.header path A) (hx : x ∈ chain)
    (hhash : c.state.headBlockHash = cfg.hash x) :
    movePointer cfg chain item.header A (pointed cfg item c.state).headBlockHash =
      cfg.hash (headBlockTarget item x A) := by
  unfold headBlockTarget pointed
  dsimp only
  rw [hhash]
  by_cases hblock : item.isBlock = true
  · rw [if_pos hblock, if_pos (.inl hblock)]
    exact movePointer_self h hH hitem hj
  · rw [if_neg hblock]
    rcases Nat.lt_or_ge item.header.number x.number with habove | hle
    · rw [if_pos (.inr habove)]
      exact movePointer_of_above h hH hitem hj hx habove
    · have hnot : ¬ (item.isBlock = true ∨ item.header.number < x.number) := by
        rintro (h' | h')
        · exact hblock h'
        · omega
      rw [if_neg hnot]
      rcases Nat.lt_or_ge A.number x.number with hA | hA
      · rw [if_pos hA]
        exact movePointer_of_replaced h hH hx hA hle
      · rw [if_neg (by omega)]
        exact movePointer_of_le h hH hx hj hA

theorem headBlockTarget_mem (h : Indexed cfg H db chain)
    (hj : Fork.Joins BlockHeader.number db.Parent chain item.header path A) (hx : x ∈ chain) :
    headBlockTarget item x A ∈ Fork.switch BlockHeader.number chain path A := by
  have hbelow {z : BlockHeader} (hz : z ∈ chain) (hle : z.number ≤ A.number) :
      z ∈ Fork.switch BlockHeader.number chain path A := by
    refine List.mem_of_getElem? (i := z.number) ?_
    rw [hj.getElem?_switch_of_le hle]
    exact h.branch.getElem?_number hz
  unfold headBlockTarget
  split
  · exact List.mem_of_getElem? hj.getElem?_switch_self
  · split
    · exact hbelow (List.mem_of_getElem? hj.ancestor_mem) (le_refl _)
    · exact hbelow hx (by omega)

theorem hasBlock_headBlockTarget_iff (h : Indexed cfg H c.db chain) (hH : cfg.Admits H)
    (hitem : item.header ∈ H)
    (hj : Fork.Joins BlockHeader.number c.db.Parent chain item.header path A) (hx : x ∈ chain)
    (hhas : cfg.HasBlock c.db x) {ops : List DBWrite} (hops : IndexOps ops) {td : ℕ}
    {state : MutableState} :
    cfg.HasBlock (c.db.batch (itemOps cfg item td ++ ops ++ createSaveHeadOps state))
        (headBlockTarget item x A) ↔
      ((item.isBlock = true ∨ item.header.number < x.number ∨ item.header = x) →
        cfg.ReadsBack c.db item) ∧
      (item.isBlock = false → x.number ≤ item.header.number →
        ∀ A, FirstCanonical cfg c.db item.header A → A.number < x.number →
          cfg.HasBlock c.db A) := by
  have hxH := h.mem hx
  have hAH := h.mem (List.mem_of_getElem? hj.ancestor_mem)
  have hnumber := hj.number_eq
  simp only [firstCanonical_iff h hH hitem hj, forall_eq]
  unfold headBlockTarget
  by_cases hto : item.isBlock = true ∨ item.header.number < x.number
  · rw [if_pos hto, hasBlock_put_iff hH hitem hitem hops]
    constructor
    · intro hread
      refine ⟨fun _ => hread.1 rfl, fun hblock hle => ?_⟩
      rcases hto with hto | hto
      · rw [hblock] at hto
        cases hto
      · omega
    · intro hread
      exact ⟨fun _ => hread.1 (hto.imp_right .inl), fun hne => absurd rfl hne⟩
  · rw [if_neg hto]
    obtain ⟨hblock, hle⟩ := not_or.1 hto
    rw [Bool.not_eq_true] at hblock
    split
    · next hA =>
      -- the head block is replaced, so neither it nor the ancestor is what is put
      have hneA : item.header ≠ A := by
        intro heq
        rw [heq] at hle
        omega
      have hnex : item.header ≠ x := by
        rintro rfl
        rcases hj.eq_or_mem with ⟨-, heq⟩ | hmem
        · exact hneA heq
        · exact hj.notMem_chain hmem (h.branch.getElem?_number hx)
      rw [hasBlock_put_iff hH hitem hAH hops]
      constructor
      · intro hread
        refine ⟨?_, fun _ _ _ => hread.2 hneA⟩
        rintro (h' | h' | h')
        · rw [hblock] at h'
          cases h'
        · exact absurd h' hle
        · exact absurd h' hnex
      · intro hread
        exact ⟨fun heq => absurd heq hneA, fun _ => hread.2 hblock (by omega) hA⟩
    · next hA =>
      rw [hasBlock_put_iff hH hitem hxH hops]
      constructor
      · intro hread
        refine ⟨?_, fun _ _ h' => absurd h' hA⟩
        rintro (h' | h' | h')
        · rw [hblock] at h'
          cases h'
        · exact absurd h' hle
        · exact hread.1 h'
      · intro hread
        exact ⟨fun heq => hread.1 (.inr (.inr heq)), fun _ => hhas⟩

/-- **A put that returned keeps the head block stored exactly when it found
what it has to.** -/
theorem headBlockStored_put_iff (h : Kept cfg H c chain) (hH : cfg.Admits H)
    (hitem : item.header ∈ H) (hx : x ∈ chain) (hhash : c.state.headBlockHash = cfg.hash x)
    (hhas : cfg.HasBlock c.db x) {state : MutableState}
    (hput : PutOutcome cfg trackDeleted c item state db) {state' : MutableState}
    (hheader : state'.headHeaderHash = state.headHeaderHash)
    (hblock : state'.headBlockHash = state.headBlockHash) :
    HeadBlockStored cfg ⟨state', db⟩ ↔ HeadBlockKept cfg c item x := by
  have hxH := h.indexed.mem hx
  cases hput with
  | genesis hzero _ =>
    have h' : Kept cfg H ⟨state', c.db⟩ chain := h.of_records hheader fun _ => rfl
    rw [h'.headBlockStored_iff hH, h'.eq_headBlock hH hxH (hblock.trans hhash)]
    exact ⟨fun _ hne => absurd hzero hne, fun _ => ⟨hx, hhas⟩⟩
  | @canonical hne tdHeader tdBlock tdParent hreads hshould A ancestorHeaders deleteResult
      rebuildResult hc =>
    obtain ⟨path, hread, hops, -, hhead, hmoved⟩ := h.canonicalises hH hitem hc
    have hj := hread.mono fun _ _ hread => hread.1
    rw [List.append_assoc (itemOps cfg item _), hops]
    have h' := h.switch hH hitem hread (item.header.difficulty + tdParent)
      (rebuildResult.state deleteResult.state) (hheader.trans hhead)
    have hmem := headBlockTarget_mem h.indexed hj hx
    have htarget := hblock.trans
      (hmoved.trans (movePointer_headBlock h.indexed hH hitem hj hx hhash))
    rw [h'.headBlockStored_iff hH, h'.eq_headBlock hH (h'.indexed.mem hmem) htarget,
      and_iff_right hmem,
      hasBlock_headBlockTarget_iff h.indexed hH hitem hj hx hhas (indexOps_switchOps _ _)]
    constructor
    · intro hkept _ tdHeader' tdBlock' tdParent' hreads'
      obtain rfl := Except.ok.inj (hreads.header.symm.trans hreads'.header)
      obtain rfl := Except.ok.inj (hreads.parent.symm.trans hreads'.parent)
      exact ⟨fun _ => hkept, fun hnot => absurd hshould hnot⟩
    · exact fun hkept => (hkept hne _ _ _ hreads).1 hshould
  | @beside hne tdHeader tdBlock tdParent hreads hshould =>
    have hops : IndexOps [createSetHashToNumberOp (cfg.hash item.header) item.header.number] := by
      intro op hop
      rw [List.mem_singleton.1 hop]
      exact .inr ⟨_, rfl⟩
    have h' := h.beside hH hitem (item.header.difficulty + tdParent)
      (besideState cfg item (item.header.difficulty + tdParent) tdBlock c.state) hheader
    have hkept_iff : HeadBlockKept cfg c item x ↔
        (item.header.difficulty + tdParent > tdBlock ∧ item.isBlock = true →
          item.header ∈ chain) ∧
        ((item.header.difficulty + tdParent > tdBlock ∧ item.isBlock = true) ∨ item.header = x →
          cfg.ReadsBack c.db item) := by
      have hcanonical : c.db.numberToHash item.header.number = some (cfg.hash item.header) ↔
          item.header ∈ chain := by
        rw [h.indexed.numberToHash_eq_iff hH hitem]
        exact ⟨List.mem_of_getElem?, h.indexed.branch.getElem?_number⟩
      rw [← hcanonical]
      constructor
      · exact fun hkept => (hkept hne _ _ _ hreads).2 hshould
      · intro hkept _ tdHeader' tdBlock' tdParent' hreads'
        obtain rfl := Except.ok.inj (hreads.header.symm.trans hreads'.header)
        obtain rfl := Except.ok.inj (hreads.block.symm.trans hreads'.block)
        obtain rfl := Except.ok.inj (hreads.parent.symm.trans hreads'.parent)
        exact ⟨fun h' => absurd h' hshould, fun _ => hkept⟩
    rw [h'.headBlockStored_iff hH, hkept_iff]
    unfold besideState at hblock
    dsimp only at hblock
    by_cases hto : item.header.difficulty + tdParent > tdBlock ∧ item.isBlock = true
    · rw [if_pos hto] at hblock
      rw [h'.eq_headBlock hH hitem hblock, hasBlock_put_iff hH hitem hitem hops]
      simp [hto]
    · rw [if_neg hto] at hblock
      rw [h'.eq_headBlock hH hxH (hblock.trans hhash), hasBlock_put_iff hH hitem hxH hops]
      simp [hto, hx, hhas]

/-- **A reset that returned keeps the head block stored exactly when it found
what it has to.** -/
theorem headBlockStored_reset_iff (h : Kept cfg H c chain) (hH : cfg.Admits H) (hx : x ∈ chain)
    (hhash : c.state.headBlockHash = cfg.hash x) (hhas : cfg.HasBlock c.db x) {n : ℤ}
    {hooks : Hook → Except ChainError Unit}
    (hreset : resetCanonicalHead cfg (plain hooks) trackDeleted n c = (.ok (), c')) :
    HeadBlockStored cfg c' ↔ HeadBlockKeptByReset cfg c n x := by
  obtain ⟨hash, header, deleteResult, hfound, hheader, hdeleted, rfl⟩ := resetCanonicalHead_ok hreset
  obtain ⟨hcanonical, rfl, -, hblock, hops, hkept⟩ := h.reset hH hfound hheader hdeleted
  have hmem := List.mem_of_getElem? hcanonical
  have hlength := (List.getElem?_eq_some_iff.1 hcanonical).1
  have h' := hkept { deleteResult.state with deletedBlocks := [] } rfl
  have htake {z : BlockHeader} (hz : z ∈ chain) (hle : z.number ≤ header.number) :
      z ∈ chain.take (header.number + 1) := by
    refine List.mem_of_getElem? (i := z.number) ?_
    rw [List.getElem?_take, if_pos (by omega)]
    exact h.indexed.branch.getElem?_number hz
  have hkept_iff : HeadBlockKeptByReset cfg c n x ↔
      (header.number < x.number → cfg.HasBlock c.db header) := by
    constructor
    · exact fun hkept => hkept _ _ hfound hheader
    · intro hkept hash' header' hfound' hheader'
      obtain rfl := Option.some.inj (hfound.symm.trans hfound')
      obtain rfl := Option.some.inj (hheader.symm.trans hheader')
      exact hkept
  rw [h'.headBlockStored_iff hH, hkept_iff]
  have hmoved : cfg.hash x ∈ (chain.drop (header.number + 1)).map cfg.hash ↔
      header.number < x.number := by
    rw [hash_mem_map_iff h.indexed hH (fun z hz => List.mem_of_mem_drop hz) (h.indexed.mem hx),
      h.indexed.branch.mem_drop_iff]
    exact ⟨fun hmem => hmem.2, fun hlt => ⟨hx, hlt⟩⟩
  rw [hhash, moveFrom] at hblock
  rcases Nat.lt_or_ge header.number x.number with hlt | hge
  · rw [if_pos (hmoved.2 hlt)] at hblock
    rw [h'.eq_headBlock hH (h.indexed.mem hmem) hblock, hops, hasBlock_reset_iff]
    simp [hlt, htake hmem (le_refl _)]
  · rw [if_neg (mt hmoved.1 (by omega))] at hblock
    rw [h'.eq_headBlock hH (h.indexed.mem hx) hblock, hops, hasBlock_reset_iff]
    simp [Nat.not_lt.2 hge, htake hx hge, hhas]

/-- **A call keeps the head block stored**, if it throws or finds what it has
to. -/
theorem headBlockStored_after (h : Kept cfg H c chain) (hH : cfg.Admits H) {call : Call}
    (hput : ∀ item, call.op = .put item → item.header ∈ H) (hquiet : Quiet call.hooks)
    (hstored : HeadBlockStored cfg c)
    (hkeeps : ∀ c' x, c.call cfg call = .ok c' → c.db.Canonical c.state.headBlockHash x →
      call.KeepsHeadBlock cfg c x) :
    HeadBlockStored cfg (c.after cfg call) := by
  obtain ⟨x, hx, hhash, hhas⟩ := (h.headBlockStored_iff hH).1 hstored
  have hcanonical := (h.canonical_iff hH).2 ⟨hx, hhash⟩
  cases hstep : c.step cfg call with
  | mk result c' =>
    cases result with
    | ok u =>
      have hcall := Chain.call_eq_ok_iff.2 hstep
      have hkeeps := hkeeps c' x hcall hcanonical
      rw [Chain.after_of_call hcall]
      obtain ⟨op, hooks, trackDeleted⟩ := call
      cases op with
      | put item =>
        obtain ⟨state, hout, hstate⟩ := putBlockOrHeader_ok hstep
        refine (headBlockStored_put_iff h hH (hput item rfl) hx hhash hhas hout ?_ ?_).2 hkeeps
        · rw [hstate]
        · rw [hstate]
      | resetCanonicalHead n => exact (headBlockStored_reset_iff h hH hx hhash hhas hstep).2 hkeeps
      | setIteratorHead tag headHash =>
        have h' : Kept cfg H c' chain := by
          rw [setIteratorHead_ok hstep]
          exact h.of_records rfl (batch_saveHeadOps _ _)
        refine (h'.headBlockStored_iff hH).2 ⟨x, hx, ?_, ?_⟩
        · rw [setIteratorHead_ok hstep]
          exact hhash
        · obtain ⟨body, hbody, haccepts⟩ := hhas
          refine ⟨body, ?_, haccepts⟩
          rw [setIteratorHead_ok hstep]
          unfold Database.body
          dsimp only
          rw [batch_saveHeadOps]
          exact hbody
    | error e =>
      -- neither the pointer nor the database has changed
      have hsame : (c.after cfg call).db = c.db ∧
          (c.after cfg call).state.headBlockHash = c.state.headBlockHash := by
        rw [Chain.after, hstep]
        obtain ⟨op, hooks, trackDeleted⟩ := call
        cases op with
        | put item =>
          obtain ⟨hdb, -, -, hblock⟩ := putBlockOrHeader_error hquiet hstep
          exact ⟨hdb, hblock⟩
        | resetCanonicalHead n => rw [resetCanonicalHead_error hquiet hstep]; exact ⟨rfl, rfl⟩
        | setIteratorHead tag headHash => cases hstep
      unfold HeadBlockStored getCanonicalHeadBlock
      rw [hsame.1, hsame.2]
      exact hstored

/-! ## Along a run -/

theorem headBlockStored_init (hgenesis : cfg.genesisBlock.header ∈ H) (hH : cfg.Admits H)
    (haccepts : cfg.Accepts cfg.genesisBlock.header cfg.genesisBlock.body) :
    HeadBlockStored cfg (Chain.init cfg) := by
  refine ((Kept.init hgenesis).headBlockStored_iff hH).2
    ⟨_, List.mem_singleton_self _, rfl, cfg.genesisBlock.body, ?_, haccepts⟩
  have hmem (v : Option BlockBodyBytes) :
      (⟨.record (.body (asUintN64 cfg.genesisBlock.header.number)
        (cfg.hash cfg.genesisBlock.header)), v⟩ : DBWrite) ∈ Chain.genesisOps cfg ↔
        v = some cfg.genesisBlock.body := by
    simp [Chain.genesisOps, createSetTDOp, createSetBlockOrHeaderOps, createSaveLookupOps,
      createSetHashToNumberOp]
  exact Store.batch_of_mem (fun v hv => (hmem v).1 hv) ((hmem _).2 rfl)

/-- **The head block is stored in every state of a run** in which every call
finds what it has to. -/
theorem headBlockStored_of_run (calls : List Call) (hcalls : Admissible cfg calls)
    (hquiet : ∀ call ∈ calls, Quiet call.hooks)
    (haccepts : cfg.Accepts cfg.genesisBlock.header cfg.genesisBlock.body)
    (hkeeps : ∀ pre call, pre ++ [call] <+: calls → ∀ c c' x,
      pre.foldl (Chain.after cfg) (Chain.init cfg) = c → c.call cfg call = .ok c' →
      c.db.Canonical c.state.headBlockHash x → call.KeepsHeadBlock cfg c x) :
    ∀ pre, pre <+: calls → HeadBlockStored cfg (pre.foldl (Chain.after cfg) (Chain.init cfg)) := by
  have hH := hcalls.admits
  intro pre
  induction pre using List.reverseRecOn with
  | nil => exact fun _ => headBlockStored_init List.mem_cons_self hH haccepts
  | append_singleton pre call ih =>
    intro hpre
    have hbefore : pre <+: calls := (List.prefix_append pre [call]).trans hpre
    obtain ⟨chain, h⟩ := (Kept.init List.mem_cons_self).foldl hH
      (fun call' hmem _ hop => mem_headersPut (hbefore.subset hmem) hop)
      fun call' hmem => hquiet call' (hbefore.subset hmem)
    have hcall : call ∈ calls := hpre.subset (List.mem_append_right _ (List.mem_singleton_self call))
    rw [List.foldl_concat]
    exact headBlockStored_after h hH (fun item hop => mem_headersPut hcall hop) (hquiet call hcall)
      (ih hbefore) fun c' x hok hx => hkeeps pre call hpre _ c' x rfl hok hx

/-! ## A block beside the chain -/

theorem headBlockKept_samplePut {header : BlockHeader} (tdHeader parentTd : ℕ)
    (hheader : (getTotalDifficulty c.state.headHeaderHash).eval c.db = .ok tdHeader)
    (hparent : (getParentTD header).eval c.db = .ok parentTd)
    (hlt : tdHeader < header.difficulty + parentTd) :
    (samplePut header).KeepsHeadBlock sampleConfig c x := by
  intro _ tdHeader' tdBlock' parentTd' hreads
  obtain rfl := Except.ok.inj (hheader.symm.trans hreads.header)
  obtain rfl := Except.ok.inj (hparent.symm.trans hreads.parent)
  exact ⟨fun _ => ⟨fun _ => ⟨_, rfl, rfl, rfl⟩, fun hblock => by cases hblock⟩,
    fun hnot => absurd (.inl hlt) hnot⟩

theorem headBlockStored_of_run_twoPuts : HeadBlockStored sampleConfig
    (twoPuts.foldl (Chain.after sampleConfig) (Chain.init sampleConfig)) := by
  refine headBlockStored_of_run twoPuts ⟨by decide +kernel, by decide +kernel⟩ ?_ ⟨rfl, rfl⟩ ?_
    twoPuts List.prefix_rfl
  · intro call hcall
    rcases List.mem_pair.1 hcall with rfl | rfl <;> exact ⟨fun _ _ _ => rfl, fun _ => rfl⟩
  · rintro pre call hpre c c' x rfl - -
    unfold twoPuts at hpre
    rcases concat_prefix_cons.1 hpre with ⟨rfl, rfl⟩ | ⟨pre, rfl, hrest⟩
    · exact headBlockKept_samplePut 1 1 (by decide +kernel)
        (by decide +kernel) (by decide)
    · rcases concat_prefix_cons.1 hrest with ⟨rfl, rfl⟩ | ⟨pre, rfl, hnil⟩
      · exact headBlockKept_samplePut 2 2 (by decide +kernel)
          (by decide +kernel) (by decide)
      · simp at hnil

/-- A heavy header alone, and a lighter block beside it. -/
def besidePuts : List Call :=
  [⟨.put ⟨⟨1, .proofOfWork⟩, sampleHeader [1] [0] 1 5, none⟩, fun _ => .ok (), false⟩,
    samplePut (sampleHeader [2] [0] 1 2)]

/-- **The head block is beside the chain**: the block is heavier than the head
block, and lighter than the head header. -/
theorem headBlock_beside_chain :
    ∃ c, run (Chain.call sampleConfig) (Chain.init sampleConfig) besidePuts = .ok c ∧
      ¬ HeadBlockStored sampleConfig c := by
  have hfinal : (run (Chain.call sampleConfig) (Chain.init sampleConfig) besidePuts).map
      (fun c => ((getCanonicalHeadBlock sampleConfig c.state).eval c.db, c.db.numberToHash 1)) =
        .ok (.ok ⟨sampleHeader [2] [0] 1 2, [.list [], .list []]⟩, some [1]) := by
    decide +kernel
  cases hc : run (Chain.call sampleConfig) (Chain.init sampleConfig) besidePuts with
  | error e =>
    rw [hc] at hfinal
    cases hfinal
  | ok c =>
    rw [hc] at hfinal
    obtain ⟨hhead, hone⟩ := Prod.mk.inj (Except.ok.inj hfinal)
    refine ⟨c, rfl, ?_⟩
    rintro ⟨block, hget, -, hcanonical⟩
    rw [hhead] at hget
    cases hget
    change c.db.numberToHash 1 = some [2] at hcanonical
    rw [hone] at hcanonical
    cases hcanonical

end TsEthereum.Blockchain
