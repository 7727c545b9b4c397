import TsEthereum.Blockchain.HeadBlock

/-!
# The iterator and reorgs while it runs

`iterator` hands block after block to `onBlock`, and lets puts in while
`onBlock` runs. It sees a reorg by the parent hash of the next block, once it
has a last block to compare with. Then it goes back to its head, which the
puts keep canonical (`Kept.after_head`), so every block it hands on follows
that or the last block (`Tracks.handed`). Before it has one, it does
not look: then the block follows only if the head it started from is still
canonical (`iterator_follows_iff`).
-/

namespace TsEthereum.Blockchain

open TsEthereum

variable {cfg : Config} {H : Set BlockHeader} {c : Chain} {chain : List BlockHeader}
variable {name : String} {x y : BlockHeader}

/-- **A callback**: the puts made while the lock is released, and how
`onBlock` ends. -/
structure Round where
  puts : List Call
  result : Except ChainError Unit

/-- **The iterator between two blocks**, with the head it started from. -/
structure Iterating where
  chain : Chain
  startHash : Bytes
  startNumber : ℕ
  nextBlockNumber : ℕ
  blocksRanCounter : ℕ
  lastBlock : Option Block

/-- **A block that is handed to `onBlock`**, and where the iterator was. -/
structure Handed where
  before : Iterating
  nextBlock : Block
  nextBlockNumber : ℕ
  reorg : Bool

/-- What an iterator came to: the blocks it handed to `onBlock`, how it ended
unless it is in a callback, and the chain. -/
structure Iteration where
  handed : List Handed
  ended : Option (Except ChainError ℕ)
  chain : Chain

/-- `error.message?.includes('not found in DB')`. -/
def ChainError.isNotFound (e : ChainError) : Bool :=
  decide ("not found in DB".toList <:+: e.message.toList)

/-- `this._state.heads[name] ?? this.genesisBlock.hash()`. -/
def iteratorHead (cfg : Config) (state : MutableState) (name : String) : Bytes :=
  (state.heads name).getD (cfg.hash cfg.genesisBlock.header)

section

variable (cfg : Config) (name : String)

/-- `getBlock` of a number. -/
def getBlock (blockNumber : ℤ) : Reading Block := do
  match ← getBlockByNumber cfg blockNumber with
  | none => Await.throw (.blockNotFound blockNumber)
  | some block => pure block

/-- `(await hashToNumber(headHash))!`, of which one more is taken: no number
throws. -/
def headBlockNumber (headHash : Bytes) : Reading ℕ := do
  match ← hashToNumber headHash with
  | none => Await.throw (.thrown "Cannot mix BigInt and other types, use explicit conversions")
  | some number => pure number

/-- `reorg`: the last block, if there is one, is not the parent of the next. -/
def Iterating.reorg (it : Iterating) (nextBlock : Block) : Bool :=
  match it.lastBlock with
  | some lastBlock => decide (cfg.hash lastBlock.header ≠ nextBlock.header.parentHash)
  | none => false

/-- **The block that is handed to `onBlock` next**, from the head again after a
reorg. -/
def nextToHand (it : Iterating) : Reading Handed := do
  let nextBlock ← getBlock cfg it.nextBlockNumber
  if it.reorg cfg nextBlock then do
    let number ← headBlockNumber (iteratorHead cfg it.chain.state name)
    let nextBlock ← getBlock cfg ((number + 1 : ℕ) : ℤ)
    pure ⟨it, nextBlock, number + 1, true⟩
  else pure ⟨it, nextBlock, it.nextBlockNumber, false⟩

/-- `reorgWhileOnBlock`: another block, or none, is at its number. -/
def reorgWhileOnBlock (h : Handed) : Reading Bool := do
  match ← (getBlockByNumber cfg h.nextBlockNumber).attempt with
  | some (some nextBlockMayBeReorged) =>
    pure (decide (cfg.hash nextBlockMayBeReorged.header ≠ cfg.hash h.nextBlock.header))
  | _ => pure true

/-- The iterator after the callback. -/
def Handed.after (h : Handed) (chain : Chain) (reorgWhileOnBlock : Bool) : Iterating :=
  if reorgWhileOnBlock then
    { h.before with
      chain := chain
      nextBlockNumber := h.nextBlockNumber
      blocksRanCounter := h.before.blocksRanCounter + 1 }
  else
    { h.before with
      chain :=
        { chain with
          state :=
            { chain.state with
              heads := Function.update chain.state.heads name (some (cfg.hash h.nextBlock.header)) } }
      nextBlockNumber := h.nextBlockNumber + 1
      blocksRanCounter := h.before.blocksRanCounter + 1
      lastBlock := some h.nextBlock }

/-- How the loop ends on an error. -/
def endOn (it : Iterating) (e : ChainError) : Except ChainError ℕ :=
  if e.isNotFound then .ok it.blocksRanCounter else .error e

/-- **The loop**, with one round for each callback; after the last it is in the
next callback. -/
def iterate (maxBlocks : Option ℤ) (rounds : List Round) (it : Iterating) : Iteration :=
  if maxBlocks = some (it.blocksRanCounter : ℤ) then
    ⟨[], some (.ok it.blocksRanCounter), it.chain⟩
  else
    match (nextToHand cfg name it).eval it.chain.db with
    | .error e => ⟨[], some (endOn it e), it.chain⟩
    | .ok h =>
      match rounds with
      | [] => ⟨[h], none, it.chain⟩
      | round :: rounds =>
        let chain := round.puts.foldl (Chain.after cfg) it.chain
        match round.result, (reorgWhileOnBlock cfg h).eval chain.db with
        | .error e, _ | .ok (), .error e => ⟨[h], some (endOn it e), chain⟩
        | .ok (), .ok reorged =>
          let rest := iterate maxBlocks rounds (h.after cfg name chain reorged)
          { rest with handed := h :: rest.handed }

/-- **`iterator`**, that releases the lock in its callbacks. -/
def iterator (c : Chain) (maxBlocks : Option ℤ) (rounds : List Round) : Iteration :=
  let headHash := iteratorHead cfg c.state name
  if ∃ n ∈ maxBlocks, n < 0 then
    ⟨[], some (.error
      (.thrown "If maxBlocks is provided, it has to be a non-negative number")), c⟩
  else
    match (headBlockNumber headHash).eval c.db with
    | .error e => ⟨[], some (.error e), c⟩
    | .ok number =>
      let result := iterate cfg name maxBlocks rounds ⟨c, headHash, number, number + 1, 0, none⟩
      -- `saveHeads`, once it ends
      { result with
        chain :=
          if result.ended.isSome then
            { result.chain with
              db := result.chain.db.batch (createSaveHeadOps result.chain.state) }
          else result.chain }

end

/-- **It follows**: its parent is the last block, or the head it started from
if there is none, or the head at that time. -/
def Handed.Follows (cfg : Config) (name : String) (h : Handed) : Prop :=
  h.nextBlock.header.parentHash =
      (h.before.lastBlock.elim h.before.startHash fun b => cfg.hash b.header) ∨
    h.nextBlock.header.parentHash = iteratorHead cfg h.before.chain.state name

/-- Every block that is handed on does. -/
def Iteration.Follow (cfg : Config) (name : String) (r : Iteration) : Prop :=
  ∀ h ∈ r.handed, h.Follows cfg name

/-- The head it started from is canonical, or its head now is at that number. -/
def Iterating.HeadCanonical (cfg : Config) (name : String) (it : Iterating) : Prop :=
  it.chain.db.numberToHash it.startNumber = some it.startHash ∨
    it.chain.db.numberToHash it.startNumber = some (iteratorHead cfg it.chain.state name)

/-! ## Where the puts leave the head -/

/-- The head of the iterator is on the chain. -/
def HeadOn (cfg : Config) (name : String) (c : Chain) (chain : List BlockHeader) : Prop :=
  ∃ y ∈ chain, iteratorHead cfg c.state name = cfg.hash y

theorem exists_mem_movePointer {path : List BlockHeader} {A : BlockHeader}
    (h : Indexed cfg H c.db chain) (hH : cfg.Admits H) (hx : x ∈ H)
    (hj : Fork.Joins BlockHeader.number c.db.Parent chain x path A) (hy : y ∈ chain) :
    ∃ z ∈ Fork.switch BlockHeader.number chain path A,
      movePointer cfg chain x A (cfg.hash y) = cfg.hash z := by
  have hkeep {z : BlockHeader} (hz : z ∈ chain) (hle : z.number ≤ A.number) :
      z ∈ Fork.switch BlockHeader.number chain path A := by
    refine List.mem_of_getElem? (i := z.number) ?_
    rw [hj.getElem?_switch_of_le hle]
    exact h.branch.getElem?_number hz
  rcases Nat.lt_or_ge x.number y.number with hlt | hge
  · exact ⟨x, List.mem_of_getElem? hj.getElem?_switch_self,
      movePointer_of_above h hH hx hj hy hlt⟩
  · rcases Nat.lt_or_ge A.number y.number with hA | hA
    · exact ⟨A, hkeep (List.mem_of_getElem? hj.ancestor_mem) (le_refl _),
        movePointer_of_replaced h hH hy hA hge⟩
    · exact ⟨y, hkeep hy hA, movePointer_of_le h hH hy hj hA⟩

theorem HeadOn.of_unset (h : Indexed cfg H c.db chain) (hunset : c.state.heads name = none) :
    HeadOn cfg name c chain :=
  ⟨_, List.mem_of_getElem? h.genesis, by rw [iteratorHead, hunset]; rfl⟩

theorem HeadOn.congr {c' : Chain} (hhead : HeadOn cfg name c chain)
    (hheads : c'.state.heads = c.state.heads) : HeadOn cfg name c' chain := by
  unfold HeadOn iteratorHead
  rw [hheads]
  exact hhead

theorem Kept.after_head (h : Kept cfg H c chain) (hH : cfg.Admits H) (name : String) {call : Call}
    {item : Item} (hop : call.op = .put item) (hx : item.header ∈ H) (hquiet : Quiet call.hooks) :
    ∃ chain', Kept cfg H (c.after cfg call) chain' ∧
      (HeadOn cfg name c chain → HeadOn cfg name (c.after cfg call) chain') := by
  obtain ⟨op, hooks, trackDeleted⟩ := call
  obtain rfl : op = .put item := hop
  cases hstep : c.step cfg ⟨.put item, hooks, trackDeleted⟩ with
  | mk r c' =>
    rw [Chain.after, hstep]
    cases r with
    | error e =>
      obtain ⟨hdb, hheads, hhead, -⟩ := putBlockOrHeader_error hquiet hstep
      exact ⟨chain, h.of_records hhead fun r => by rw [hdb], fun hon => hon.congr hheads⟩
    | ok u =>
      obtain ⟨state, hout, hstate⟩ := putBlockOrHeader_ok hstep
      obtain ⟨state', db⟩ := c'
      dsimp only at hout hstate ⊢
      subst hstate
      cases hout with
      | genesis _ _ => exact ⟨chain, h.of_records rfl fun _ => rfl, fun hon => hon.congr rfl⟩
      | canonical hne hreads hshould hc =>
        obtain ⟨path, hj, hops, hmoved, hhead, -⟩ := h.canonicalises hH hx hc
        rw [List.append_assoc (itemOps cfg item _), hops]
        have hj' := hj.mono fun _ _ hread => hread.1
        have hmove := congrFun hmoved name
        refine ⟨_, h.switch hH hx hj _ _ hhead, fun hon => ?_⟩
        obtain ⟨y, hy, hyhash⟩ := hon
        cases hset : c.state.heads name with
        | none => exact .of_unset (h.indexed.switch hH hx hj') (by rw [hmove, hset]; rfl)
        | some hash =>
          rw [iteratorHead, hset] at hyhash
          obtain ⟨z, hz, hzhash⟩ := exists_mem_movePointer h.indexed hH hx hj' hy
          refine ⟨z, hz, ?_⟩
          rw [iteratorHead, hmove, hset, ← hzhash, ← hyhash]
          rfl
      | beside hne hreads hshould =>
        exact ⟨chain, h.beside hH hx _ _ rfl, fun hon => hon.congr rfl⟩

theorem Kept.foldl_head (h : Kept cfg H c chain) (hH : cfg.Admits H) (name : String)
    {calls : List Call}
    (hputs : ∀ call ∈ calls, Quiet call.hooks ∧ ∃ item, call.op = .put item ∧ item.header ∈ H) :
    ∃ chain', Kept cfg H (calls.foldl (Chain.after cfg) c) chain' ∧
      (HeadOn cfg name c chain → HeadOn cfg name (calls.foldl (Chain.after cfg) c) chain') := by
  induction calls generalizing c chain with
  | nil => exact ⟨chain, h, id⟩
  | cons call calls ih =>
    obtain ⟨hquiet, item, hop, hx⟩ := hputs call List.mem_cons_self
    obtain ⟨chain₁, h₁, hon₁⟩ := h.after_head hH name hop hx hquiet
    obtain ⟨chain₂, h₂, hon₂⟩ := ih h₁ fun call' hmem => hputs call' (List.mem_cons_of_mem call hmem)
    exact ⟨chain₂, h₂, hon₂ ∘ hon₁⟩

/-! ## The numbers that are stored -/

/-- Every number stored for a hash is that of a header of `H`. -/
def Numbered (H : Set BlockHeader) (db : Database) : Prop :=
  ∀ hash n, db.hashToNumber hash = some n → ∃ x ∈ H, x.number = n

theorem Numbered.batch {db : Database} (h : Numbered H db) {ops : List DBWrite}
    (hops : ∀ hash (v : Option ℕ), (⟨.record (.hashToNumber hash), v⟩ : DBWrite) ∈ ops →
      ∃ x ∈ H, v = some x.number) : Numbered H (db.batch ops) := by
  intro hash n hn
  rcases Store.batch_cases db ops (.record (.hashToNumber hash)) with hold | hnew
  · exact h hash n (hold.symm.trans hn)
  · obtain ⟨x, hx, hv⟩ := hops hash _ hnew
    rw [Database.hashToNumber, hv] at hn
    exact ⟨x, hx, Option.some.inj hn⟩

/-- The item, and the heads, are no numbers; so the writes to the index are to
be seen to. -/
theorem Numbered.put {db : Database} (h : Numbered H db) {item : Item} {td : ℕ}
    {ops : List DBWrite} {state : MutableState}
    (hops : ∀ hash (v : Option ℕ), (⟨.record (.hashToNumber hash), v⟩ : DBWrite) ∈ ops →
      ∃ x ∈ H, v = some x.number) :
    Numbered H (db.batch (itemOps cfg item td ++ ops ++ createSaveHeadOps state)) := by
  refine h.batch fun hash v hv => ?_
  rcases List.mem_append.1 hv with hv | hv
  · rcases List.mem_append.1 hv with hv | hv
    · exact absurd hv (itemOps_hashToNumber v)
    · exact hops hash v hv
  · simp [createSaveHeadOps] at hv

theorem switchOps_numbered (hH : cfg.Admits H) {n : ℕ} {path : List BlockHeader}
    (hpath : ∀ y ∈ path, y ∈ H) (hash : Bytes) (v : Option ℕ)
    (hv : (⟨.record (.hashToNumber hash), v⟩ : DBWrite) ∈ switchOps cfg chain n path) :
    ∃ x ∈ H, v = some x.number := by
  obtain ⟨y, hy, -, rfl⟩ := mem_switchOps_hashToNumber.1 hv
  have := hH.number_lt y (hpath y hy)
  exact ⟨y, hpath y hy, by rw [asUintN64_natCast (by omega)]⟩

theorem Numbered.after (h : Kept cfg H c chain) (hH : cfg.Admits H) (hn : Numbered H c.db)
    {call : Call} (hput : ∀ item, call.op = .put item → item.header ∈ H)
    (hquiet : Quiet call.hooks) : Numbered H (c.after cfg call).db := by
  obtain ⟨op, hooks, trackDeleted⟩ := call
  cases hstep : c.step cfg ⟨op, hooks, trackDeleted⟩ with
  | mk r c' =>
    rw [Chain.after, hstep]
    cases op with
    | put item =>
      have hx := hput item rfl
      cases r with
      | error e =>
        rw [(putBlockOrHeader_error hquiet hstep).1]
        exact hn
      | ok u =>
        obtain ⟨state, hout, -⟩ := putBlockOrHeader_ok hstep
        obtain ⟨state', db⟩ := c'
        dsimp only at hout ⊢
        cases hout with
        | genesis _ _ => exact hn
        | canonical hne hreads hshould hc =>
          obtain ⟨path, hj, hops, -⟩ := h.canonicalises hH hx hc
          rw [List.append_assoc (itemOps cfg item _), hops]
          exact hn.put (switchOps_numbered hH fun y hy =>
            (h.indexed.path_mem hH hx (hj.mono fun _ _ hread => hread.1) hy).1)
        | beside hne hreads hshould =>
          refine hn.put fun hash v hv => ⟨_, hx, ?_⟩
          have := hH.number_lt _ hx
          simp only [createSetHashToNumberOp, List.mem_singleton, Sigma.mk.injEq] at hv
          rw [← asUintN64_natCast (n := item.header.number) (by omega)]
          obtain ⟨htarget, hv⟩ := hv
          cases htarget
          exact eq_of_heq hv
    | resetCanonicalHead n =>
      cases r with
      | error e =>
        rw [resetCanonicalHead_error hquiet hstep]
        exact hn
      | ok u =>
        obtain ⟨hash, header, deleteResult, hhash, hheader, hdeleted, rfl⟩ :=
          resetCanonicalHead_ok hstep
        rw [(h.reset hH hhash hheader hdeleted).2.2.2.2.1]
        refine hn.batch fun hash v hv => ?_
        rcases List.mem_append.1 hv with hv | hv
        · exact switchOps_numbered hH (by simp) hash v hv
        · simp [createSaveHeadOps] at hv
    | setIteratorHead tag headHash =>
      cases r with
      | error e => cases hstep
      | ok u =>
        rw [setIteratorHead_ok hstep]
        refine hn.batch fun hash v hv => ?_
        simp [createSaveHeadOps] at hv

theorem Numbered.foldl (h : Kept cfg H c chain) (hH : cfg.Admits H) (hn : Numbered H c.db)
    {calls : List Call} (hput : ∀ call ∈ calls, ∀ item, call.op = .put item → item.header ∈ H)
    (hquiet : ∀ call ∈ calls, Quiet call.hooks) :
    Numbered H (calls.foldl (Chain.after cfg) c).db := by
  induction calls generalizing c chain with
  | nil => exact hn
  | cons call calls ih =>
    have hput₁ := hput call List.mem_cons_self
    have hquiet₁ := hquiet call List.mem_cons_self
    obtain ⟨chain', h'⟩ := h.after hH hput₁ hquiet₁
    exact ih h' (hn.after h hH hput₁ hquiet₁)
      (fun call' hmem => hput call' (List.mem_cons_of_mem call hmem))
      fun call' hmem => hquiet call' (List.mem_cons_of_mem call hmem)

theorem Numbered.init (hgenesis : cfg.genesisBlock.header ∈ H) :
    Numbered H (Chain.init cfg).db := by
  have hempty : Numbered H (fun _ => none) := fun hash n hn => by cases hn
  refine hempty.batch fun hash v hv => ?_
  exact ⟨_, hgenesis, by rw [(Kept.mem_genesisOps_hashToNumber.1 hv).2, cfg.genesis_number]⟩

/-! ## A block that is handed on -/

theorem getBlockByNumber_ok {db : Database} {n : ℤ} {block : Block}
    (hget : (getBlockByNumber cfg n).eval db = .ok (some block)) :
    ∃ hash, db.numberToHash n = some hash ∧ db.header n hash = some block.header := by
  simp only [getBlockByNumber, Await.eval_bind, eval_numberToHash, ok_bind] at hget
  cases hhash : db.numberToHash n with
  | none =>
    rw [hhash] at hget
    cases hget
  | some hash =>
    rw [hhash] at hget
    simp only [Await.eval_bind, bind_eq_ok] at hget
    obtain ⟨block', hread, hsame⟩ := hget
    cases hsame
    exact ⟨hash, rfl, (getBlockAt_ok_iff.1 hread).1⟩

theorem getBlock_ok {db : Database} {n : ℤ} {block : Block}
    (hget : (getBlock cfg n).eval db = .ok block) :
    (getBlockByNumber cfg n).eval db = .ok (some block) := by
  simp only [getBlock, Await.eval_bind, bind_eq_ok] at hget
  obtain ⟨found, hread, hsame⟩ := hget
  cases found with
  | none => cases hsame
  | some block' =>
    cases hsame
    exact hread

theorem Kept.parentHash_eq (h : Kept cfg H c chain) (hH : cfg.Admits H) {n : ℕ}
    (hn : n + 1 < 2 ^ 64) {block : Block}
    (hget : (getBlock cfg ((n + 1 : ℕ) : ℤ)).eval c.db = .ok block) :
    c.db.numberToHash n = some block.header.parentHash := by
  obtain ⟨hash, hhash, hheader⟩ := getBlockByNumber_ok (getBlock_ok hget)
  have hx := h.indexed.canonical hH hn hhash hheader
  have hlt := (List.getElem?_eq_some_iff.1 hx).1
  have hy := List.getElem?_eq_getElem (show n < chain.length by omega)
  have hlinked := h.indexed.branch.linked n _ _ hy hx
  rw [h.indexed.index n (by omega), hy, Option.map_some,
    (h.indexed.parent hH (h.indexed.mem (List.mem_of_getElem? hx)) hlinked).2.1]

/-- What the iterator keeps track of: the chain is kept, its head is on it once
it has completed a block, and before that it is at the first block. -/
structure Tracks (cfg : Config) (H : Set BlockHeader) (name : String) (it : Iterating)
    (chain : List BlockHeader) : Prop where
  kept : Kept cfg H it.chain chain
  head : it.lastBlock ≠ none → HeadOn cfg name it.chain chain
  number : ∃ x ∈ H, it.nextBlockNumber = x.number + 1
  first : it.lastBlock = none → it.nextBlockNumber = it.startNumber + 1

theorem headBlockNumber_ok {db : Database} {headHash : Bytes} {number : ℕ}
    (hread : (headBlockNumber headHash).eval db = .ok number) :
    db.hashToNumber headHash = some number := by
  simp only [headBlockNumber, Await.eval_bind, eval_hashToNumber, ok_bind] at hread
  cases hfound : db.hashToNumber headHash with
  | none =>
    rw [hfound] at hread
    cases hread
  | some number' =>
    rw [hfound] at hread
    rw [Except.ok.inj hread]

/-- **How the next block is found**: at the next number, its parent being the
last block if there is one; or above the head. -/
theorem nextToHand_ok {it : Iterating} {h : Handed}
    (hnext : (nextToHand cfg name it).eval it.chain.db = .ok h) :
    h.before = it ∧ (getBlock cfg h.nextBlockNumber).eval it.chain.db = .ok h.nextBlock ∧
      ((h.nextBlockNumber = it.nextBlockNumber ∧
          ∀ b, it.lastBlock = some b → h.nextBlock.header.parentHash = cfg.hash b.header) ∨
        it.lastBlock ≠ none ∧ ∃ number,
          it.chain.db.hashToNumber (iteratorHead cfg it.chain.state name) = some number ∧
            h.nextBlockNumber = number + 1) := by
  simp only [nextToHand, Await.eval_bind, bind_eq_ok] at hnext
  obtain ⟨nextBlock, hget, hnext⟩ := hnext
  split at hnext
  · next hreorg =>
    simp only [Await.eval_bind, bind_eq_ok] at hnext
    obtain ⟨number, hnumber, block, hblock, hsame⟩ := hnext
    cases hsame
    refine ⟨rfl, hblock, .inr ⟨fun hnone => ?_, number, headBlockNumber_ok hnumber, rfl⟩⟩
    rw [Iterating.reorg, hnone] at hreorg
    cases hreorg
  · next hreorg =>
    cases hnext
    refine ⟨rfl, hget, .inl ⟨rfl, fun b hlast => ?_⟩⟩
    rw [Iterating.reorg, hlast] at hreorg
    by_contra hne
    exact hreorg (decide_eq_true (Ne.symm hne))

theorem reorgWhileOnBlock_false {db : Database} {h : Handed}
    (hreorged : (reorgWhileOnBlock cfg h).eval db = .ok false) :
    ∃ block, (getBlockByNumber cfg h.nextBlockNumber).eval db = .ok (some block) ∧
      cfg.hash block.header = cfg.hash h.nextBlock.header := by
  simp only [reorgWhileOnBlock, Await.eval_bind, Await.eval_attempt] at hreorged
  cases hread : (getBlockByNumber cfg h.nextBlockNumber).eval db with
  | error e =>
    rw [hread] at hreorged
    cases hreorged
  | ok found =>
    rw [hread] at hreorged
    cases found with
    | none => cases hreorged
    | some block =>
      refine ⟨block, rfl, ?_⟩
      simp only [ok_bind, Await.eval_pure, Except.ok.injEq, decide_eq_false_iff_not,
        not_not] at hreorged
      exact hreorged

/-- **A block that is handed on follows**, unless the iterator has completed
none: then if the head is still canonical. -/
theorem Tracks.handed (hH : cfg.Admits H) {it : Iterating} (t : Tracks cfg H name it chain)
    {h : Handed} (hnext : (nextToHand cfg name it).eval it.chain.db = .ok h) :
    (∃ x ∈ H, h.nextBlockNumber = x.number + 1) ∧
      (it.lastBlock = none → h.nextBlockNumber = it.startNumber + 1) ∧
      (h.Follows cfg name ↔ (it.lastBlock = none → it.HeadCanonical cfg name)) := by
  obtain ⟨hbefore, hget, ⟨hnumber, hparent⟩ | ⟨hlast, number, hhead, hnumber⟩⟩ :=
    nextToHand_ok hnext
  · rw [hnumber]
    refine ⟨t.number, t.first, ?_⟩
    unfold Handed.Follows
    rw [hbefore]
    cases hlast : it.lastBlock with
    | some b => exact iff_of_true (.inl (hparent b hlast)) fun hnone => by cases hnone
    | none =>
      have hfirst := t.first hlast
      obtain ⟨x, hx, hxnumber⟩ := t.number
      have := hH.number_lt x hx
      rw [hnumber, hfirst] at hget
      have hbelow := t.kept.parentHash_eq hH (by omega) hget
      simp only [Iterating.HeadCanonical, hbelow, Option.some.injEq, true_imp_iff, Option.elim_none]
  · -- the head is on the chain, so the block above it is its child
    obtain ⟨y, hy, hyhash⟩ := t.head hlast
    have hyH := t.kept.indexed.mem hy
    rw [hyhash, t.kept.indexed.number y (t.kept.indexed.stored y hy)] at hhead
    obtain rfl := Option.some.inj hhead
    have := hH.number_lt y hyH
    rw [hnumber] at hget
    have hbelow := t.kept.parentHash_eq hH this hget
    rw [(t.kept.indexed.numberToHash_eq_iff hH hyH).2
      (t.kept.indexed.branch.getElem?_number hy)] at hbelow
    refine ⟨⟨y, hyH, hnumber⟩, fun hnone => absurd hnone hlast,
      iff_of_true (.inr ?_) fun hnone => absurd hnone hlast⟩
    rw [hbefore, hyhash]
    exact (Option.some.inj hbelow).symm

theorem Tracks.after (hH : cfg.Admits H) {it : Iterating} (t : Tracks cfg H name it chain)
    {h : Handed} (hnext : (nextToHand cfg name it).eval it.chain.db = .ok h) {c : Chain}
    {chain' : List BlockHeader} (hkept : Kept cfg H c chain')
    (hhead : HeadOn cfg name it.chain chain → HeadOn cfg name c chain') {reorged : Bool}
    (hreorged : (reorgWhileOnBlock cfg h).eval c.db = .ok reorged) :
    Tracks cfg H name (h.after cfg name c reorged) chain' := by
  obtain ⟨⟨x, hx, hnumber⟩, hfirst, -⟩ := t.handed hH hnext
  have hbefore := (nextToHand_ok hnext).1
  cases reorged with
  | true =>
    simp only [Handed.after, if_true, hbefore]
    exact ⟨hkept, fun hlast => hhead (t.head hlast), ⟨x, hx, hnumber⟩, hfirst⟩
  | false =>
    -- the block is still the canonical one at its number
    obtain ⟨block, hread, hsame⟩ := reorgWhileOnBlock_false hreorged
    obtain ⟨hash, hhash, hheader⟩ := getBlockByNumber_ok hread
    have := hH.number_lt x hx
    have hmem := hkept.indexed.canonical hH (by omega) hhash hheader
    simp only [Handed.after, Bool.false_eq_true, if_false, hbefore]
    refine ⟨hkept.of_records rfl fun _ => rfl, fun _ => ?_, ?_, fun hnone => by cases hnone⟩
    · refine ⟨_, List.mem_of_getElem? hmem, ?_⟩
      simp only [iteratorHead, Function.update_self, Option.getD_some, hsame]
    · exact ⟨_, hkept.indexed.mem (List.mem_of_getElem? hmem), by
        rw [hkept.indexed.branch.number_eq _ _ hmem]⟩

theorem iterate_follows (hH : cfg.Admits H) (maxBlocks : Option ℤ) {rounds : List Round}
    (hputs : ∀ round ∈ rounds, ∀ call ∈ round.puts,
      Quiet call.hooks ∧ ∃ item, call.op = .put item ∧ item.header ∈ H)
    {it : Iterating} (t : Tracks cfg H name it chain) :
    ∀ h ∈ (iterate cfg name maxBlocks rounds it).handed,
      h.Follows cfg name ↔ (h.before.lastBlock = none → h.before.HeadCanonical cfg name) := by
  induction rounds generalizing it chain with
  | nil =>
    intro h hmem
    rw [iterate] at hmem
    split at hmem
    · cases hmem
    · cases hnext : (nextToHand cfg name it).eval it.chain.db with
      | error e =>
        rw [hnext] at hmem
        cases hmem
      | ok h' =>
        rw [hnext] at hmem
        rw [List.mem_singleton.1 hmem, (nextToHand_ok hnext).1]
        exact (t.handed hH hnext).2.2
  | cons round rounds ih =>
    intro h hmem
    rw [iterate] at hmem
    split at hmem
    · cases hmem
    · cases hnext : (nextToHand cfg name it).eval it.chain.db with
      | error e =>
        rw [hnext] at hmem
        cases hmem
      | ok h' =>
        rw [hnext] at hmem
        dsimp only at hmem
        have hfirst : h = h' → (h.Follows cfg name ↔
            (h.before.lastBlock = none → h.before.HeadCanonical cfg name)) := by
          rintro rfl
          rw [(nextToHand_ok hnext).1]
          exact (t.handed hH hnext).2.2
        split at hmem
        · exact hfirst (List.mem_singleton.1 hmem)
        · exact hfirst (List.mem_singleton.1 hmem)
        · next reorged hresult hreorged =>
          rcases List.mem_cons.1 hmem with heq | hmem
          · exact hfirst heq
          · obtain ⟨chain', hkept, hhead⟩ := t.kept.foldl_head hH name (hputs round List.mem_cons_self)
            exact ih (fun round' hmem' => hputs round' (List.mem_cons_of_mem round hmem'))
              (t.after hH hnext hkept hhead hreorged) h hmem

/-- **The iterator and reorgs**: in every run of it, interleaved with puts in
its callbacks, every block that is handed on is a child of the last block, or
of the head it started from if there is none, or of its head; exactly when,
as long as it has completed none, the head it started from is canonical, or
its head now is at that number, when a block is handed on. -/
theorem iterator_follows_iff (calls : List Call) (name : String) (maxBlocks : Option ℤ)
    (rounds : List Round) (hreached : calls.foldl (Chain.after cfg) (Chain.init cfg) = c)
    (hcalls : Admissible cfg (calls ++ rounds.flatMap Round.puts))
    (hquiet : ∀ call ∈ calls ++ rounds.flatMap Round.puts, Quiet call.hooks)
    (hputs : ∀ call ∈ rounds.flatMap Round.puts, ∃ item, call.op = .put item) :
    (iterator cfg name c maxBlocks rounds).Follow cfg name ↔
      ∀ h ∈ (iterator cfg name c maxBlocks rounds).handed,
        h.before.lastBlock = none → h.before.HeadCanonical cfg name := by
  have hH := hcalls.admits
  have hput : ∀ call ∈ calls, ∀ item, call.op = .put item →
      item.header ∈ {x | x ∈ headersPut cfg (calls ++ rounds.flatMap Round.puts)} :=
    fun _ hcall _ hop => mem_headersPut (List.mem_append_left _ hcall) hop
  have hquiet₁ : ∀ call ∈ calls, Quiet call.hooks :=
    fun call hcall => hquiet call (List.mem_append_left _ hcall)
  have hinit : Kept cfg {x | x ∈ headersPut cfg (calls ++ rounds.flatMap Round.puts)}
      (Chain.init cfg) _ := Kept.init List.mem_cons_self
  obtain ⟨chain, hkept⟩ := hinit.foldl hH hput hquiet₁
  have hnumbered := (Numbered.init List.mem_cons_self).foldl hinit hH hput hquiet₁
  rw [hreached] at hkept hnumbered
  refine forall₂_congr fun h hmem => ?_
  unfold iterator at hmem
  dsimp only at hmem
  split at hmem
  · cases hmem
  · split at hmem
    · cases hmem
    · next number hnumber =>
      obtain ⟨x, hx, hxnumber⟩ := hnumbered _ _ (headBlockNumber_ok hnumber)
      refine iterate_follows hH maxBlocks (fun round hround call hcall => ?_)
        (t := ⟨hkept, fun hlast => absurd rfl hlast, ⟨x, hx, by rw [hxnumber]⟩, fun _ => rfl⟩) h hmem
      have hcall' := List.mem_flatMap.2 ⟨round, hround, hcall⟩
      obtain ⟨item, hop⟩ := hputs call hcall'
      exact ⟨hquiet call (List.mem_append_right _ hcall'), item, hop,
        mem_headersPut (List.mem_append_right _ hcall') hop⟩

/-- A heavier block 2 is put while block 2 is handed on, and is next. -/
def heavierSecond : List Round := [⟨[samplePut (heavier 2 [1])], .ok ()⟩]

theorem iterator_follows_iff_heavierSecond :
    (iterator sampleConfig "vm" (iteratedChain [1]) none heavierSecond).Follow
      sampleConfig "vm" := by
  refine (iterator_follows_iff (iterated [1]) "vm" none heavierSecond rfl
    ⟨by decide +kernel, by decide +kernel⟩ ?_ ?_).2 ?_
  · intro call hcall
    rcases List.mem_append.1 hcall with hcall | hcall
    · exact quiet_iterated [1] call hcall
    · rw [List.mem_singleton.1 hcall]
      exact ⟨fun _ _ _ => rfl, fun _ => rfl⟩
  · intro call hcall
    rw [List.mem_singleton.1 hcall]
    exact ⟨_, rfl⟩
  · unfold Iterating.HeadCanonical
    decide +kernel

/-- A heavier block 1 is put while block 2 is handed on, and a child of it. -/
def heavierFirst : List Round :=
  [⟨[samplePut (heavier 1 [0]), samplePut (sampleHeader [4] [3] 2 1)], .ok ()⟩]

/-- **The iterator skips block 1**: its new block 2 is handed on, a child of a
block that was not, and is not the head. -/
theorem iterator_skips :
    ¬ (iterator sampleConfig "vm" (iteratedChain [1]) none heavierFirst).Follow
      sampleConfig "vm" := by
  unfold Iteration.Follow Handed.Follows
  decide +kernel

end TsEthereum.Blockchain
