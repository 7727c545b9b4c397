import TsEthereum.Blockchain.Canonical
import Mathlib.Data.List.MinMax

/-!
# Fork choice by total difficulty

A put compares what it puts with the head header alone. `Weighed` says what
that comes to over a run of blocks: every block is stored with its
difficulty on top of its parent's total, and the head header is the first of
the greatest total (`head_of_maximal_difficulty`). A total difficulty is
looked up under the number below the block's own, so a block of another
number than its parent's successor is stored as if it had none
(`difficulty_of_misnumbered`).
-/

namespace TsEthereum.Blockchain

open TsEthereum

variable {cfg : Config} {c c' : Chain} {db : Database} {blocks : List BlockHeader}
variable {item : Item} {trackDeleted : Bool} {x y : BlockHeader} {headHeaderHash : Bytes}

/-- The total difficulty stored for a block. -/
def Database.weight (cfg : Config) (db : Database) (x : BlockHeader) : Option ℕ :=
  db.totalDifficulty x.number (cfg.hash x)

/-- **A block is weighed on another**: its total difficulty is its difficulty
on top of the other's. -/
def Database.WeighedOn (cfg : Config) (db : Database) (x y : BlockHeader) : Prop :=
  ∃ td parentTd, db.weight cfg x = some td ∧ db.weight cfg y = some parentTd ∧
    td = x.difficulty + parentTd

/-- The parent of a block: named by its hash, and of the number before. -/
def Config.Child (cfg : Config) (x y : BlockHeader) : Prop :=
  cfg.hash y = x.parentHash ∧ x.number = y.number + 1

/-- **The blocks are weighed**: they are what the database holds, each on its
parent, and the head header is the first of the greatest total difficulty. -/
structure Weighed (cfg : Config) (db : Database) (headHeaderHash : Bytes)
    (blocks : List BlockHeader) : Prop where
  header : ∀ n hash (x : BlockHeader), db (.record (.header n hash)) = some x →
    x ∈ blocks ∧ cfg.hash x = hash
  stored : ∀ x ∈ blocks, db.header x.number (cfg.hash x) = some x
  number : ∀ x ∈ blocks, db.hashToNumber (cfg.hash x) = some (asUintN64 x.number)
  index : ∀ (n : ℕ) hash, db.numberToHash n = some hash → hash ∈ blocks.map cfg.hash
  genesis_mem : cfg.genesisBlock.header ∈ blocks
  genesis : db.weight cfg cfg.genesisBlock.header = some cfg.genesisBlock.header.difficulty
  parent : ∀ x ∈ blocks, x = cfg.genesisBlock.header ∨
    ∃ y ∈ blocks, cfg.Child x y ∧ db.WeighedOn cfg x y
  head : ∃ head, blocks.argmax (fun x => (db.weight cfg x).getD 0) = some head ∧
    headHeaderHash = cfg.hash head

/-! ## The greatest -/

theorem argmax_congr {α : Type} {f g : α → ℕ} {l : List α} (h : ∀ a ∈ l, f a = g a) :
    l.argmax f = l.argmax g := by
  induction l using List.reverseRecOn with
  | nil => rfl
  | append_singleton l a ih =>
    have ih' := ih fun b hb => h b (List.mem_append_left _ hb)
    have ha := h a (List.mem_append_right _ (List.mem_singleton_self a))
    rw [List.argmax_concat, List.argmax_concat, ih']
    cases hmax : l.argmax g with
    | none => rfl
    | some m =>
      have hm := h m (List.mem_append_left _ (List.argmax_mem hmax))
      dsimp only
      rw [hm, ha]

/-! ## One put -/

namespace Weighed

theorem exists_weight (h : Weighed cfg db headHeaderHash blocks) (hx : x ∈ blocks) :
    ∃ td, db.weight cfg x = some td := by
  rcases h.parent x hx with rfl | ⟨y, -, -, td, parentTd, htd, -⟩
  · exact ⟨_, h.genesis⟩
  · exact ⟨td, htd⟩

theorem eval_getTotalDifficulty (h : Weighed cfg db headHeaderHash blocks) (hx : x ∈ blocks) :
    (getTotalDifficulty (cfg.hash x)).eval db = .ok ((db.weight cfg x).getD 0) := by
  unfold getTotalDifficulty
  rw [Await.eval_bind, eval_hashToNumber, ok_bind, h.number x hx]
  dsimp only
  rw [eval_getTotalDifficultyAt]
  unfold Database.weight Database.totalDifficulty
  rw [asUintN64_asUintN64]

theorem eval_getParentTD (hxy : cfg.Child x y) :
    (getParentTD x).eval db = .ok ((db.weight cfg y).getD 0) := by
  obtain ⟨hhash, hnumber⟩ := hxy
  unfold getParentTD
  rw [if_neg (by omega), eval_getTotalDifficultyAt, natCast_sub_one hnumber, ← hhash]
  rfl

theorem weight_of_mem (h : Weighed cfg db headHeaderHash blocks) (hinj : Set.InjOn cfg.hash {x | x ∈ blocks})
    (hx : x ∈ blocks) (hy : y ∈ blocks) (hxy : cfg.Child x y) :
    db.weight cfg x = some (x.difficulty + (db.weight cfg y).getD 0) := by
  obtain ⟨hhash, hnumber⟩ := hxy
  rcases h.parent x hx with rfl | ⟨z, hz, ⟨hzhash, -⟩, td, parentTd, htd, hparent, rfl⟩
  · rw [cfg.genesis_number] at hnumber
    omega
  · obtain rfl := hinj hy hz (hhash.trans hzhash.symm)
    rw [htd, hparent]
    rfl

/-- **A put of a block over its parent keeps the blocks weighed**, if it writes
lookups of them only, and moves the head where it is to. -/
theorem put (h : Weighed cfg db headHeaderHash blocks)
    (hinj : Set.InjOn cfg.hash {x | x ∈ blocks ++ [item.header]}) (hy : y ∈ blocks)
    (hxy : cfg.Child item.header y) {ops : List DBWrite} (hops : IndexOps ops)
    (hnumber : ∀ hash v, (⟨.record (.hashToNumber hash), v⟩ : DBWrite) ∈ ops →
      ∃ z ∈ blocks ++ [item.header], cfg.hash z = hash ∧ v = some (asUintN64 z.number))
    (hself : (∃ v, (⟨.record (.hashToNumber (cfg.hash item.header)), v⟩ : DBWrite) ∈ ops) ∨
      item.header ∈ blocks)
    (hindex : ∀ n hash, (⟨.record (.numberToHash n), some hash⟩ : DBWrite) ∈ ops →
      hash ∈ (blocks ++ [item.header]).map cfg.hash)
    {td : ℕ} (htd : td = item.header.difficulty + (db.weight cfg y).getD 0)
    {state : MutableState} {head : BlockHeader} {headHeaderHash' : Bytes}
    (hhead : blocks.argmax (fun x => (db.weight cfg x).getD 0) = some head)
    (hmoved : headHeaderHash' =
      cfg.hash (if (db.weight cfg head).getD 0 < td then item.header else head)) :
    Weighed cfg (db.batch (itemOps cfg item td ++ ops ++ createSaveHeadOps state))
      headHeaderHash' (blocks ++ [item.header]) := by
  have hlast : item.header ∈ blocks ++ [item.header] :=
    List.mem_append_right _ (List.mem_singleton_self _)
  have hmem {z : BlockHeader} (hz : z ∈ blocks) : z ∈ blocks ++ [item.header] :=
    List.mem_append_left _ hz
  -- the keys of another block are others
  have hkey {z : BlockHeader} (hz : z ∈ blocks ++ [item.header]) (hne : z ≠ item.header) :
      ¬ (asUintN64 z.number = asUintN64 item.header.number ∧ cfg.hash z = cfg.hash item.header) :=
    fun heq => hne (hinj hz hlast heq.2)
  have hweight : Database.weight cfg (Store.batch db
      (itemOps cfg item td ++ ops ++ createSaveHeadOps state)) item.header = some td := by
    unfold Database.weight Database.totalDifficulty
    rw [batch_put_of_ne hops (by simp) (by simp)]
    exact Store.batch_of_mem (fun v hv => (mem_itemOps_totalDifficulty.1 hv).2)
      (mem_itemOps_totalDifficulty.2 ⟨⟨rfl, rfl⟩, rfl⟩)
  have hold {z : BlockHeader} (hz : z ∈ blocks) : Database.weight cfg (Store.batch db
      (itemOps cfg item td ++ ops ++ createSaveHeadOps state)) z = db.weight cfg z := by
    by_cases heq : z = item.header
    · subst heq
      rw [hweight, htd, h.weight_of_mem (hinj.mono fun _ => hmem) hz hy hxy]
    · unfold Database.weight Database.totalDifficulty
      rw [batch_put_of_ne hops (by simp) (by simp)]
      exact Store.batch_of_notMem fun v hv =>
        hkey (hmem hz) heq (mem_itemOps_totalDifficulty.1 hv).1
  refine
    { header := fun n hash x hx => ?_
      stored := fun x hx => ?_
      number := fun x hx => ?_
      index := fun n hash hn => ?_
      genesis_mem := hmem h.genesis_mem
      genesis := (hold h.genesis_mem).trans h.genesis
      parent := fun x hx => ?_
      head := ?_ }
  · by_cases hsame : n = asUintN64 item.header.number ∧ hash = cfg.hash item.header
    · obtain ⟨rfl, rfl⟩ := hsame
      rw [batch_put_header hops] at hx
      rw [← Option.some.inj hx]
      exact ⟨hlast, rfl⟩
    · rw [batch_put_header_of_ne hops hsame] at hx
      obtain ⟨hx, hhash⟩ := h.header n hash x hx
      exact ⟨hmem hx, hhash⟩
  · by_cases heq : x = item.header
    · subst heq
      exact batch_put_header hops
    · rcases List.mem_append.1 hx with hold' | hnew
      · exact (batch_put_header_of_ne hops (hkey hx heq)).trans (h.stored x hold')
      · exact absurd (List.mem_singleton.1 hnew) heq
  · -- every write to the number of `x` is its number, and there is one if it is new
    have hall : ∀ v, (⟨.record (.hashToNumber (cfg.hash x)), v⟩ : DBWrite) ∈ ops →
        v = some (asUintN64 x.number) := by
      intro v hv
      obtain ⟨z, hz, hhash, rfl⟩ := hnumber _ v hv
      rw [hinj hz hx hhash]
    rw [Database.hashToNumber, batch_put_hashToNumber]
    by_cases hex : ∃ v, (⟨.record (.hashToNumber (cfg.hash x)), v⟩ : DBWrite) ∈ ops
    · obtain ⟨v, hv⟩ := hex
      refine Store.batch_of_mem hall ?_
      rw [← hall v hv]
      exact hv
    · rw [Store.batch_of_notMem fun v hv => hex ⟨v, hv⟩,
        Store.batch_of_notMem fun v hv => itemOps_hashToNumber v hv]
      refine h.number x ?_
      rcases List.mem_append.1 hx with hold' | hnew
      · exact hold'
      · rw [List.mem_singleton.1 hnew] at hex ⊢
        exact hself.resolve_left hex
  · rw [Database.numberToHash, batch_put_numberToHash] at hn
    rcases Store.batch_cases (Store.batch db (itemOps cfg item td)) ops
      (.record (.numberToHash (asUintN64 n))) with hsame | hwritten
    · rw [hsame, Store.batch_of_notMem fun v hv => itemOps_numberToHash v hv] at hn
      obtain ⟨z, hz, hhash⟩ := List.mem_map.1 (h.index n hash hn)
      exact List.mem_map.2 ⟨z, hmem hz, hhash⟩
    · rw [hn] at hwritten
      exact hindex _ hash hwritten
  · rcases List.mem_append.1 hx with hx | hx
    · rcases h.parent x hx with rfl | ⟨z, hz, hchild, tdx, parentTd, htdx, hparentTd, hsum⟩
      · exact .inl rfl
      · exact .inr ⟨z, hmem hz, hchild, tdx, parentTd, (hold hx).trans htdx,
          (hold hz).trans hparentTd, hsum⟩
    · rw [List.mem_singleton.1 hx]
      obtain ⟨parentTd, hparentTd⟩ := h.exists_weight hy
      refine .inr ⟨y, hmem hy, hxy, td, parentTd, hweight, (hold hy).trans hparentTd, ?_⟩
      rw [htd, hparentTd]
      rfl
  · have hheadmem := List.argmax_mem hhead
    refine ⟨_, ?_, hmoved⟩
    rw [List.argmax_concat, argmax_congr fun z hz => congrArg (Option.getD · 0) (hold hz), hhead]
    dsimp only
    rw [hold hheadmem, hweight]
    exact (apply_ite some _ _ _).symm

theorem again (h : Weighed cfg db headHeaderHash blocks) (hx : x ∈ blocks) :
    Weighed cfg db headHeaderHash (blocks ++ [x]) := by
  have hmem {z : BlockHeader} : z ∈ blocks ++ [x] ↔ z ∈ blocks := by
    rw [List.mem_append, List.mem_singleton]
    constructor
    · rintro (hz | rfl)
      · exact hz
      · exact hx
    · exact .inl
  refine
    { header := fun n hash z hz => ?_
      stored := fun z hz => h.stored z (hmem.1 hz)
      number := fun z hz => h.number z (hmem.1 hz)
      index := fun n hash hn => ?_
      genesis_mem := hmem.2 h.genesis_mem
      genesis := h.genesis
      parent := fun z hz => ?_
      head := ?_ }
  · obtain ⟨hz, hhash⟩ := h.header n hash z hz
    exact ⟨hmem.2 hz, hhash⟩
  · obtain ⟨z, hz, hhash⟩ := List.mem_map.1 (h.index n hash hn)
    exact List.mem_map.2 ⟨z, hmem.2 hz, hhash⟩
  · rcases h.parent z (hmem.1 hz) with rfl | ⟨y, hy, hrest⟩
    · exact .inl rfl
    · exact .inr ⟨y, hmem.2 hy, hrest⟩
  · obtain ⟨head, hhead, hhash⟩ := h.head
    refine ⟨head, ?_, hhash⟩
    rw [List.argmax_concat, hhead]
    exact if_neg (Nat.not_lt.2 (List.le_of_mem_argmax hx hhead))

/-- **So does every put of a block that returned**, on a chain that is not
proof of stake. -/
theorem put_ok (h : Weighed cfg c.db c.state.headHeaderHash blocks)
    (hinj : Set.InjOn cfg.hash {x | x ∈ blocks ++ [item.header]})
    (hwork : item.hardforkManager.consensusType ≠ .proofOfStake)
    (hparent : item.header.number = 0 ∨ ∃ y ∈ blocks, cfg.Child item.header y)
    {state : MutableState} (hput : PutOutcome cfg trackDeleted c item state db) :
    Weighed cfg db state.headHeaderHash (blocks ++ [item.header]) := by
  have hlast : item.header ∈ blocks ++ [item.header] :=
    List.mem_append_right _ (List.mem_singleton_self _)
  have hmem {z : BlockHeader} (hz : z ∈ blocks) : z ∈ blocks ++ [item.header] :=
    List.mem_append_left _ hz
  obtain ⟨head, hhead, hheadhash⟩ := h.head
  have hheadmem := List.argmax_mem hhead
  cases hput with
  | genesis _ hhash =>
    rw [← hinj (hmem h.genesis_mem) hlast hhash]
    exact h.again h.genesis_mem
  | @canonical hne tdHeader tdBlock parentTd hreads hshould A ancestorHeaders deleteResult
      rebuildResult hc =>
    obtain ⟨y, hy, hxy⟩ := hparent.resolve_left hne
    have hreadsHeader := hreads.header
    rw [hheadhash, h.eval_getTotalDifficulty hheadmem] at hreadsHeader
    obtain rfl := Except.ok.inj hreadsHeader
    obtain rfl := Except.ok.inj ((eval_getParentTD hxy).symm.trans hreads.parent)
    have hgreater := hshould.resolve_right hwork
    obtain ⟨hdelete, hheader⟩ := deleteCanonicalFrom_writes hc.deleted
    have hrebuilt := hc.rebuilt
    unfold createRebuildCanonicalOps at hrebuilt
    rw [Await.eval_bind] at hrebuilt
    obtain ⟨⟨r, currentCanonicalHash⟩, hloop, hrebuilt⟩ := bind_eq_ok.1 hrebuilt
    obtain rfl := Except.ok.inj hrebuilt
    obtain ⟨-, hlookups, hself⟩ := rebuildCanonicalFrom_writes
      (P := fun z => z ∈ blocks ++ [item.header])
      (fun n hash z hz => hmem (h.header _ _ z hz).1) hlast hloop
    -- what is written to the index, by its kind
    have hwrites : ∀ op ∈ deleteResult.ops ++ r.ops,
        (∃ m, op = createDeleteNumberToHashOp m) ∨
          ∃ z ∈ blocks ++ [item.header], op ∈ createSaveLookupOps (cfg.hash z) z.number := by
      intro op hop
      rcases List.mem_append.1 hop with hop | hop
      · exact .inl ((hdelete op hop).resolve_left List.not_mem_nil)
      · exact .inr ((hlookups op hop).resolve_left List.not_mem_nil)
    rw [List.append_assoc (itemOps cfg item _)]
    refine h.put hinj hy hxy ?_ ?_ ?_ ?_ rfl hhead ?_
    · intro op hop
      rcases hwrites op hop with ⟨m, rfl⟩ | ⟨z, -, hop⟩
      · exact .inl ⟨_, rfl⟩
      · rcases List.mem_pair.1 hop with rfl | rfl
        · exact .inl ⟨_, rfl⟩
        · exact .inr ⟨_, rfl⟩
    · intro hash v hv
      rcases hwrites _ hv with ⟨m, hm⟩ | ⟨z, hz, hop⟩
      · cases hm
      · refine ⟨z, hz, ?_⟩
        rcases List.mem_pair.1 hop with hop | hop
        · cases hop
        · cases hop
          exact ⟨rfl, rfl⟩
    · -- the block is looked up anew, unless the index has its hash
      rcases hself with hindexed | hzero | hall
      · obtain ⟨z, hz, hhash⟩ := List.mem_map.1 (h.index _ _ hindexed)
        rw [← hinj (hmem hz) hlast hhash]
        exact .inr hz
      · exact absurd hzero hne
      · exact .inl ⟨_, List.mem_append_right _ (hall _ (List.mem_cons_of_mem _
          (List.mem_singleton_self _)))⟩
    · intro n hash hv
      rcases hwrites _ hv with ⟨m, hm⟩ | ⟨z, hz, hop⟩
      · cases hm
      · rcases List.mem_pair.1 hop with hop | hop
        · cases hop
          exact List.mem_map_of_mem hz
        · cases hop
    · rw [if_pos hgreater]
      exact hheader rfl
  | @beside hne tdHeader tdBlock parentTd hreads hshould =>
    obtain ⟨y, hy, hxy⟩ := hparent.resolve_left hne
    have hreadsHeader := hreads.header
    rw [hheadhash, h.eval_getTotalDifficulty hheadmem] at hreadsHeader
    obtain rfl := Except.ok.inj hreadsHeader
    obtain rfl := Except.ok.inj ((eval_getParentTD hxy).symm.trans hreads.parent)
    refine h.put hinj hy hxy ?_ ?_ (.inl ⟨_, List.mem_singleton_self _⟩) ?_ rfl hhead ?_
    · intro op hop
      rw [List.mem_singleton.1 hop]
      exact .inr ⟨_, rfl⟩
    · intro hash v hv
      cases List.mem_singleton.1 hv
      exact ⟨_, hlast, rfl, rfl⟩
    · intro n hash hv
      cases List.mem_singleton.1 hv
    · rw [if_neg fun hgreater => hshould (.inl hgreater)]
      exact hheadhash

end Weighed

/-! ## Along a run -/

theorem mem_genesisOps_totalDifficulty {n : ℕ} {hash : Bytes} {v : Option ℕ} :
    (⟨.record (.totalDifficulty n hash), v⟩ : DBWrite) ∈ Chain.genesisOps cfg ↔
      (n = 0 ∧ hash = cfg.hash cfg.genesisBlock.header) ∧
        v = some cfg.genesisBlock.header.difficulty := by
  simp [Chain.genesisOps, createSetTDOp, createSetBlockOrHeaderOps, createSaveLookupOps,
    createSetHashToNumberOp, asUintN64]

theorem Weighed.init : Weighed cfg (Chain.init cfg).db (Chain.init cfg).state.headHeaderHash
    [cfg.genesisBlock.header] := by
  have hzero := cfg.genesis_number
  have hkey : asUintN64 cfg.genesisBlock.header.number = 0 := by
    rw [hzero]
    rfl
  refine
    { header := fun n hash x hx => ?_
      stored := fun x hx => ?_
      number := fun x hx => ?_
      index := fun n hash hn => ?_
      genesis_mem := List.mem_singleton_self _
      genesis := ?_
      parent := fun x hx => .inl (List.mem_singleton.1 hx)
      head := ⟨_, rfl, rfl⟩ }
  · rcases Store.batch_cases (fun _ => none) (Chain.genesisOps cfg) (.record (.header n hash))
      with hnone | hmem
    · cases hnone.symm.trans hx
    · change Store.batch _ _ _ = _ at hx
      rw [hx] at hmem
      obtain ⟨⟨-, rfl⟩, heq⟩ := Kept.mem_genesisOps_header.1 hmem
      rw [Option.some.inj heq]
      exact ⟨List.mem_singleton_self _, rfl⟩
  · rw [List.mem_singleton.1 hx]
    exact Store.batch_of_mem (fun v hv => (Kept.mem_genesisOps_header.1 hv).2)
      (Kept.mem_genesisOps_header.2 ⟨⟨hkey, rfl⟩, rfl⟩)
  · rw [List.mem_singleton.1 hx, hkey]
    exact Store.batch_of_mem (fun v hv => (Kept.mem_genesisOps_hashToNumber.1 hv).2)
      (Kept.mem_genesisOps_hashToNumber.2 ⟨rfl, rfl⟩)
  · rcases Store.batch_cases (fun _ => none) (Chain.genesisOps cfg)
      (.record (.numberToHash (asUintN64 n))) with hnone | hmem
    · cases hnone.symm.trans hn
    · change Store.batch _ _ _ = _ at hn
      rw [hn] at hmem
      rw [Option.some.inj (Kept.mem_genesisOps_numberToHash.1 hmem).2]
      exact List.mem_map_of_mem (List.mem_singleton_self _)
  · exact Store.batch_of_mem (fun v hv => (mem_genesisOps_totalDifficulty.1 hv).2)
      (mem_genesisOps_totalDifficulty.2 ⟨⟨hkey, rfl⟩, rfl⟩)

theorem headersPut_concat {calls : List Call} {call : Call} (hop : call.op = .put item) :
    headersPut cfg (calls ++ [call]) = headersPut cfg calls ++ [item.header] := by
  unfold headersPut
  rw [List.filterMap_append, List.cons_append]
  simp [Call.header?, hop]

/-- **Fork choice by total difficulty**: after every run of puts that
returned, on a chain that is not proof of stake, each over a parent that was
put before it, the database holds the headers that were put; each has its
difficulty on top of its parent's total; and the head header is the first
put of those of the greatest total. -/
theorem head_of_maximal_difficulty (calls : List Call)
    (hwork : ∀ call ∈ calls, ∃ item, call.op = .put item ∧
      item.hardforkManager.consensusType ≠ .proofOfStake)
    (hinj : ∀ x ∈ headersPut cfg calls, ∀ y ∈ headersPut cfg calls, cfg.hash x = cfg.hash y → x = y)
    (hparents : ∀ pre call item, pre ++ [call] <+: calls → call.op = .put item →
      item.header.number = 0 ∨ ∃ y ∈ headersPut cfg pre, cfg.Child item.header y)
    (hrun : run (Chain.call cfg) (Chain.init cfg) calls = .ok c) :
    (∀ x, c.db.header x.number (cfg.hash x) = some x ↔ x ∈ headersPut cfg calls) ∧
      (∀ x ∈ headersPut cfg calls,
        (x = cfg.genesisBlock.header ∧ c.db.weight cfg x = some x.difficulty) ∨
          ∃ y ∈ headersPut cfg calls, cfg.Child x y ∧ c.db.WeighedOn cfg x y) ∧
      ∃ head, (headersPut cfg calls).argmax (fun x => (c.db.weight cfg x).getD 0) = some head ∧
        c.state.headHeaderHash = cfg.hash head := by
  have hweighed : Weighed cfg c.db c.state.headHeaderHash (headersPut cfg calls) := by
    induction calls using List.reverseRecOn generalizing c with
    | nil =>
      cases hrun
      exact Weighed.init
    | append_singleton pre call ih =>
      rw [run_concat] at hrun
      obtain ⟨u, hu, hcall⟩ := bind_eq_ok.1 hrun
      obtain ⟨item, hop, hwork'⟩ :=
        hwork call (List.mem_append_right _ (List.mem_singleton_self call))
      have hheaders : headersPut cfg (pre ++ [call]) = headersPut cfg pre ++ [item.header] :=
        headersPut_concat hop
      rw [hheaders] at hinj ⊢
      have h := ih (fun call' hcall' => hwork call' (List.mem_append_left _ hcall'))
        (fun x hx y hy => hinj x (List.mem_append_left _ hx) y (List.mem_append_left _ hy))
        (fun pre' call' item' hpre => hparents pre' call' item'
          (hpre.trans (List.prefix_append pre [call]))) hu
      obtain ⟨op, hooks, trackDeleted⟩ := call
      obtain rfl : op = .put item := hop
      obtain ⟨state, hout, hstate⟩ := putBlockOrHeader_ok (Chain.call_eq_ok_iff.1 hcall)
      have h' := h.put_ok (fun x hx y hy hxy => hinj x hx y hy hxy) hwork'
        (hparents pre _ item List.prefix_rfl rfl) hout
      rw [hstate]
      exact h'
  refine ⟨fun x => ⟨fun hx => (hweighed.header _ _ x hx).1, hweighed.stored x⟩, fun x hx => ?_,
    hweighed.head⟩
  rcases hweighed.parent x hx with rfl | hparent
  · exact .inl ⟨rfl, hweighed.genesis⟩
  · exact .inr hparent

/-- Two blocks on the genesis' chain, one beside it as heavy as both, and the
first again. -/
def tiedPuts : List Call :=
  twoPuts ++ [samplePut (sampleHeader [3] [0] 1 2), samplePut (sampleHeader [1] [0] 1 1)]

theorem head_of_maximal_difficulty_tiedPuts :
    ∃ c, run (Chain.call sampleConfig) (Chain.init sampleConfig) tiedPuts = .ok c ∧
      (∀ x, c.db.header x.number (sampleConfig.hash x) = some x ↔
        x ∈ headersPut sampleConfig tiedPuts) ∧
      (∀ x ∈ headersPut sampleConfig tiedPuts,
        (x = sampleConfig.genesisBlock.header ∧ c.db.weight sampleConfig x = some x.difficulty) ∨
          ∃ y ∈ headersPut sampleConfig tiedPuts,
            sampleConfig.Child x y ∧ c.db.WeighedOn sampleConfig x y) ∧
      ∃ head, (headersPut sampleConfig tiedPuts).argmax
          (fun x => (c.db.weight sampleConfig x).getD 0) = some head ∧
        c.state.headHeaderHash = sampleConfig.hash head := by
  obtain ⟨c, hc⟩ := exists_ok_of_isOk
    (show (run (Chain.call sampleConfig) (Chain.init sampleConfig) tiedPuts).isOk = true by
      decide +kernel)
  refine ⟨c, hc, head_of_maximal_difficulty tiedPuts ?_ (by decide +kernel) ?_ hc⟩
  · intro call hcall
    simp only [tiedPuts, twoPuts, List.mem_append, List.mem_cons, List.not_mem_nil,
      or_false] at hcall
    rcases hcall with (rfl | rfl) | rfl | rfl <;> exact ⟨_, rfl, by decide⟩
  · intro pre call item hpre hop
    unfold tiedPuts twoPuts at hpre
    rcases concat_prefix_cons.1 hpre with ⟨rfl, rfl⟩ | ⟨pre, rfl, h₁⟩
    · cases hop
      exact .inr ⟨sampleHeader [0] [] 0 1, by decide +kernel, rfl, rfl⟩
    rcases concat_prefix_cons.1 h₁ with ⟨rfl, rfl⟩ | ⟨pre, rfl, h₂⟩
    · cases hop
      exact .inr ⟨sampleHeader [1] [0] 1 1, by decide +kernel, rfl, rfl⟩
    rcases concat_prefix_cons.1 h₂ with ⟨rfl, rfl⟩ | ⟨pre, rfl, h₃⟩
    · cases hop
      exact .inr ⟨sampleHeader [0] [] 0 1, by decide +kernel, rfl, rfl⟩
    rcases concat_prefix_cons.1 h₃ with ⟨rfl, rfl⟩ | ⟨pre, rfl, h₄⟩
    · cases hop
      exact .inr ⟨sampleHeader [0] [] 0 1, by decide +kernel, rfl, rfl⟩
    simp at h₄

/-- A block with the genesis as its parent, and the number 5. -/
def misnumbered : List Call := [samplePut (sampleHeader [1] [0] 5 1)]

/-- **A block that does not follow its parent in number is put**, and its total
difficulty is its own difficulty. -/
theorem difficulty_of_misnumbered :
    (sampleHeader [1] [0] 5 1).parentHash = sampleConfig.hash sampleConfig.genesisBlock.header ∧
    ∃ c, run (Chain.call sampleConfig) (Chain.init sampleConfig) misnumbered = .ok c ∧
      c.db.header 5 [1] = some (sampleHeader [1] [0] 5 1) ∧
      ¬ c.db.WeighedOn sampleConfig (sampleHeader [1] [0] 5 1)
        sampleConfig.genesisBlock.header := by
  refine ⟨rfl, ?_⟩
  have hfinal : (run (Chain.call sampleConfig) (Chain.init sampleConfig) misnumbered).map
      (fun c => (c.db.header 5 [1], c.db.weight sampleConfig (sampleHeader [1] [0] 5 1),
        c.db.weight sampleConfig sampleConfig.genesisBlock.header)) =
        .ok (some (sampleHeader [1] [0] 5 1), some 1, some 1) := by
    decide +kernel
  cases hc : run (Chain.call sampleConfig) (Chain.init sampleConfig) misnumbered with
  | error e =>
    rw [hc] at hfinal
    cases hfinal
  | ok c =>
    rw [hc] at hfinal
    obtain ⟨hstored, hweights⟩ := Prod.mk.inj (Except.ok.inj hfinal)
    obtain ⟨hself, hparent⟩ := Prod.mk.inj hweights
    refine ⟨c, rfl, hstored, ?_⟩
    rintro ⟨td, parentTd, htd, hparentTd, hsum⟩
    cases hself.symm.trans htd
    cases hparent.symm.trans hparentTd
    exact absurd hsum (by decide)

end TsEthereum.Blockchain
