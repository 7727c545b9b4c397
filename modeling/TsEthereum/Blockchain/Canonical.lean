import TsEthereum.Blockchain.Index
import TsEthereum.Common.Runs

/-!
# The canonical chain along a run

`Kept` says that the database holds a chain whose last header is the head
header. Every call that returns keeps it (`Kept.call`), and so every run. So
the index is defined up to the head and no further, and each canonical
header names the one below it (`canonical_index_of_run`), as long as the
numbers are ones the keys can hold: of a number beyond, the index keeps the
last 64 bits (`index_of_long_number`).
-/

namespace TsEthereum.Blockchain

open TsEthereum

variable {cfg : Config} {H : Set BlockHeader} {c c' : Chain} {chain : List BlockHeader}
variable {item : Item} {trackDeleted : Bool}

/-- **The chain is kept**: the database holds it, and the head header is its
last. -/
structure Kept (cfg : Config) (H : Set BlockHeader) (c : Chain) (chain : List BlockHeader) :
    Prop where
  indexed : Indexed cfg H c.db chain
  head : chain.getLast?.map cfg.hash = some c.state.headHeaderHash

/-- Where a pointer goes at a switch: from above the new head to it, and from
what is replaced to the ancestor. -/
def movePointer (cfg : Config) (chain : List BlockHeader) (x A : BlockHeader) (hash : Bytes) :
    Bytes :=
  moveFrom ((replaced chain A x).map cfg.hash) (cfg.hash A)
    (moveFrom ((chain.drop (x.number + 1)).map cfg.hash) (cfg.hash x) hash)

namespace Kept

theorem head_of_last {x : BlockHeader} (hindexed : Indexed cfg H c.db chain)
    (hlength : chain.length = x.number + 1) (hx : chain[x.number]? = some x)
    (hhash : c.state.headHeaderHash = cfg.hash x) : Kept cfg H c chain where
  indexed := hindexed
  head := by
    rw [List.getLast?_eq_getElem?, hlength, Nat.add_sub_cancel, hx, hhash]
    rfl

theorem exists_last (h : Kept cfg H c chain) :
    ∃ x, chain[x.number]? = some x ∧ chain.length = x.number + 1 ∧
      c.state.headHeaderHash = cfg.hash x := by
  obtain ⟨x, hlast, hhash⟩ := Option.map_eq_some_iff.1 h.head
  have hmem := List.mem_of_getLast? hlast
  rw [List.getLast?_eq_getElem?] at hlast
  have hnumber := h.indexed.branch.number_eq _ _ hlast
  have := List.length_pos_of_mem hmem
  exact ⟨x, h.indexed.branch.getElem?_number hmem, by omega, hhash.symm⟩

theorem canonicalises (h : Kept cfg H c chain) (hH : cfg.Admits H) (hx : item.header ∈ H)
    {A : BlockHeader} {ancestorHeaders : List BlockHeader} {deleteResult : DeleteCanonicalResult}
    {rebuildResult : RebuildCanonicalResult}
    (hc : Canonicalises cfg trackDeleted c item A ancestorHeaders deleteResult rebuildResult) :
    ∃ path, Fork.Joins BlockHeader.number (cfg.ReadsParent c.db) chain item.header path A ∧
      deleteResult.ops ++ rebuildResult.ops = switchOps cfg chain (item.header.number + 1) path ∧
      ((rebuildResult.state deleteResult.state).heads = fun name =>
        (c.state.heads name).map (movePointer cfg chain item.header A)) ∧
      (rebuildResult.state deleteResult.state).headHeaderHash = cfg.hash item.header ∧
      (rebuildResult.state deleteResult.state).headBlockHash =
        movePointer cfg chain item.header A (pointed cfg item c.state).headBlockHash := by
  obtain ⟨path, hj⟩ := h.indexed.findCommonAncestor_joins hH hx h.head hc.ancestor
  have hlt := hH.number_lt _ hx
  have hdeleted := hc.deleted
  rw [createDeleteCanonicalChainOps, ← Nat.cast_succ] at hdeleted
  obtain ⟨hops, hheads, hheader, hblock⟩ := h.indexed.deleteCanonicalFrom_ok hH hlt hdeleted
  obtain ⟨hops', hheads', hblock'⟩ := h.indexed.createRebuildCanonicalOps_ok hH hx hj hc.rebuilt
  refine ⟨path, hj, ?_, ?_, ?_, ?_⟩
  · rw [hops, hops']
    rfl
  · rw [RebuildCanonicalResult.state, hheads', DeleteCanonicalResult.state, hheads]
    funext name
    exact Option.map_map _ _ _
  · rw [RebuildCanonicalResult.state, DeleteCanonicalResult.state, hheader]
    unfold moveFrom pointed
    simp
  · rw [RebuildCanonicalResult.state, hblock', DeleteCanonicalResult.state, hblock]
    rfl

theorem switch (h : Kept cfg H c chain) (hH : cfg.Admits H) (hx : item.header ∈ H)
    {A : BlockHeader} {path : List BlockHeader}
    (hj : Fork.Joins BlockHeader.number (cfg.ReadsParent c.db) chain item.header path A)
    (td : ℕ) {state : MutableState} (state' : MutableState)
    (hhead : state.headHeaderHash = cfg.hash item.header) :
    Kept cfg H ⟨state, c.db.batch (itemOps cfg item td ++
      switchOps cfg chain (item.header.number + 1) path ++ createSaveHeadOps state')⟩
      (Fork.switch BlockHeader.number chain path A) := by
  have hj' := hj.mono fun x y hread => hread.1
  exact head_of_last (h.indexed.switch hH hx hj') hj'.length_switch hj'.getElem?_switch_self hhead

theorem beside (h : Kept cfg H c chain) (hH : cfg.Admits H) (hx : item.header ∈ H) (td : ℕ)
    {state : MutableState} (state' : MutableState)
    (hhead : state.headHeaderHash = c.state.headHeaderHash) :
    Kept cfg H ⟨state, c.db.batch (itemOps cfg item td ++
      [createSetHashToNumberOp (cfg.hash item.header) item.header.number] ++
        createSaveHeadOps state')⟩ chain where
  indexed := h.indexed.beside hH hx
  head := by
    rw [hhead]
    exact h.head

/-- **A put that returned keeps a chain**: the one there was, or one that is
switched. -/
theorem put (h : Kept cfg H c chain) (hH : cfg.Admits H) (hx : item.header ∈ H)
    {state : MutableState} {db : Database} (hput : PutOutcome cfg trackDeleted c item state db) :
    ∃ chain', Kept cfg H ⟨state, db⟩ chain' := by
  cases hput with
  | genesis _ _ => exact ⟨chain, h⟩
  | canonical hne hreads hshould hc =>
    obtain ⟨path, hj, hops, -, hhead, -⟩ := h.canonicalises hH hx hc
    rw [List.append_assoc (itemOps cfg item _), hops]
    exact ⟨_, h.switch hH hx hj _ _ hhead⟩
  | beside hne hreads hshould =>
    exact ⟨chain, h.beside hH hx _ _ rfl⟩

theorem reset (h : Kept cfg H c chain) (hH : cfg.Admits H) {n : ℤ} {hash : Bytes}
    {header : BlockHeader} {deleteResult : DeleteCanonicalResult}
    (hhash : c.db.numberToHash n = some hash) (hheader : c.db.header n hash = some header)
    (hdeleted : (createDeleteCanonicalChainOps cfg (n + 1) hash c.state trackDeleted).eval c.db =
      .ok deleteResult) :
    chain[header.number]? = some header ∧ cfg.hash header = hash ∧
      (deleteResult.state.heads = fun name => (c.state.heads name).map
        (moveFrom ((chain.drop (header.number + 1)).map cfg.hash) hash)) ∧
      deleteResult.state.headBlockHash =
        moveFrom ((chain.drop (header.number + 1)).map cfg.hash) hash c.state.headBlockHash ∧
      deleteResult.ops = switchOps cfg chain (header.number + 1) [] ∧
      ∀ state, state.headHeaderHash = deleteResult.state.headHeaderHash →
        Kept cfg H ⟨state, c.db.batch (deleteResult.ops ++ createSaveHeadOps deleteResult.state)⟩
          (chain.take (header.number + 1)) := by
  obtain ⟨hxH, rfl, hnumber⟩ := h.indexed.header _ _ _ hheader
  have hlt := hH.number_lt _ hxH
  have hkey : asUintN64 n = asUintN64 (header.number : ℕ) := by
    rw [asUintN64_natCast (by omega), hnumber]
  have hcanonical : chain[header.number]? = some header := by
    rw [← h.indexed.numberToHash_eq_iff hH hxH, Database.numberToHash, ← hkey]
    exact hhash
  rw [createDeleteCanonicalChainOps, deleteCanonicalFrom_congr (asUintN64_add_one hkey),
    ← Nat.cast_succ] at hdeleted
  obtain ⟨hops, hheads, hhead, hblock⟩ := h.indexed.deleteCanonicalFrom_ok hH hlt hdeleted
  have hswitch : deleteResult.ops = switchOps cfg chain (header.number + 1) [] := by
    rw [hops, switchOps, List.flatMap_nil, List.append_nil]
    rfl
  refine ⟨hcanonical, rfl, hheads, hblock, hswitch, fun state hstate => ?_⟩
  have hlength := (List.getElem?_eq_some_iff.1 hcanonical).1
  rw [hswitch]
  refine head_of_last (h.indexed.reset hH header.number) ?_ ?_ ?_ (x := header)
  · rw [List.length_take]
    omega
  · rw [List.getElem?_take, if_pos (by omega), hcanonical]
  · -- the head is the last of the chain, so it is cut off or it is the header
    rw [hstate]
    change deleteResult.updatedHeadHeaderHash = _
    rw [hhead, moveFrom]
    split
    · rfl
    · next hnot =>
      obtain ⟨last, hlast, hlen, hlasthash⟩ := h.exists_last
      change c.state.headHeaderHash = _
      change c.state.headHeaderHash ∉ _ at hnot
      rw [hlasthash] at hnot ⊢
      rcases Nat.lt_or_ge header.number last.number with hlt' | hge
      · refine absurd (List.mem_map_of_mem ?_) hnot
        refine List.mem_iff_getElem?.2 ⟨last.number - (header.number + 1), ?_⟩
        rw [List.getElem?_drop,
          show header.number + 1 + (last.number - (header.number + 1)) = last.number by omega]
        exact hlast
      · rw [show header.number = last.number by omega, hlast] at hcanonical
        rw [Option.some.inj hcanonical]

theorem of_records (h : Kept cfg H c chain) {state : MutableState} {db : Database}
    (hhead : state.headHeaderHash = c.state.headHeaderHash)
    (hdb : ∀ r, db (.record r) = c.db (.record r)) : Kept cfg H ⟨state, db⟩ chain where
  indexed := h.indexed.congr hdb
  head := by rw [hhead]; exact h.head

/-! ## Along a run -/

theorem mem_genesisOps_header {n : ℕ} {hash : Bytes} {v : Option BlockHeader} :
    (⟨.record (.header n hash), v⟩ : DBWrite) ∈ Chain.genesisOps cfg ↔
      (n = 0 ∧ hash = cfg.hash cfg.genesisBlock.header) ∧ v = some cfg.genesisBlock.header := by
  simp [Chain.genesisOps, createSetTDOp, createSetBlockOrHeaderOps, createSaveLookupOps,
    createSetHashToNumberOp, cfg.genesis_number, asUintN64]

theorem mem_genesisOps_numberToHash {n : ℕ} {v : Option Bytes} :
    (⟨.record (.numberToHash n), v⟩ : DBWrite) ∈ Chain.genesisOps cfg ↔
      n = 0 ∧ v = some (cfg.hash cfg.genesisBlock.header) := by
  simp [Chain.genesisOps, createSetTDOp, createSetBlockOrHeaderOps, createSaveLookupOps,
    createSetHashToNumberOp, asUintN64]

theorem mem_genesisOps_hashToNumber {hash : Bytes} {v : Option ℕ} :
    (⟨.record (.hashToNumber hash), v⟩ : DBWrite) ∈ Chain.genesisOps cfg ↔
      hash = cfg.hash cfg.genesisBlock.header ∧ v = some 0 := by
  simp [Chain.genesisOps, createSetTDOp, createSetBlockOrHeaderOps, createSaveLookupOps,
    createSetHashToNumberOp, asUintN64]

theorem init (hgenesis : cfg.genesisBlock.header ∈ H) :
    Kept cfg H (Chain.init cfg) [cfg.genesisBlock.header] := by
  have hzero := cfg.genesis_number
  have hheader (n : ℕ) (hash : Bytes) (x : BlockHeader)
      (hx : (Chain.init cfg).db (.record (.header n hash)) = some x) :
      n = 0 ∧ hash = cfg.hash cfg.genesisBlock.header ∧ x = cfg.genesisBlock.header := by
    have hcases := Store.batch_cases (fun _ => none) (Chain.genesisOps cfg)
      (.record (.header n hash))
    change Store.batch (fun _ => none) (Chain.genesisOps cfg) (.record (.header n hash)) = _ at hx
    rw [hx] at hcases
    rcases hcases with hnone | hmem
    · cases hnone
    · obtain ⟨⟨hn, hhash⟩, heq⟩ := mem_genesisOps_header.1 hmem
      exact ⟨hn, hhash, Option.some.inj heq⟩
  refine ⟨
    { header := fun n hash x hx => ?_
      number := fun x hx => ?_
      branch := ⟨fun i x hx => ?_, fun i x y hx hy => ?_⟩
      stored := fun x hx => ?_
      index := fun n hn => ?_
      genesis := rfl }, rfl⟩
  · obtain ⟨rfl, rfl, rfl⟩ := hheader n hash x hx
    exact ⟨hgenesis, rfl, hzero⟩
  · obtain ⟨-, -, rfl⟩ := hheader _ _ x hx
    rw [hzero]
    exact Store.batch_of_mem (fun v hv => (mem_genesisOps_hashToNumber.1 hv).2)
      (mem_genesisOps_hashToNumber.2 ⟨rfl, rfl⟩)
  · rw [List.getElem?_singleton] at hx
    split at hx
    · next hi =>
      rw [← Option.some.inj hx, hzero, hi]
    · cases hx
  · rw [List.getElem?_singleton, if_neg (by omega)] at hy
    cases hy
  · rw [List.mem_singleton.1 hx, hzero]
    exact Store.batch_of_mem (fun v hv => (mem_genesisOps_header.1 hv).2)
      (mem_genesisOps_header.2 ⟨⟨rfl, rfl⟩, rfl⟩)
  · rw [Database.numberToHash, asUintN64_natCast hn]
    rw [List.getElem?_singleton]
    split
    · next hn =>
      subst hn
      exact Store.batch_of_mem (fun v hv => (mem_genesisOps_numberToHash.1 hv).2)
        (mem_genesisOps_numberToHash.2 ⟨rfl, rfl⟩)
    · next hn =>
      exact Store.batch_of_notMem fun v hv => hn (mem_genesisOps_numberToHash.1 hv).1

theorem call (h : Kept cfg H c chain) (hH : cfg.Admits H) {call : Call}
    (hput : ∀ item, call.op = .put item → item.header ∈ H) (hcall : c.call cfg call = .ok c') :
    ∃ chain', Kept cfg H c' chain' := by
  rw [Chain.call_eq_ok_iff] at hcall
  obtain ⟨op, hooks, trackDeleted⟩ := call
  cases op with
  | put item =>
    obtain ⟨state, hout, hstate⟩ := putBlockOrHeader_ok hcall
    obtain ⟨chain', hindexed, hhead⟩ := h.put hH (hput item rfl) hout
    exact ⟨chain', hindexed, by rw [hstate]; exact hhead⟩
  | resetCanonicalHead n =>
    obtain ⟨hash, header, deleteResult, hhash, hheader, hdeleted, rfl⟩ :=
      resetCanonicalHead_ok hcall
    exact ⟨_, (h.reset hH hhash hheader hdeleted).2.2.2.2.2 _ rfl⟩
  | setIteratorHead tag headHash =>
    rw [setIteratorHead_ok hcall]
    exact ⟨chain, h.of_records rfl (batch_saveHeadOps _ _)⟩

end Kept

/-- The header a call puts, if it puts one. -/
def Call.header? (call : Call) : Option BlockHeader :=
  match call.op with
  | .put item => some item.header
  | _ => none

/-- **The headers of a run**: the genesis, and those that are put. -/
def headersPut (cfg : Config) (calls : List Call) : List BlockHeader :=
  cfg.genesisBlock.header :: calls.filterMap Call.header?

theorem mem_headersPut {calls : List Call} {call : Call} (hcall : call ∈ calls) {item : Item}
    (hop : call.op = .put item) : item.header ∈ headersPut cfg calls := by
  refine List.mem_cons_of_mem _ (List.mem_filterMap.2 ⟨call, hcall, ?_⟩)
  rw [Call.header?, hop]

/-- What the results below ask of a run: that its headers are told apart by
their hashes, and have numbers the keys can hold. -/
structure Admissible (cfg : Config) (calls : List Call) : Prop where
  injOn : ∀ x ∈ headersPut cfg calls, ∀ y ∈ headersPut cfg calls, cfg.hash x = cfg.hash y → x = y
  number_lt : ∀ x ∈ headersPut cfg calls, x.number + 1 < 2 ^ 64

theorem Admissible.admits {calls : List Call} (h : Admissible cfg calls) :
    cfg.Admits {x | x ∈ headersPut cfg calls} where
  injOn := fun x hx y hy hxy => h.injOn x hx y hy hxy
  number_lt := h.number_lt

theorem Kept.run (h : Kept cfg H c chain) (hH : cfg.Admits H) {calls : List Call}
    (hput : ∀ call ∈ calls, ∀ item, call.op = .put item → item.header ∈ H)
    (hrun : TsEthereum.run (Chain.call cfg) c calls = .ok c') : ∃ chain', Kept cfg H c' chain' := by
  induction calls generalizing c chain with
  | nil =>
    cases hrun
    exact ⟨chain, h⟩
  | cons call calls ih =>
    rw [run_cons] at hrun
    obtain ⟨u, hu, hrun⟩ := bind_eq_ok.1 hrun
    obtain ⟨chain', h'⟩ := h.call hH (hput call List.mem_cons_self) hu
    exact ih h' (fun call' hmem => hput call' (List.mem_cons_of_mem call hmem)) hrun

theorem Kept.after (h : Kept cfg H c chain) (hH : cfg.Admits H) {call : Call}
    (hput : ∀ item, call.op = .put item → item.header ∈ H) (hquiet : Quiet call.hooks) :
    ∃ chain', Kept cfg H (c.after cfg call) chain' := by
  cases hstep : c.step cfg call with
  | mk x c' =>
    cases x with
    | ok u =>
      have hcall := Chain.call_eq_ok_iff.2 hstep
      rw [Chain.after_of_call hcall]
      exact h.call hH hput hcall
    | error e =>
      rw [Chain.after, hstep]
      obtain ⟨op, hooks, trackDeleted⟩ := call
      cases op with
      | put item =>
        obtain ⟨hdb, -, hhead, -⟩ := putBlockOrHeader_error hquiet hstep
        exact ⟨chain, h.of_records hhead fun r => by rw [hdb]⟩
      | resetCanonicalHead n =>
        rw [resetCanonicalHead_error hquiet hstep]
        exact ⟨chain, h⟩
      | setIteratorHead tag headHash => cases hstep

theorem Kept.foldl (h : Kept cfg H c chain) (hH : cfg.Admits H) {calls : List Call}
    (hput : ∀ call ∈ calls, ∀ item, call.op = .put item → item.header ∈ H)
    (hquiet : ∀ call ∈ calls, Quiet call.hooks) :
    ∃ chain', Kept cfg H (calls.foldl (Chain.after cfg) c) chain' := by
  induction calls generalizing c chain with
  | nil => exact ⟨chain, h⟩
  | cons call calls ih =>
    obtain ⟨chain', h'⟩ := h.after hH (hput call List.mem_cons_self) (hquiet call List.mem_cons_self)
    exact ih h' (fun call' hmem => hput call' (List.mem_cons_of_mem call hmem))
      fun call' hmem => hquiet call' (List.mem_cons_of_mem call hmem)

theorem kept_of_run {calls : List Call} (hrun : run (Chain.call cfg) (Chain.init cfg) calls = .ok c)
    (hcalls : Admissible cfg calls) :
    ∃ chain, Kept cfg {x | x ∈ headersPut cfg calls} c chain :=
  (Kept.init List.mem_cons_self).run hcalls.admits
    (fun _ hcall _ hop => mem_headersPut hcall hop) hrun

/-- **The canonical index**: after every run of calls that returned, the index
is defined up to the number of the head header and no further, has the head
header's hash there, and has under the hash of each header the hash of its
parent. -/
theorem canonical_index_of_run (calls : List Call)
    (hrun : run (Chain.call cfg) (Chain.init cfg) calls = .ok c) (hcalls : Admissible cfg calls) :
    ∃ head : BlockHeader, c.db.header head.number c.state.headHeaderHash = some head ∧
      (∀ n : ℕ, n < 2 ^ 64 → ((c.db.numberToHash n).isSome ↔ n ≤ head.number)) ∧
      c.db.numberToHash head.number = some c.state.headHeaderHash ∧
      ∀ i : ℕ, i < head.number → ∃ hash hash' x, c.db.numberToHash i = some hash ∧
        c.db.numberToHash ((i + 1 : ℕ) : ℤ) = some hash' ∧
        c.db.header ((i + 1 : ℕ) : ℤ) hash' = some x ∧ x.parentHash = hash := by
  have hH := hcalls.admits
  obtain ⟨chain, hkept⟩ := kept_of_run hrun hcalls
  have hindexed := hkept.indexed
  obtain ⟨head, hhead, hlength, hheadhash⟩ := hkept.exists_last
  have hlt := hindexed.length_lt hH
  have hheadmem := List.mem_of_getElem? hhead
  refine ⟨head, ?_, fun n hn => ?_, ?_, fun i hi => ?_⟩
  · rw [hheadhash, Indexed.header_eq hH (hindexed.mem hheadmem)]
    exact hindexed.stored head hheadmem
  · rw [hindexed.index n hn, Option.isSome_map, Option.isSome_iff_exists]
    simp only [List.getElem?_eq_some_iff]
    constructor
    · rintro ⟨x, hlt', -⟩
      omega
    · exact fun hle => ⟨_, by omega, rfl⟩
  · rw [hheadhash]
    exact (hindexed.numberToHash_eq_iff hH (hindexed.mem hheadmem)).2 hhead
  · obtain ⟨x, hx⟩ : ∃ x, chain[i]? = some x := ⟨_, List.getElem?_eq_getElem (by omega)⟩
    obtain ⟨y, hy⟩ : ∃ y, chain[i + 1]? = some y := ⟨_, List.getElem?_eq_getElem (by omega)⟩
    have hymem := List.mem_of_getElem? hy
    obtain ⟨-, hparent, -⟩ :=
      hindexed.parent hH (hindexed.mem hymem) (hindexed.branch.linked _ _ _ hx hy)
    refine ⟨cfg.hash x, cfg.hash y, y, ?_, ?_, ?_, hparent.symm⟩
    · rw [hindexed.index i (by omega), hx]
      rfl
    · rw [hindexed.index (i + 1) (by omega), hy]
      rfl
    · rw [← hindexed.branch.number_eq _ _ hy, Indexed.header_eq hH (hindexed.mem hymem)]
      exact hindexed.stored y hymem

/-! ## A number of more than 64 bits -/

/-- A header whose extra data is its hash. -/
def sampleHeader (hash parentHash : Bytes) (number difficulty : ℕ) : BlockHeader where
  parentHash := parentHash
  uncleHash := KECCAK256_RLP_ARRAY
  coinbase := []
  transactionsTrie := KECCAK256_RLP
  difficulty := difficulty
  number := number
  extraData := hash
  nonce := []
  withdrawalsRoot := none
  rest := []

/-- The hash is read off the extra data, and nothing is validated. -/
def sampleConfig : Config where
  hash := BlockHeader.extraData
  genesisBlock := ⟨sampleHeader [0] [] 0 1, [.list [], .list []]⟩
  chainId := 1
  validateBlocks := false
  validateConsensus := false
  hardforkByHeadBlockNumber := false
  headerDefect := fun _ => none
  blockDefect := fun _ => none
  fuel := 10
  genesis_number := rfl

/-- An empty block of a proof-of-work chain. -/
def sampleItem (header : BlockHeader) : Item :=
  ⟨⟨1, .proofOfWork⟩, header, some [.list [], .list []]⟩

/-- A call that puts it. -/
def samplePut (header : BlockHeader) : Call := ⟨.put (sampleItem header), fun _ => .ok (), false⟩

/-- A child of the genesis, and of that a child. -/
def twoPuts : List Call :=
  [samplePut (sampleHeader [1] [0] 1 1), samplePut (sampleHeader [2] [1] 2 1)]

theorem canonical_index_of_run_twoPuts :
    ∃ c, run (Chain.call sampleConfig) (Chain.init sampleConfig) twoPuts = .ok c ∧
      ∃ head : BlockHeader, c.db.header head.number c.state.headHeaderHash = some head ∧
        (∀ n : ℕ, n < 2 ^ 64 → ((c.db.numberToHash n).isSome ↔ n ≤ head.number)) ∧
        c.db.numberToHash head.number = some c.state.headHeaderHash ∧
        ∀ i : ℕ, i < head.number → ∃ hash hash' x, c.db.numberToHash i = some hash ∧
          c.db.numberToHash ((i + 1 : ℕ) : ℤ) = some hash' ∧
          c.db.header ((i + 1 : ℕ) : ℤ) hash' = some x ∧ x.parentHash = hash := by
  obtain ⟨c, hc⟩ := exists_ok_of_isOk
    (show (run (Chain.call sampleConfig) (Chain.init sampleConfig) twoPuts).isOk = true by
      decide +kernel)
  exact ⟨c, hc, canonical_index_of_run twoPuts hc
    ⟨by decide +kernel, by decide +kernel⟩⟩

/-- A child of the genesis by its hash, of a number of 65 bits. -/
def longNumber : List Call := [samplePut (sampleHeader [1] [0] (2 ^ 64 + 1) 1)]

/-- **The index does not reach a number of more than 64 bits**: the header is
put under the last 64, and the numbers between are not in the index. -/
theorem index_of_long_number :
    (∀ x ∈ headersPut sampleConfig longNumber, ∀ y ∈ headersPut sampleConfig longNumber,
      sampleConfig.hash x = sampleConfig.hash y → x = y) ∧
    ∃ c, run (Chain.call sampleConfig) (Chain.init sampleConfig) longNumber = .ok c ∧
      ∃ head : BlockHeader, c.db.header head.number c.state.headHeaderHash = some head ∧
        ¬ ∀ n : ℕ, (c.db.numberToHash n).isSome ↔ n ≤ head.number := by
  refine ⟨by decide +kernel, ?_⟩
  have hfinal : (run (Chain.call sampleConfig) (Chain.init sampleConfig) longNumber).map
      (fun c => (c.db.header (2 ^ 64 + 1) c.state.headHeaderHash, c.db.numberToHash 2)) =
        .ok (some (sampleHeader [1] [0] (2 ^ 64 + 1) 1), none) := by
    decide +kernel
  cases hc : run (Chain.call sampleConfig) (Chain.init sampleConfig) longNumber with
  | error e =>
    rw [hc] at hfinal
    cases hfinal
  | ok c =>
    rw [hc] at hfinal
    obtain ⟨hhead, htwo⟩ := Prod.mk.inj (Except.ok.inj hfinal)
    refine ⟨c, rfl, sampleHeader [1] [0] (2 ^ 64 + 1) 1, hhead, fun h => ?_⟩
    have hsome := (h 2).2 (by decide)
    change (c.db.numberToHash 2).isSome = true at hsome
    rw [htwo] at hsome
    cases hsome

end TsEthereum.Blockchain
