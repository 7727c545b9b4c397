import TsEthereum.Blockchain.Calls

/-!
# The canonical index

What the batch of a call leaves in each record, and so in the index: a put
switches the chain the database holds to the new head (`Indexed.switch`) or
leaves it (`Indexed.beside`), and a reset cuts it (`Indexed.reset`).
-/

namespace TsEthereum.Blockchain

open TsEthereum

variable {cfg : Config} {H : Set BlockHeader} {db : Database} {chain : List BlockHeader}
variable {item : Item} {td : ℕ}

/-! ## What a batch leaves in a record -/

/-- Writes to the index only. -/
def IndexOps (ops : List DBWrite) : Prop :=
  ∀ op ∈ ops, (∃ n, op.1 = .record (.numberToHash n)) ∨ ∃ hash, op.1 = .record (.hashToNumber hash)

theorem batch_put_of_ne {ops : List DBWrite} (hops : IndexOps ops) {state : MutableState}
    {r : Record} (hnumber : ∀ n, r ≠ .numberToHash n) (hhash : ∀ hash, r ≠ .hashToNumber hash) :
    Store.batch db (itemOps cfg item td ++ ops ++ createSaveHeadOps state) (.record r) =
      Store.batch db (itemOps cfg item td) (.record r) := by
  rw [Store.batch_append, batch_saveHeadOps, Store.batch_append]
  refine Store.batch_of_notMem fun v hv => ?_
  rcases hops _ hv with ⟨n, hn⟩ | ⟨hash, hh⟩
  · exact hnumber n (by simpa using hn)
  · exact hhash hash (by simpa using hh)

theorem mem_itemOps_header {n : ℕ} {hash : Bytes} {v : Option BlockHeader} :
    (⟨.record (.header n hash), v⟩ : DBWrite) ∈ itemOps cfg item td ↔
      (n = asUintN64 item.header.number ∧ hash = cfg.hash item.header) ∧ v = some item.header := by
  simp only [itemOps, createSetTDOp, createSetBlockOrHeaderOps, List.mem_cons, Sigma.mk.injEq,
    DBTarget.record.injEq, Record.header.injEq, reduceCtorEq, false_and, false_or]
  constructor
  · rintro (⟨h, hv⟩ | hv)
    · exact ⟨h, eq_of_heq hv⟩
    · simp at hv
  · rintro ⟨h, rfl⟩
    exact .inl ⟨h, HEq.rfl⟩

theorem mem_itemOps_totalDifficulty {n : ℕ} {hash : Bytes} {v : Option ℕ} :
    (⟨.record (.totalDifficulty n hash), v⟩ : DBWrite) ∈ itemOps cfg item td ↔
      (n = asUintN64 item.header.number ∧ hash = cfg.hash item.header) ∧ v = some td := by
  simp only [itemOps, createSetTDOp, createSetBlockOrHeaderOps, List.mem_cons, Sigma.mk.injEq,
    DBTarget.record.injEq, Record.totalDifficulty.injEq, reduceCtorEq, false_and, false_or]
  constructor
  · rintro (⟨h, hv⟩ | hv)
    · exact ⟨h, eq_of_heq hv⟩
    · simp at hv
  · rintro ⟨h, rfl⟩
    exact .inl ⟨h, HEq.rfl⟩

theorem mem_itemOps_body {n : ℕ} {hash : Bytes} {v : Option BlockBodyBytes} :
    (⟨.record (.body n hash), v⟩ : DBWrite) ∈ itemOps cfg item td ↔
      (n = asUintN64 item.header.number ∧ hash = cfg.hash item.header) ∧
        ∃ body, item.bodyToStore = some body ∧ v = some body := by
  simp only [itemOps, createSetTDOp, createSetBlockOrHeaderOps, List.mem_cons, List.mem_map,
    Option.mem_toList, Sigma.mk.injEq, DBTarget.record.injEq, Record.body.injEq, reduceCtorEq,
    false_and, false_or]
  constructor
  · rintro ⟨body, hbody, ⟨rfl, rfl⟩, hv⟩
    exact ⟨⟨rfl, rfl⟩, body, hbody, (eq_of_heq hv).symm⟩
  · rintro ⟨⟨rfl, rfl⟩, body, hbody, rfl⟩
    exact ⟨body, hbody, ⟨rfl, rfl⟩, HEq.rfl⟩

theorem itemOps_numberToHash {n : ℕ} (v : Option Bytes) :
    (⟨.record (.numberToHash n), v⟩ : DBWrite) ∉ itemOps cfg item td := by
  simp [itemOps, createSetTDOp, createSetBlockOrHeaderOps]

theorem itemOps_hashToNumber {hash : Bytes} (v : Option ℕ) :
    (⟨.record (.hashToNumber hash), v⟩ : DBWrite) ∉ itemOps cfg item td := by
  simp [itemOps, createSetTDOp, createSetBlockOrHeaderOps]

variable {ops : List DBWrite} {state : MutableState}

theorem batch_put_header (hops : IndexOps ops) :
    Store.batch db (itemOps cfg item td ++ ops ++ createSaveHeadOps state)
        (.record (.header (asUintN64 item.header.number) (cfg.hash item.header))) =
      some item.header := by
  rw [batch_put_of_ne hops (by simp) (by simp)]
  exact Store.batch_of_mem (fun v hv => (mem_itemOps_header.1 hv).2)
    (mem_itemOps_header.2 ⟨⟨rfl, rfl⟩, rfl⟩)

theorem batch_put_header_of_ne (hops : IndexOps ops) {n : ℕ} {hash : Bytes}
    (hne : ¬ (n = asUintN64 item.header.number ∧ hash = cfg.hash item.header)) :
    Store.batch db (itemOps cfg item td ++ ops ++ createSaveHeadOps state)
        (.record (.header n hash)) = db (.record (.header n hash)) := by
  rw [batch_put_of_ne hops (by simp) (by simp)]
  exact Store.batch_of_notMem fun v hv => hne (mem_itemOps_header.1 hv).1

theorem batch_put_numberToHash (n : ℕ) :
    Store.batch db (itemOps cfg item td ++ ops ++ createSaveHeadOps state)
        (.record (.numberToHash n)) =
      Store.batch (Store.batch db (itemOps cfg item td)) ops (.record (.numberToHash n)) := by
  rw [Store.batch_append, batch_saveHeadOps, Store.batch_append]

theorem batch_put_hashToNumber (hash : Bytes) :
    Store.batch db (itemOps cfg item td ++ ops ++ createSaveHeadOps state)
        (.record (.hashToNumber hash)) =
      Store.batch (Store.batch db (itemOps cfg item td)) ops (.record (.hashToNumber hash)) := by
  rw [Store.batch_append, batch_saveHeadOps, Store.batch_append]

/-- The writes of a switch to the index: the references above are deleted, and
the path is looked up. -/
def switchOps (cfg : Config) (chain : List BlockHeader) (n : ℕ) (path : List BlockHeader) :
    List DBWrite :=
  (List.range' n (chain.length - n)).map (fun m : ℕ => createDeleteNumberToHashOp m) ++
    path.flatMap fun y => createSaveLookupOps (cfg.hash y) y.number

theorem indexOps_switchOps (n : ℕ) (path : List BlockHeader) :
    IndexOps (switchOps cfg chain n path) := by
  intro op hop
  rcases List.mem_append.1 hop with hop | hop
  · obtain ⟨m, -, rfl⟩ := List.mem_map.1 hop
    exact .inl ⟨_, rfl⟩
  · obtain ⟨y, -, hop⟩ := List.mem_flatMap.1 hop
    rcases List.mem_pair.1 hop with rfl | rfl
    · exact .inl ⟨_, rfl⟩
    · exact .inr ⟨_, rfl⟩

theorem mem_switchOps_numberToHash {n m : ℕ} {path : List BlockHeader} {v : Option Bytes} :
    (⟨.record (.numberToHash m), v⟩ : DBWrite) ∈ switchOps cfg chain n path ↔
      (v = none ∧ ∃ i, n ≤ i ∧ i < chain.length ∧ m = asUintN64 i) ∨
        ∃ y ∈ path, m = asUintN64 y.number ∧ v = some (cfg.hash y) := by
  simp only [switchOps, createDeleteNumberToHashOp, createSaveLookupOps, createSetHashToNumberOp,
    List.mem_append, List.mem_map, List.mem_range'_1, List.mem_flatMap, List.mem_cons,
    List.not_mem_nil, or_false, Sigma.mk.injEq, DBTarget.record.injEq, Record.numberToHash.injEq,
    reduceCtorEq, false_and]
  refine or_congr ⟨?_, ?_⟩ ⟨?_, ?_⟩
  · rintro ⟨i, hi, rfl, hv⟩
    exact ⟨(eq_of_heq hv).symm, i, hi.1, by omega, rfl⟩
  · rintro ⟨rfl, i, hi, hlt, rfl⟩
    exact ⟨i, ⟨hi, by omega⟩, rfl, HEq.rfl⟩
  · rintro ⟨y, hy, rfl, hv⟩
    exact ⟨y, hy, rfl, eq_of_heq hv⟩
  · rintro ⟨y, hy, rfl, rfl⟩
    exact ⟨y, hy, rfl, HEq.rfl⟩

theorem mem_switchOps_hashToNumber {n : ℕ} {hash : Bytes} {path : List BlockHeader}
    {v : Option ℕ} :
    (⟨.record (.hashToNumber hash), v⟩ : DBWrite) ∈ switchOps cfg chain n path ↔
      ∃ y ∈ path, hash = cfg.hash y ∧ v = some (asUintN64 y.number) := by
  simp only [switchOps, createDeleteNumberToHashOp, createSaveLookupOps, createSetHashToNumberOp,
    List.mem_append, List.mem_map, List.mem_range'_1, List.mem_flatMap, List.mem_cons,
    List.not_mem_nil, or_false, Sigma.mk.injEq, DBTarget.record.injEq, Record.hashToNumber.injEq,
    reduceCtorEq, false_and, and_false, exists_false, false_or]
  constructor
  · rintro ⟨y, hy, rfl, hv⟩
    exact ⟨y, hy, rfl, eq_of_heq hv⟩
  · rintro ⟨y, hy, rfl, rfl⟩
    exact ⟨y, hy, rfl, HEq.rfl⟩

/-! ## The chain after a put -/

namespace Indexed

theorem congr {db' : Database} (h : Indexed cfg H db chain)
    (hdb : ∀ r, db' (.record r) = db (.record r)) : Indexed cfg H db' chain where
  header n hash x hx := h.header n hash x (by rw [← hdb]; exact hx)
  number x hx := (hdb _).trans (h.number x (by rw [← hdb]; exact hx))
  branch :=
    { number_eq := h.branch.number_eq
      linked := fun i x y hx hy =>
        ⟨(h.branch.linked i x y hx hy).1, (hdb _).trans (h.branch.linked i x y hx hy).2⟩ }
  stored x hx := (hdb _).trans (h.stored x hx)
  index n hn := (hdb _).trans (h.index n hn)
  genesis := h.genesis

theorem batch_put_header_mono (h : Indexed cfg H db chain) (hH : cfg.Admits H)
    (hx : item.header ∈ H) (hops : IndexOps ops) {n : ℕ} {hash : Bytes} {x : BlockHeader}
    (hstored : db (.record (.header n hash)) = some x) :
    Store.batch db (itemOps cfg item td ++ ops ++ createSaveHeadOps state)
      (.record (.header n hash)) = some x := by
  by_cases hsame : n = asUintN64 item.header.number ∧ hash = cfg.hash item.header
  · obtain ⟨rfl, rfl⟩ := hsame
    obtain ⟨hxH, hhash, -⟩ := h.header _ _ x hstored
    rw [batch_put_header hops, hH.injOn hxH hx hhash]
  · rw [batch_put_header_of_ne hops hsame, hstored]

theorem parent_mono (h : Indexed cfg H db chain) (hH : cfg.Admits H) (hx : item.header ∈ H)
    (hops : IndexOps ops) {x y : BlockHeader} (hxy : db.Parent x y) :
    Database.Parent (Store.batch db (itemOps cfg item td ++ ops ++ createSaveHeadOps state)) x y :=
  ⟨hxy.1, h.batch_put_header_mono hH hx hops hxy.2⟩

/-- **A put whose writes to the index make it go through `chain'`** leaves a
database that holds that. -/
theorem put (h : Indexed cfg H db chain) (hH : cfg.Admits H) (hx : item.header ∈ H)
    (hops : IndexOps ops) {chain' : List BlockHeader}
    (hnumber : ∀ hash (v : Option ℕ), (⟨.record (.hashToNumber hash), v⟩ : DBWrite) ∈ ops →
      ∃ y ∈ H, cfg.hash y = hash ∧ v = some y.number)
    (hself : (∃ v, (⟨.record (.hashToNumber (cfg.hash item.header)), v⟩ : DBWrite) ∈ ops) ∨
      item.header ∈ chain)
    (hbranch : Fork.IsBranch BlockHeader.number db.Parent chain')
    (hstored : ∀ x ∈ chain', x = item.header ∨
      db (.record (.header x.number (cfg.hash x))) = some x)
    (hindex : ∀ n : ℕ, n < 2 ^ 64 → Store.batch (Store.batch db (itemOps cfg item td)) ops
      (.record (.numberToHash n)) = chain'[n]?.map cfg.hash)
    (hgenesis : chain'[0]? = some cfg.genesisBlock.header) :
    Indexed cfg H (Store.batch db (itemOps cfg item td ++ ops ++ createSaveHeadOps state))
      chain' := by
  have hlt := hH.number_lt _ hx
  have hnumberkey : asUintN64 item.header.number = item.header.number :=
    asUintN64_natCast (by omega)
  refine
    { header := fun n hash x hx' => ?_
      number := fun x hx' => ?_
      branch := ⟨hbranch.number_eq, fun i x y hx' hy =>
        h.parent_mono hH hx hops (hbranch.linked i x y hx' hy)⟩
      stored := fun x hx' => ?_
      index := fun n hn => ?_
      genesis := hgenesis }
  · by_cases hsame : n = asUintN64 item.header.number ∧ hash = cfg.hash item.header
    · obtain ⟨rfl, rfl⟩ := hsame
      rw [batch_put_header hops] at hx'
      rw [← Option.some.inj hx']
      exact ⟨hx, rfl, hnumberkey.symm⟩
    · rw [batch_put_header_of_ne hops hsame] at hx'
      exact h.header n hash x hx'
  · -- all writes to the number of `x` write it, since its hash is no one else's
    have hxH : x ∈ H := by
      by_cases hsame : x.number = asUintN64 item.header.number ∧ cfg.hash x = cfg.hash item.header
      · rw [hsame.1, hsame.2, batch_put_header hops] at hx'
        rw [← Option.some.inj hx']
        exact hx
      · rw [batch_put_header_of_ne hops hsame] at hx'
        exact (h.header _ _ x hx').1
    have hall : ∀ v : Option ℕ, (⟨.record (.hashToNumber (cfg.hash x)), v⟩ : DBWrite) ∈ ops →
        v = some x.number := by
      intro v hv
      obtain ⟨y, hy, hhash, rfl⟩ := hnumber _ v hv
      rw [hH.injOn hy hxH hhash]
    rw [Database.hashToNumber, batch_put_hashToNumber]
    by_cases hex : ∃ v, (⟨.record (.hashToNumber (cfg.hash x)), v⟩ : DBWrite) ∈ ops
    · obtain ⟨v, hv⟩ := hex
      refine Store.batch_of_mem hall ?_
      rw [← hall v hv]
      exact hv
    · rw [Store.batch_of_notMem fun v hv => hex ⟨v, hv⟩,
        Store.batch_of_notMem fun v hv => itemOps_hashToNumber v hv]
      refine h.number x ?_
      by_cases hsame : x.number = asUintN64 item.header.number ∧ cfg.hash x = cfg.hash item.header
      · obtain rfl := hH.injOn hxH hx hsame.2
        rcases hself with hself | hself
        · exact absurd hself hex
        · exact h.stored _ hself
      · rw [batch_put_header_of_ne hops hsame] at hx'
        exact hx'
  · rcases hstored x hx' with rfl | hold
    · have hput : Store.batch db (itemOps cfg item td ++ ops ++ createSaveHeadOps state)
          (.record (.header (asUintN64 item.header.number) (cfg.hash item.header))) =
            some item.header := batch_put_header hops
      rwa [hnumberkey] at hput
    · exact h.batch_put_header_mono hH hx hops hold
  · rw [Database.numberToHash, asUintN64_natCast hn, batch_put_numberToHash]
    exact hindex n hn

theorem beside (h : Indexed cfg H db chain) (hH : cfg.Admits H) (hx : item.header ∈ H) :
    Indexed cfg H (Store.batch db (itemOps cfg item td ++
      [createSetHashToNumberOp (cfg.hash item.header) item.header.number] ++
        createSaveHeadOps state)) chain := by
  have hlt := hH.number_lt _ hx
  refine h.put hH hx ?_ ?_ ?_ h.branch (fun x hx' => .inr (h.stored x hx')) ?_ h.genesis
  · intro op hop
    rw [List.mem_singleton.1 hop]
    exact .inr ⟨_, rfl⟩
  · intro hash v hv
    simp only [createSetHashToNumberOp, List.mem_singleton, Sigma.mk.injEq, DBTarget.record.injEq,
      Record.hashToNumber.injEq] at hv
    obtain ⟨rfl, hv⟩ := hv
    rw [eq_of_heq hv, asUintN64_natCast (by omega)]
    exact ⟨_, hx, rfl, rfl⟩
  · exact .inl ⟨_, List.mem_singleton_self _⟩
  · intro n hn
    rw [Store.batch_of_notMem fun v hv => by simp [createSetHashToNumberOp] at hv,
      Store.batch_of_notMem fun v hv => itemOps_numberToHash v hv]
    have := h.index n hn
    rwa [Database.numberToHash, asUintN64_natCast hn] at this

theorem path_mem (h : Indexed cfg H db chain) (hH : cfg.Admits H) {x A : BlockHeader}
    {path : List BlockHeader} (hx : x ∈ H)
    (hj : Fork.Joins BlockHeader.number db.Parent chain x path A) {y : BlockHeader}
    (hy : y ∈ path) : y ∈ H ∧ (y = x ∨ db (.record (.header y.number (cfg.hash y))) = some y) := by
  induction hj with
  | here _ => cases hy
  | @step x z A path _ hparent hnumber hj ih =>
    rcases List.mem_cons.1 hy with rfl | hy
    · exact ⟨hx, .inl rfl⟩
    · obtain ⟨hzH, hzhash, -⟩ := h.parent hH hx hparent
      obtain ⟨hyH, rfl | hstored⟩ := ih hzH hy
      · refine ⟨hyH, .inr ?_⟩
        have hget := hparent.2
        rw [natCast_sub_one hnumber, header_eq hH hzH, ← hzhash] at hget
        exact hget
      · exact ⟨hyH, .inr hstored⟩

theorem switch (h : Indexed cfg H db chain) (hH : cfg.Admits H) (hx : item.header ∈ H)
    {path : List BlockHeader} {A : BlockHeader}
    (hj : Fork.Joins BlockHeader.number db.Parent chain item.header path A) :
    Indexed cfg H (Store.batch db (itemOps cfg item td ++
      switchOps cfg chain (item.header.number + 1) path ++ createSaveHeadOps state))
      (Fork.switch BlockHeader.number chain path A) := by
  have hlt := hH.number_lt _ hx
  have hlength := h.length_lt hH
  have hkey {y : BlockHeader} (hy : y ∈ path) : asUintN64 y.number = y.number :=
    asUintN64_natCast (by have := (hj.number_mem hy).2; omega)
  refine h.put hH hx (indexOps_switchOps _ _) ?_ ?_ (hj.isBranch_switch h.branch) ?_ ?_ ?_
  · intro hash v hv
    obtain ⟨y, hy, rfl, rfl⟩ := mem_switchOps_hashToNumber.1 hv
    exact ⟨y, (h.path_mem hH hx hj hy).1, rfl, by rw [hkey hy]⟩
  · rcases hj.eq_or_mem with ⟨-, heq⟩ | hmem
    · refine .inr ?_
      rw [heq]
      exact List.mem_of_getElem? hj.ancestor_mem
    · exact .inl ⟨_, mem_switchOps_hashToNumber.2 ⟨_, hmem, rfl, rfl⟩⟩
  · intro x hx'
    obtain ⟨i, hi⟩ := List.mem_iff_getElem?.1 hx'
    rcases hj.mem_switch hi with ⟨-, hold⟩ | ⟨hpath, -⟩
    · exact .inr (h.stored x (List.mem_of_getElem? hold))
    · exact (h.path_mem hH hx hj hpath).2
  · intro n hn
    have hold : Store.batch db (itemOps cfg item td) (.record (.numberToHash n)) =
        chain[n]?.map cfg.hash := by
      rw [Store.batch_of_notMem fun v hv => itemOps_numberToHash v hv]
      have := h.index n hn
      rwa [Database.numberToHash, asUintN64_natCast hn] at this
    rcases Nat.lt_or_ge A.number n with hA | hA
    · rcases Nat.lt_or_ge item.header.number n with hk | hk
      · -- above the new head
        rw [List.getElem?_eq_none (by rw [hj.length_switch]; omega)]
        rcases Nat.lt_or_ge n chain.length with hn' | hn'
        · refine Store.batch_of_mem (fun v hv => ?_) (mem_switchOps_numberToHash.2
            (.inl ⟨rfl, n, by omega, hn', (asUintN64_natCast hn).symm⟩))
          rcases mem_switchOps_numberToHash.1 hv with ⟨rfl, -⟩ | ⟨y, hy, rfl, -⟩
          · rfl
          · have := (hj.number_mem hy).2
            rw [hkey hy] at hk
            omega
        · rw [Store.batch_of_notMem, hold, List.getElem?_eq_none hn']
          intro v hv
          rcases mem_switchOps_numberToHash.1 hv with ⟨-, i, hi, hi', rfl⟩ | ⟨y, hy, rfl, -⟩
          · rw [asUintN64_natCast (by omega)] at hn'
            omega
          · have := (hj.number_mem hy).2
            rw [hkey hy] at hk
            omega
      · -- on the path
        obtain ⟨y, hy, rfl⟩ := hj.exists_mem hA hk
        rw [hj.getElem?_switch_of_mem hy]
        refine Store.batch_of_mem (fun v hv => ?_) (mem_switchOps_numberToHash.2
          (.inr ⟨y, hy, (hkey hy).symm, rfl⟩))
        rcases mem_switchOps_numberToHash.1 hv with ⟨-, i, hi, hi', heq⟩ | ⟨z, hz, heq, rfl⟩
        · rw [asUintN64_natCast (by omega)] at heq
          omega
        · rw [hkey hz] at heq
          have hsame := hj.getElem?_switch_of_mem hy
          rw [heq, hj.getElem?_switch_of_mem hz] at hsame
          rw [Option.some.inj hsame]
          rfl
    · -- not above the ancestor
      rw [hj.getElem?_switch_of_le hA, Store.batch_of_notMem, hold]
      intro v hv
      have hle : A.number ≤ item.header.number := by
        rw [hj.number_eq]
        omega
      rcases mem_switchOps_numberToHash.1 hv with ⟨-, i, hi, hi', rfl⟩ | ⟨y, hy, rfl, -⟩
      · rw [asUintN64_natCast (by omega)] at hA
        omega
      · have := (hj.number_mem hy).1
        rw [hkey hy] at hA
        omega
  · rw [hj.getElem?_switch_of_le (Nat.zero_le _)]
    exact h.genesis

theorem reset (h : Indexed cfg H db chain) (hH : cfg.Admits H) (n : ℕ) :
    Indexed cfg H (Store.batch db (switchOps cfg chain (n + 1) [] ++ createSaveHeadOps state))
      (chain.take (n + 1)) := by
  have hlength := h.length_lt hH
  have hsame : ∀ r, (∀ m, r ≠ .numberToHash m) → Store.batch db
      (switchOps cfg chain (n + 1) [] ++ createSaveHeadOps state) (.record r) =
        db (.record r) := by
    intro r hr
    rw [Store.batch_append, batch_saveHeadOps]
    refine Store.batch_of_notMem fun v hv => ?_
    rcases indexOps_switchOps _ _ _ hv with ⟨m, hm⟩ | ⟨hash, hm⟩
    · exact hr m (by simpa using hm)
    · cases hm
      obtain ⟨y, hy, -⟩ := mem_switchOps_hashToNumber.1 hv
      cases hy
  have hheader (m : ℕ) (hash : Bytes) : Store.batch db
      (switchOps cfg chain (n + 1) [] ++ createSaveHeadOps state) (.record (.header m hash)) =
        db (.record (.header m hash)) := hsame _ (by simp)
  refine
    { header := fun m hash x hx => h.header m hash x (by rw [← hheader]; exact hx)
      number := fun x hx => (hsame _ (by simp)).trans (h.number x (by rw [← hheader]; exact hx))
      branch :=
        { number_eq := (h.branch.take _).number_eq
          linked := fun i x y hx hy => ⟨((h.branch.take _).linked i x y hx hy).1,
            (hheader _ _).trans ((h.branch.take _).linked i x y hx hy).2⟩ }
      stored := fun x hx => (hheader _ _).trans (h.stored x (List.mem_of_mem_take hx))
      index := fun m hm => ?_
      genesis := by rw [List.getElem?_take, if_pos (by omega)]; exact h.genesis }
  have hold := h.index m hm
  rw [Database.numberToHash, asUintN64_natCast hm] at hold ⊢
  rw [Store.batch_append, batch_saveHeadOps, List.getElem?_take]
  by_cases hdeleted : n + 1 ≤ m ∧ m < chain.length
  · rw [if_neg (by omega)]
    refine Store.batch_of_mem (fun v hv => ?_) (mem_switchOps_numberToHash.2
      (.inl ⟨rfl, m, hdeleted.1, hdeleted.2, (asUintN64_natCast hm).symm⟩))
    rcases mem_switchOps_numberToHash.1 hv with ⟨rfl, -⟩ | ⟨y, hy, -⟩
    · rfl
    · cases hy
  · rw [Store.batch_of_notMem, hold]
    · split
      · rfl
      · rw [List.getElem?_eq_none (by omega)]
    · intro v hv
      rcases mem_switchOps_numberToHash.1 hv with ⟨-, i, hi, hi', rfl⟩ | ⟨y, hy, -⟩
      · rw [asUintN64_natCast (by omega)] at hdeleted
        exact hdeleted ⟨hi, hi'⟩
      · cases hy

end Indexed

end TsEthereum.Blockchain
