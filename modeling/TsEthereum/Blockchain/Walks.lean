import TsEthereum.Blockchain.Chain
import TsEthereum.Common.Fork

/-!
# What the walks find

The chain a database holds is the list `chain` of headers its number index
goes through (`Indexed`). On such a database the walks of
`helpers/chain-helpers.ts` are read off the list: `findCommonAncestor`
returns where the header joins it (`findCommonAncestor_joins`), the deleting
loop passes what lies above a number (`deleteCanonicalFrom_ok`), and the
rebuilding one the path down to the ancestor (`rebuildCanonicalFrom_ok`).
-/

namespace TsEthereum.Blockchain

open TsEthereum

/-! ## Numbers -/

theorem asUintN64_lt (n : ℤ) : asUintN64 n < 2 ^ 64 := by
  unfold asUintN64
  omega

@[simp] theorem asUintN64_natCast {n : ℕ} (h : n < 2 ^ 64) : asUintN64 n = n := by
  unfold asUintN64
  omega

@[simp] theorem asUintN64_asUintN64 (n : ℤ) : asUintN64 (asUintN64 n : ℕ) = asUintN64 n :=
  asUintN64_natCast (asUintN64_lt n)

theorem natCast_sub_one {n m : ℕ} (h : n = m + 1) : (n : ℤ) - 1 = (m : ℕ) := by omega

theorem asUintN64_add_one {n m : ℤ} (h : asUintN64 n = asUintN64 m) :
    asUintN64 (n + 1) = asUintN64 (m + 1) := by
  unfold asUintN64 at h ⊢
  omega

/-! ## What a read returns -/

variable {cfg : Config} {db : Database}

@[simp] theorem eval_numberToHash (n : ℤ) :
    (numberToHash n).eval db = .ok (db.numberToHash n) := rfl

@[simp] theorem eval_lookupHeader (n : ℤ) (hash : Bytes) :
    (lookupHeader n hash).eval db = .ok (db.header n hash) := rfl

@[simp] theorem eval_lookupBody (n : ℤ) (hash : Bytes) :
    (lookupBody n hash).eval db = .ok (db.body n hash) := rfl

@[simp] theorem eval_lookupTotalDifficulty (n : ℤ) (hash : Bytes) :
    (lookupTotalDifficulty n hash).eval db = .ok (db.totalDifficulty n hash) := rfl

@[simp] theorem eval_lookupNumber (hash : Bytes) :
    (lookupNumber hash).eval db = .ok (db.hashToNumber hash) := rfl

@[simp] theorem eval_hashToNumber (hash : Bytes) :
    (hashToNumber hash).eval db = .ok (db.hashToNumber hash) := by
  simp only [hashToNumber, DBManager.hashToNumber, Await.eval_attempt, Await.eval_bind,
    eval_lookupNumber, ok_bind]
  cases db.hashToNumber hash <;> rfl

@[simp] theorem eval_getTotalDifficultyAt (hash : Bytes) (n : ℤ) :
    (getTotalDifficultyAt hash n).eval db = .ok ((db.totalDifficulty n hash).getD 0) := by
  simp only [getTotalDifficultyAt, Await.eval_bind, eval_lookupTotalDifficulty, ok_bind,
    Await.eval_pure]

theorem getHeader_ok {hash : Bytes} {n : ℤ} {x : BlockHeader} :
    (getHeader cfg hash n).eval db = .ok x ↔
      db.header n hash = some x ∧ cfg.headerDefect x = none := by
  simp only [getHeader, Await.eval_bind, eval_lookupHeader, ok_bind]
  cases db.header n hash with
  | none => simp
  | some y =>
    simp only [Option.some.injEq]
    split
    · next hd =>
      rw [Await.eval_pure, Except.ok.injEq]
      constructor
      · rintro rfl
        exact ⟨rfl, hd⟩
      · exact fun h => h.1
    · next reason hd =>
      rw [Await.eval_throw]
      constructor
      · intro h
        cases h
      · rintro ⟨rfl, h⟩
        rw [hd] at h
        cases h

@[simp] theorem getHeaderByHash_some (hash : Bytes) (n : ℤ) :
    getHeaderByHash cfg hash (some n) = getHeader cfg hash n := rfl

theorem getHeaderByHash_none_ok {hash : Bytes} {x : BlockHeader}
    (h : (getHeaderByHash cfg hash none).eval db = .ok x) :
    ∃ n, db.hashToNumber hash = some n ∧ db.header n hash = some x := by
  simp only [getHeaderByHash, Await.eval_bind, eval_hashToNumber, ok_bind] at h
  cases hn : db.hashToNumber hash with
  | none =>
    rw [hn] at h
    cases h
  | some n =>
    rw [hn] at h
    exact ⟨n, rfl, (getHeader_ok.1 h).1⟩

theorem getCanonicalHeader_ok {n : ℤ} {x : BlockHeader}
    (h : (getCanonicalHeader cfg n).eval db = .ok x) :
    ∃ hash, db.numberToHash n = some hash ∧ db.header n hash = some x := by
  simp only [getCanonicalHeader, Await.eval_bind, eval_numberToHash, ok_bind] at h
  cases hn : db.numberToHash n with
  | none =>
    rw [hn] at h
    cases h
  | some hash =>
    rw [hn] at h
    exact ⟨hash, rfl, (getHeader_ok.1 h).1⟩

/-! ## The chain of a database -/

/-- The stored header a header names as its parent. -/
def Database.Parent (db : Database) (x y : BlockHeader) : Prop :=
  x.number ≠ 0 ∧ db.header ((x.number : ℤ) - 1) x.parentHash = some y

/-- That parent, when it can be read. -/
def Config.ReadsParent (cfg : Config) (db : Database) (x y : BlockHeader) : Prop :=
  db.Parent x y ∧ cfg.headerDefect y = none

/-- What the headers under consideration are to be: told apart by their
hashes, and of numbers the keys can hold. -/
structure Config.Admits (cfg : Config) (H : Set BlockHeader) : Prop where
  injOn : Set.InjOn cfg.hash H
  number_lt : ∀ x ∈ H, x.number + 1 < 2 ^ 64

/-- **The database holds the chain**: headers of `H`, each under its own
number and hash and with its number; and an index that goes through `chain`,
a branch from the genesis, and no further. -/
structure Indexed (cfg : Config) (H : Set BlockHeader) (db : Database)
    (chain : List BlockHeader) : Prop where
  header : ∀ (n : ℕ) hash (x : BlockHeader), db (.record (.header n hash)) = some x →
    x ∈ H ∧ cfg.hash x = hash ∧ x.number = n
  number : ∀ x : BlockHeader, db (.record (.header x.number (cfg.hash x))) = some x →
    db.hashToNumber (cfg.hash x) = some x.number
  branch : Fork.IsBranch BlockHeader.number db.Parent chain
  stored : ∀ x ∈ chain, db (.record (.header x.number (cfg.hash x))) = some x
  index : ∀ n : ℕ, n < 2 ^ 64 → db.numberToHash n = chain[n]?.map cfg.hash
  genesis : chain[0]? = some cfg.genesisBlock.header

namespace Indexed

variable {H : Set BlockHeader} {chain : List BlockHeader}

theorem mem (h : Indexed cfg H db chain) {x : BlockHeader} (hx : x ∈ chain) : x ∈ H :=
  (h.header _ _ x (h.stored x hx)).1

theorem header_eq (hH : cfg.Admits H) {x : BlockHeader} (hx : x ∈ H) (hash : Bytes) :
    db.header x.number hash = db (.record (.header x.number hash)) := by
  have := hH.number_lt x hx
  rw [Database.header, asUintN64_natCast (by omega)]

theorem parent (h : Indexed cfg H db chain) (hH : cfg.Admits H) {x y : BlockHeader}
    (hx : x ∈ H) (hxy : db.Parent x y) :
    y ∈ H ∧ cfg.hash y = x.parentHash ∧ x.number = y.number + 1 := by
  obtain ⟨hne, hy⟩ := hxy
  have hlt := hH.number_lt x hx
  rw [natCast_sub_one (show x.number = x.number - 1 + 1 by omega), Database.header,
    asUintN64_natCast (by omega)] at hy
  obtain ⟨hyH, hyhash, hynumber⟩ := h.header _ _ y hy
  exact ⟨hyH, hyhash, by omega⟩

theorem length_lt (h : Indexed cfg H db chain) (hH : cfg.Admits H) : chain.length < 2 ^ 64 := by
  cases hn : chain.length with
  | zero => omega
  | succ n =>
    have hlast := List.getElem?_eq_getElem (show n < chain.length by omega)
    have hnumber := h.branch.number_eq n _ hlast
    have := hH.number_lt _ (h.mem (List.getElem_mem (show n < chain.length by omega)))
    omega

theorem numberToHash_number (h : Indexed cfg H db chain) (hH : cfg.Admits H) {x : BlockHeader}
    (hx : x ∈ H) : db.numberToHash x.number = chain[x.number]?.map cfg.hash := by
  have := hH.number_lt x hx
  exact h.index x.number (by omega)

/-- **The index has the hash of a header exactly when the chain has the
header.** -/
theorem numberToHash_eq_iff (h : Indexed cfg H db chain) (hH : cfg.Admits H) {x : BlockHeader}
    (hx : x ∈ H) : db.numberToHash x.number = some (cfg.hash x) ↔ chain[x.number]? = some x := by
  rw [h.numberToHash_number hH hx]
  constructor
  · intro hmap
    obtain ⟨y, hy, hhash⟩ := Option.map_eq_some_iff.1 hmap
    rw [hy, hH.injOn (h.mem (List.mem_of_getElem? hy)) hx hhash]
  · intro hx
    rw [hx]
    rfl

theorem canonical (h : Indexed cfg H db chain) (hH : cfg.Admits H) {n : ℕ} (hn : n < 2 ^ 64)
    {hash : Bytes} {x : BlockHeader} (hhash : db.numberToHash n = some hash)
    (hx : db.header n hash = some x) : chain[n]? = some x := by
  rw [Database.header, asUintN64_natCast hn] at hx
  obtain ⟨hxH, rfl, rfl⟩ := h.header _ _ x hx
  exact (h.numberToHash_eq_iff hH hxH).1 hhash

/-! ## The common ancestor -/

/-- **Where the walk back comes down on the chain, the header does**: it
passes numbers above the chain only. -/
theorem joins_of_walkBack (h : Indexed cfg H db chain) (hH : cfg.Admits H) {n fuel : ℕ}
    (hn : chain.length = n + 1) {x y : BlockHeader} {acc acc' : List BlockHeader} (hx : x ∈ H)
    (hle : n ≤ x.number) (hwalk : (walkBack cfg n fuel x acc).eval db = .ok (y, acc')) :
    y ∈ H ∧ y.number = n ∧ ∀ path A,
      Fork.Joins BlockHeader.number (cfg.ReadsParent db) chain y path A →
      ∃ path', Fork.Joins BlockHeader.number (cfg.ReadsParent db) chain x path' A := by
  induction fuel generalizing x acc with
  | zero => cases hwalk
  | succ fuel ih =>
    unfold walkBack at hwalk
    split at hwalk
    · next hne =>
      rw [Await.eval_bind] at hwalk
      obtain ⟨z, hz, hwalk⟩ := bind_eq_ok.1 hwalk
      have hread : cfg.ReadsParent db x z := by
        obtain ⟨hheader, hdefect⟩ := getHeader_ok.1 hz
        exact ⟨⟨by omega, hheader⟩, hdefect⟩
      obtain ⟨hzH, -, hnumber⟩ := h.parent hH hx hread.1
      obtain ⟨hyH, hyn, hjoins⟩ := ih hzH (by omega) hwalk
      refine ⟨hyH, hyn, fun path A hj => ?_⟩
      obtain ⟨path', hj'⟩ := hjoins path A hj
      refine ⟨x :: path', .step ?_ hread hnumber hj'⟩
      rw [List.getElem?_eq_none (by omega)]
      exact fun h => by cases h
    · cases hwalk
      exact ⟨hx, by omega, fun path A hj => ⟨path, hj⟩⟩

theorem joins_of_walkBoth (h : Indexed cfg H db chain) (hH : cfg.Admits H) {fuel : ℕ}
    {x y z A : BlockHeader} {acc acc' : List BlockHeader} (hx : x ∈ H)
    (hy : chain[y.number]? = some y) (hnumber : y.number = x.number)
    (hwalk : (walkBoth cfg fuel y x acc).eval db = .ok (A, z, acc'))
    (hmeet : cfg.hash A = cfg.hash z) :
    ∃ path, Fork.Joins BlockHeader.number (cfg.ReadsParent db) chain x path A := by
  induction fuel generalizing x y acc with
  | zero => cases hwalk
  | succ fuel ih =>
    unfold walkBoth at hwalk
    split at hwalk
    · next hne =>
      rw [Await.eval_bind] at hwalk
      obtain ⟨y', hy', hwalk⟩ := bind_eq_ok.1 hwalk
      rw [Await.eval_bind] at hwalk
      obtain ⟨x', hx', hwalk⟩ := bind_eq_ok.1 hwalk
      have hread : cfg.ReadsParent db x x' := by
        obtain ⟨hheader, hdefect⟩ := getHeader_ok.1 hx'
        exact ⟨⟨by omega, hheader⟩, hdefect⟩
      obtain ⟨hxH, -, hxnumber⟩ := h.parent hH hx hread.1
      have hlt := hH.number_lt x hx
      obtain ⟨hash, hhash, hheader⟩ := getCanonicalHeader_ok hy'
      rw [natCast_sub_one (show y.number = x'.number + 1 by omega)] at hhash hheader
      have hcanonical := h.canonical hH (by omega) hhash hheader
      have hynumber := h.branch.number_eq _ _ hcanonical
      rw [← hynumber] at hcanonical
      obtain ⟨path, hj⟩ := ih hxH hcanonical hynumber hwalk
      refine ⟨x :: path, .step ?_ hread hxnumber hj⟩
      rw [← hnumber, hy]
      intro heq
      exact hne.1 (congrArg cfg.hash (Option.some.inj heq))
    · cases hwalk
      rw [← hH.injOn (h.mem (List.mem_of_getElem? hy)) hx hmeet]
      exact ⟨[], .here hy⟩

theorem findCommonAncestor_joins (h : Indexed cfg H db chain) (hH : cfg.Admits H)
    {x A : BlockHeader} {headHeaderHash : Bytes} {ancestorHeaders : List BlockHeader} (hx : x ∈ H)
    (hhead : chain.getLast?.map cfg.hash = some headHeaderHash)
    (hfind : (findCommonAncestor cfg x headHeaderHash).eval db = .ok (A, ancestorHeaders)) :
    ∃ path, Fork.Joins BlockHeader.number (cfg.ReadsParent db) chain x path A := by
  obtain ⟨last, hlast, rfl⟩ := Option.map_eq_some_iff.1 hhead
  have hlastmem := List.mem_of_getLast? hlast
  have hlastget := h.branch.getElem?_number hlastmem
  have hlength : chain.length = last.number + 1 := by
    rw [List.getLast?_eq_getElem?] at hlast
    have hnumber := h.branch.number_eq _ _ hlast
    have := List.length_pos_of_mem hlastmem
    omega
  unfold findCommonAncestor at hfind
  rw [Await.eval_bind] at hfind
  obtain ⟨head, hget, hfind⟩ := bind_eq_ok.1 hfind
  -- the head is the last header of the chain
  obtain ⟨m, hm, hheader⟩ := getHeaderByHash_none_ok hget
  rw [h.number last (h.stored last hlastmem)] at hm
  rw [← Option.some.inj hm, header_eq hH (h.mem hlastmem), h.stored last hlastmem] at hheader
  obtain rfl := Option.some.inj hheader
  rw [Await.eval_bind] at hfind
  obtain ⟨⟨y, z, acc⟩, hstart, hfind⟩ := bind_eq_ok.1 hfind
  dsimp only at hfind
  split at hfind
  · cases hfind
  · next hnumber =>
    rw [not_not] at hnumber
    rw [Await.eval_bind] at hfind
    obtain ⟨⟨B, w, acc'⟩, hboth, hfind⟩ := bind_eq_ok.1 hfind
    dsimp only at hfind
    split at hfind
    · cases hfind
    · next hmeet =>
      rw [not_not] at hmeet
      cases hfind
      unfold atOneHeight at hstart
      split at hstart
      · -- the head is higher: the walk starts at the height of the header
        rw [Await.eval_bind] at hstart
        obtain ⟨y', hy', hstart⟩ := bind_eq_ok.1 hstart
        cases hstart
        obtain ⟨hash, hhash, hheader⟩ := getCanonicalHeader_ok hy'
        have hlt := hH.number_lt x hx
        have hcanonical := h.canonical hH (by omega) hhash hheader
        rw [← hnumber] at hcanonical
        exact h.joins_of_walkBoth hH hx hcanonical hnumber hboth hmeet
      · next hle =>
        rw [Await.eval_bind] at hstart
        obtain ⟨⟨y', acc''⟩, hback, hstart⟩ := bind_eq_ok.1 hstart
        cases hstart
        obtain ⟨hyH, -, hjoins⟩ := h.joins_of_walkBack hH hlength hx (by omega) hback
        obtain ⟨path, hj⟩ := h.joins_of_walkBoth hH hyH hlastget hnumber hboth hmeet
        exact hjoins path A hj

end Indexed

/-! ## What the loops write -/

/-- A pointer that moves to `new` if it is at one of `hashes`. -/
def moveFrom (hashes : List Bytes) (new hash : Bytes) : Bytes :=
  if hash ∈ hashes then new else hash

theorem moveFrom_cons (old new hash : Bytes) (hashes : List Bytes) :
    moveFrom (old :: hashes) new hash = moveFrom hashes new (repoint old new hash) := by
  unfold moveFrom repoint
  by_cases hold : hash = old
  · simp [hold]
  · simp [hold]

theorem trackedBlock_congr {n m : ℤ} (h : asUintN64 n = asUintN64 m) (trackDeletedBlocks : Bool) :
    trackedBlock cfg trackDeletedBlocks n = trackedBlock cfg trackDeletedBlocks m := by
  unfold trackedBlock getBlockByNumber getBlockAt getHeader numberToHash lookupHeader lookupBody
  rw [h]

theorem deleteCanonicalFrom_congr {n m : ℤ} (h : asUintN64 n = asUintN64 m) (newHeadHash : Bytes)
    (trackDeletedBlocks : Bool) (fuel : ℕ) (r : DeleteCanonicalResult) :
    deleteCanonicalFrom cfg newHeadHash trackDeletedBlocks fuel n r =
      deleteCanonicalFrom cfg newHeadHash trackDeletedBlocks fuel m r := by
  induction fuel generalizing n m r with
  | zero => rfl
  | succ fuel ih =>
    have hadd (hash : Bytes) (deleted : Option Block) :
        r.add n hash newHeadHash deleted = r.add m hash newHeadHash deleted := by
      unfold DeleteCanonicalResult.add createDeleteNumberToHashOp
      rw [h]
    unfold deleteCanonicalFrom
    simp only [trackedBlock_congr h, hadd, ih (asUintN64_add_one h)]
    rw [numberToHash, numberToHash, h]

/-- The deleting loop writes to hashes only, and leaves a head that is the new
one. -/
theorem deleteCanonicalFrom_writes {newHeadHash : Bytes} {trackDeletedBlocks : Bool} {fuel : ℕ}
    {n : ℤ} {r r' : DeleteCanonicalResult}
    (hloop : (deleteCanonicalFrom cfg newHeadHash trackDeletedBlocks fuel n r).eval db = .ok r') :
    (∀ op ∈ r'.ops, op ∈ r.ops ∨ ∃ m, op = createDeleteNumberToHashOp m) ∧
      (r.updatedHeadHeaderHash = newHeadHash → r'.updatedHeadHeaderHash = newHeadHash) := by
  induction fuel generalizing n r with
  | zero => cases hloop
  | succ fuel ih =>
    unfold deleteCanonicalFrom at hloop
    rw [Await.eval_bind, eval_numberToHash, ok_bind] at hloop
    cases hn : db.numberToHash n with
    | none =>
      rw [hn] at hloop
      cases hloop
      exact ⟨fun op hop => .inl hop, id⟩
    | some hash =>
      rw [hn] at hloop
      dsimp only at hloop
      rw [Await.eval_bind] at hloop
      obtain ⟨deleted, -, hloop⟩ := bind_eq_ok.1 hloop
      obtain ⟨hops, hhead⟩ := ih hloop
      refine ⟨fun op hop => ?_, fun heq => hhead ?_⟩
      · rcases hops op hop with hop | hop
        · rcases List.mem_append.1 hop with hop | hop
          · exact .inl hop
          · exact .inr ⟨n, List.mem_singleton.1 hop⟩
        · exact .inr hop
      · rw [DeleteCanonicalResult.add]
        dsimp only
        rw [heq, repoint]
        split <;> rfl

/-- **The rebuilding loop writes lookups of the blocks it passes**: the one it
starts from, unless the index has it, and stored ones. -/
theorem rebuildCanonicalFrom_writes {P : BlockHeader → Prop} {x : BlockHeader}
    (hstored : ∀ n hash y, db.header n hash = some y → P y) {state : MutableState} {fuel : ℕ}
    {n : ℤ} {r r' : Rebuilding} {currentCanonicalHash : Bytes} (hx : P x)
    (hloop : (rebuildCanonicalFrom cfg state fuel x n r).eval db =
      .ok (r', currentCanonicalHash)) :
    (∀ op ∈ r.ops, op ∈ r'.ops) ∧
      (∀ op ∈ r'.ops, op ∈ r.ops ∨
        ∃ y, P y ∧ op ∈ createSaveLookupOps (cfg.hash y) y.number) ∧
      (db.numberToHash n = some (cfg.hash x) ∨ x.number = 0 ∨
        ∀ op ∈ createSaveLookupOps (cfg.hash x) x.number, op ∈ r'.ops) := by
  induction fuel generalizing x n r with
  | zero => cases hloop
  | succ fuel ih =>
    unfold rebuildCanonicalFrom at hloop
    rw [Await.eval_bind, eval_numberToHash, ok_bind] at hloop
    split at hloop
    · next hcanonical =>
      cases hloop
      exact ⟨fun _ hop => hop, fun _ hop => .inl hop, .inl hcanonical⟩
    · split at hloop
      · next hzero =>
        cases hloop
        exact ⟨fun _ hop => hop, fun _ hop => .inl hop, .inr (.inl hzero)⟩
      · rw [Await.eval_bind, eval_numberToHash, ok_bind, Await.eval_bind, Await.eval_attempt] at hloop
        have hadd (op : DBWrite) : op ∈ (r.add cfg state x (db.numberToHash n)).ops ↔
            op ∈ r.ops ∨ op ∈ createSaveLookupOps (cfg.hash x) x.number := List.mem_append
        cases hparent : (getHeaderByHash cfg x.parentHash (some (n - 1))).eval db with
        | error e =>
          rw [hparent] at hloop
          cases hloop
          refine ⟨fun op hop => (hadd op).2 (.inl hop), fun op hop => ?_,
            .inr (.inr fun op hop => (hadd op).2 (.inr hop))⟩
          rcases (hadd op).1 hop with hop | hop
          · exact .inl hop
          · exact .inr ⟨x, hx, hop⟩
        | ok y =>
          rw [hparent] at hloop
          have hy := hstored _ _ y (getHeader_ok.1 hparent).1
          obtain ⟨hkept, hall, -⟩ := ih hy hloop
          refine ⟨fun op hop => hkept op ((hadd op).2 (.inl hop)), fun op hop => ?_,
            .inr (.inr fun op hop => hkept op ((hadd op).2 (.inr hop)))⟩
          rcases hall op hop with hop | hop
          · rcases (hadd op).1 hop with hop | hop
            · exact .inl hop
            · exact .inr ⟨x, hx, hop⟩
          · exact .inr hop

theorem isStale_iff {head staleHash : Option Bytes} :
    (staleHash.isSome && decide (head = staleHash)) = true ↔
      ∃ hash, staleHash = some hash ∧ head = some hash := by
  cases staleHash <;> simp

/-- What a switch to `x` replaces of the chain: what it has above the ancestor
and up to the height of `x`. -/
def replaced (chain : List BlockHeader) (A x : BlockHeader) : List BlockHeader :=
  (chain.take (x.number + 1)).drop (A.number + 1)

theorem mem_replaced_iff {chain : List BlockHeader}
    (hbranch : Fork.IsBranch BlockHeader.number db.Parent chain) {A x y : BlockHeader} :
    y ∈ replaced chain A x ↔ y ∈ chain ∧ A.number < y.number ∧ y.number ≤ x.number := by
  unfold replaced
  constructor
  · intro hy
    obtain ⟨i, hi⟩ := List.mem_iff_getElem?.1 hy
    rw [List.getElem?_drop, List.getElem?_take] at hi
    split at hi
    · have := hbranch.number_eq _ _ hi
      exact ⟨List.mem_of_getElem? hi, by omega, by omega⟩
    · cases hi
  · rintro ⟨hy, hlt, hle⟩
    refine List.mem_iff_getElem?.2 ⟨y.number - (A.number + 1), ?_⟩
    rw [List.getElem?_drop, List.getElem?_take, if_pos (by omega),
      show A.number + 1 + (y.number - (A.number + 1)) = y.number by omega]
    exact hbranch.getElem?_number hy

namespace Indexed

variable {H : Set BlockHeader} {chain : List BlockHeader}

theorem deleteCanonicalFrom_ok (h : Indexed cfg H db chain) (hH : cfg.Admits H) {n fuel : ℕ}
    (hn : n < 2 ^ 64) {newHeadHash : Bytes} {trackDeletedBlocks : Bool}
    {r r' : DeleteCanonicalResult}
    (hloop : (deleteCanonicalFrom cfg newHeadHash trackDeletedBlocks fuel n r).eval db = .ok r') :
    r'.ops = r.ops ++ (List.range' n (chain.length - n)).map
        (fun m : ℕ => createDeleteNumberToHashOp m) ∧
      (r'.updatedHeads = fun name =>
        (r.updatedHeads name).map (moveFrom ((chain.drop n).map cfg.hash) newHeadHash)) ∧
      r'.updatedHeadHeaderHash =
        moveFrom ((chain.drop n).map cfg.hash) newHeadHash r.updatedHeadHeaderHash ∧
      r'.updatedHeadBlockHash =
        moveFrom ((chain.drop n).map cfg.hash) newHeadHash r.updatedHeadBlockHash := by
  induction fuel generalizing n r with
  | zero => cases hloop
  | succ fuel ih =>
    unfold deleteCanonicalFrom at hloop
    rw [Await.eval_bind, eval_numberToHash, ok_bind, h.index n hn] at hloop
    rcases Nat.lt_or_ge n chain.length with hlt | hge
    · have hlength := h.length_lt hH
      rw [List.getElem?_eq_getElem hlt, Option.map_some] at hloop
      dsimp only at hloop
      rw [Await.eval_bind] at hloop
      obtain ⟨deleted, -, hloop⟩ := bind_eq_ok.1 hloop
      obtain ⟨hops, hheads, hheader, hblock⟩ := ih (n := n + 1) (by omega) hloop
      have hdrop : (chain.drop n).map cfg.hash =
          cfg.hash chain[n] :: (chain.drop (n + 1)).map cfg.hash := by
        rw [List.drop_eq_getElem_cons hlt, List.map_cons]
      rw [hdrop]
      refine ⟨?_, ?_, ?_, ?_⟩
      · rw [hops, DeleteCanonicalResult.add, List.append_assoc,
          show chain.length - n = chain.length - (n + 1) + 1 by omega, List.range'_succ]
        rfl
      · rw [hheads]
        funext name
        rw [DeleteCanonicalResult.add, Option.map_map]
        exact congrArg (fun f => Option.map f _) (funext fun hash => (moveFrom_cons _ _ _ _).symm)
      · rw [hheader, moveFrom_cons]
        rfl
      · rw [hblock, moveFrom_cons]
        rfl
    · rw [List.getElem?_eq_none hge] at hloop
      cases hloop
      have hid : moveFrom [] newHeadHash = id := rfl
      rw [List.drop_eq_nil_of_le hge, Nat.sub_eq_zero_of_le hge, List.map_nil, hid]
      simp

theorem rebuildCanonicalFrom_ok (h : Indexed cfg H db chain) (hH : cfg.Admits H)
    {state : MutableState} {x A : BlockHeader} {path : List BlockHeader} (hx : x ∈ H)
    (hj : Fork.Joins BlockHeader.number (cfg.ReadsParent db) chain x path A) {fuel : ℕ}
    {r r' : Rebuilding} {currentCanonicalHash : Bytes}
    (hloop : (rebuildCanonicalFrom cfg state fuel x x.number r).eval db =
      .ok (r', currentCanonicalHash)) :
    currentCanonicalHash = cfg.hash A ∧
      r'.ops = r.ops ++ path.flatMap (fun y => createSaveLookupOps (cfg.hash y) y.number) ∧
      (∀ name, r'.staleHeads name = true ↔ r.staleHeads name = true ∨
        ∃ y ∈ path, ∃ hash, db.numberToHash y.number = some hash ∧ state.heads name = some hash) ∧
      (r'.staleHeadBlock = true ↔ r.staleHeadBlock = true ∨
        ∃ y ∈ path, db.numberToHash y.number = some state.headBlockHash) := by
  induction hj generalizing fuel r with
  | @here x hcanonical =>
    cases fuel with
    | zero => cases hloop
    | succ fuel =>
      unfold rebuildCanonicalFrom at hloop
      rw [Await.eval_bind, eval_numberToHash, ok_bind, if_pos
        ((h.numberToHash_eq_iff hH hx).2 hcanonical)] at hloop
      cases hloop
      simp
  | @step x y A path hstale hread hnumber hj ih =>
    obtain ⟨hyH, hyhash, -⟩ := h.parent hH hx hread.1
    cases fuel with
    | zero => cases hloop
    | succ fuel =>
      unfold rebuildCanonicalFrom at hloop
      rw [Await.eval_bind, eval_numberToHash, ok_bind,
        if_neg (mt (h.numberToHash_eq_iff hH hx).1 hstale), if_neg (by omega), Await.eval_bind,
        eval_numberToHash, ok_bind, Await.eval_bind, Await.eval_attempt, getHeaderByHash_some,
        getHeader_ok.2 ⟨hread.1.2, hread.2⟩] at hloop
      dsimp only [ok_bind] at hloop
      rw [natCast_sub_one hnumber] at hloop
      obtain ⟨hcurrent, hops, hheads, hblock⟩ := ih hyH hloop
      refine ⟨hcurrent, ?_, fun name => ?_, ?_⟩
      · rw [hops, Rebuilding.add, List.append_assoc, List.flatMap_cons]
      · rw [hheads, Rebuilding.add]
        simp only [Bool.or_eq_true, isStale_iff, List.mem_cons, exists_eq_or_imp, or_assoc]
      · rw [hblock, Rebuilding.add]
        simp only [Bool.or_eq_true, decide_eq_true_eq, List.mem_cons, exists_eq_or_imp, or_assoc]
        rw [eq_comm (b := db.numberToHash x.number)]

theorem exists_path_iff (h : Indexed cfg H db chain) (hH : cfg.Admits H) {x A : BlockHeader}
    {path : List BlockHeader} (hx : x ∈ H)
    (hj : Fork.Joins BlockHeader.number (cfg.ReadsParent db) chain x path A) {hash : Bytes} :
    (∃ y ∈ path, db.numberToHash y.number = some hash) ↔
      hash ∈ (replaced chain A x).map cfg.hash := by
  have hlt := hH.number_lt x hx
  rw [List.mem_map]
  constructor
  · rintro ⟨y, hy, hhash⟩
    obtain ⟨hA, hle⟩ := hj.number_mem hy
    rw [h.index _ (by omega)] at hhash
    obtain ⟨z, hz, rfl⟩ := Option.map_eq_some_iff.1 hhash
    have hnumber := h.branch.number_eq _ _ hz
    exact ⟨z, (mem_replaced_iff h.branch).2
      ⟨List.mem_of_getElem? hz, by omega, by omega⟩, rfl⟩
  · rintro ⟨z, hz, rfl⟩
    obtain ⟨hzmem, hA, hle⟩ := (mem_replaced_iff h.branch).1 hz
    obtain ⟨y, hy, hnumber⟩ := hj.exists_mem hA hle
    refine ⟨y, hy, ?_⟩
    rw [hnumber]
    exact (h.numberToHash_eq_iff hH (h.mem hzmem)).2 (h.branch.getElem?_number hzmem)

/-- **`createRebuildCanonicalOps` writes the lookups of the path**, and what
points at a block that is replaced moves to the ancestor. -/
theorem createRebuildCanonicalOps_ok (h : Indexed cfg H db chain) (hH : cfg.Admits H)
    {state : MutableState} {x A : BlockHeader} {path : List BlockHeader} (hx : x ∈ H)
    (hj : Fork.Joins BlockHeader.number (cfg.ReadsParent db) chain x path A)
    {result : RebuildCanonicalResult}
    (hrebuild : (createRebuildCanonicalOps cfg x state).eval db = .ok result) :
    result.ops = path.flatMap (fun y => createSaveLookupOps (cfg.hash y) y.number) ∧
      (result.updatedHeads = fun name =>
        (state.heads name).map (moveFrom ((replaced chain A x).map cfg.hash) (cfg.hash A))) ∧
      result.updatedHeadBlockHash =
        moveFrom ((replaced chain A x).map cfg.hash) (cfg.hash A) state.headBlockHash := by
  unfold createRebuildCanonicalOps at hrebuild
  rw [Await.eval_bind] at hrebuild
  obtain ⟨⟨r, currentCanonicalHash⟩, hloop, hrebuild⟩ := bind_eq_ok.1 hrebuild
  cases hrebuild
  obtain ⟨rfl, hops, hheads, hblock⟩ := h.rebuildCanonicalFrom_ok hH hx hj hloop
  dsimp only
  refine ⟨hops, ?_, ?_⟩
  · funext name
    have hstale : r.staleHeads name = true ↔
        ∃ hash, state.heads name = some hash ∧ hash ∈ (replaced chain A x).map cfg.hash := by
      rw [hheads]
      simp only [Bool.false_eq_true, false_or]
      constructor
      · rintro ⟨y, hy, hash, hhash, hhead⟩
        exact ⟨hash, hhead, (h.exists_path_iff hH hx hj).1 ⟨y, hy, hhash⟩⟩
      · rintro ⟨hash, hhead, hmem⟩
        obtain ⟨y, hy, hhash⟩ := (h.exists_path_iff hH hx hj).2 hmem
        exact ⟨y, hy, hash, hhash, hhead⟩
    cases hhead : state.heads name with
    | none =>
      rw [if_neg]
      · rfl
      · rw [hstale, hhead]
        simp
    | some hash =>
      rw [hhead] at hstale
      rw [Option.map_some, moveFrom]
      by_cases hmem : hash ∈ (replaced chain A x).map cfg.hash
      · rw [if_pos (hstale.2 ⟨hash, rfl, hmem⟩), if_pos hmem]
      · rw [if_neg, if_neg hmem]
        rw [hstale]
        rintro ⟨hash', heq, hmem'⟩
        cases heq
        exact hmem hmem'
  · rw [moveFrom]
    refine if_congr ?_ rfl rfl
    rw [hblock]
    simp only [Bool.false_eq_true, false_or]
    exact h.exists_path_iff hH hx hj

end Indexed

end TsEthereum.Blockchain
