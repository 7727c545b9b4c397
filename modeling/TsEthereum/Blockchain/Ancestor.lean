import TsEthereum.Blockchain.Canonical

/-!
# The common ancestor, found

Where every stored header but the genesis has its parent stored (`Rooted`), each of
them joins the chain (`Rooted.exists_joins`), and `findCommonAncestor` ends there: the
walk of the new header goes down its path, the walk of both adds two headers for each
number (`eval_walkBack`, `eval_walkBoth`). What it has passed is `visited`, and the
ancestor is the last of it.
-/

namespace TsEthereum.Blockchain

open TsEthereum

variable {cfg : Config} {db : Database} {H : Set BlockHeader} {chain path : List BlockHeader}
  {x A : BlockHeader}

/-- **Every stored header can be read**, and is the genesis or has its parent stored. -/
def Rooted (cfg : Config) (db : Database) : Prop :=
  ∀ n hash x, db (.record (.header n hash)) = some x →
    cfg.headerDefect x = none ∧ (x = cfg.genesisBlock.header ∨ ∃ y, db.Parent x y)

/-- A header is an ancestor of another, or it. -/
def Database.AncestorOrSelf (db : Database) (x y : BlockHeader) : Prop :=
  Relation.ReflTransGen db.Parent x y

/-- The ancestors of a header down to the one where it joins. -/
def below (path : List BlockHeader) (A : BlockHeader) : List BlockHeader := (path ++ [A]).tail

/-- The canonical header of the same number, and the header. -/
def besides (chain : List BlockHeader) (x : BlockHeader) : List BlockHeader :=
  chain[x.number]?.toList ++ [x]

/-- **What is passed on the way to the ancestor**: with a higher head, the canonical header of the
number of the new one, and the two of each number from there down to the ancestor; else the new
branch down to the number of the head, and the two of each number from there. -/
def visited (chain path : List BlockHeader) (x A : BlockHeader) : List BlockHeader :=
  if x.number + 1 < chain.length then
    chain[x.number]?.toList ++ (below path A).flatMap (besides chain)
  else
    let above := x.number + 1 - chain.length
    (below path A).take above ++ ((below path A).drop above).flatMap (besides chain)

theorem Rooted.readsParent (h : Rooted cfg db) {x y : BlockHeader} (hxy : db.Parent x y) :
    cfg.ReadsParent db x y :=
  ⟨hxy, (h _ _ y hxy.2).1⟩

theorem Rooted.exists_joins (h : Rooted cfg db) (hindexed : Indexed cfg H db chain)
    (hH : cfg.Admits H) (hx : x ∈ H)
    (hparent : chain[x.number]? = some x ∨ ∃ y, db.Parent x y) :
    ∃ path A, Fork.Joins BlockHeader.number (cfg.ReadsParent db) chain x path A := by
  generalize hn : x.number = n at hparent
  induction n generalizing x with
  | zero =>
    rcases hparent with hchain | ⟨y, hne, -⟩
    · exact ⟨[], x, .here (hn ▸ hchain)⟩
    · exact absurd hn hne
  | succ n ih =>
    rw [← hn] at hparent
    by_cases hchain : chain[x.number]? = some x
    · exact ⟨[], x, .here hchain⟩
    · obtain ⟨y, hxy⟩ := hparent.resolve_left hchain
      obtain ⟨hyH, -, hnumber⟩ := hindexed.parent hH hx hxy
      have hy : y.number = n := by omega
      have hstored : chain[n]? = some y ∨ ∃ z, db.Parent y z := by
        rcases (h _ _ y hxy.2).2 with rfl | hz
        · left
          rw [← hy, cfg.genesis_number]
          exact hindexed.genesis
        · exact .inr hz
      obtain ⟨path, A, hj⟩ := ih hyH hy hstored
      exact ⟨x :: path, A, .step hchain (h.readsParent hxy) hnumber hj⟩

theorem below_cons {y : BlockHeader} {parent : BlockHeader → BlockHeader → Prop}
    (hj : Fork.Joins BlockHeader.number parent chain y path A) :
    below (x :: path) A = y :: below path A := by
  cases hj with
  | here _ => rfl
  | step _ _ _ _ => rfl

/-! ## The walks -/

section

variable (h : Indexed cfg H db chain) (hH : cfg.Admits H)
include h hH

theorem eval_parent (hx : x ∈ H) {y : BlockHeader} (hxy : cfg.ReadsParent db x y) :
    (getHeaderByHash cfg x.parentHash (some ((x.number : ℤ) - 1))).eval db = .ok y ∧
      0 < x.number := by
  obtain ⟨-, -, hnumber⟩ := h.parent hH hx hxy.1
  exact ⟨getHeader_ok.2 ⟨hxy.1.2, hxy.2⟩, by omega⟩

theorem eval_canonical (hrooted : Rooted cfg db) {n : ℕ} {y : BlockHeader}
    (hy : chain[n]? = some y) : (getCanonicalHeader cfg n).eval db = .ok y := by
  have hmem := List.mem_of_getElem? hy
  have hstored := h.stored y hmem
  have hlt := hH.number_lt y (h.mem hmem)
  have hnumber := h.branch.number_eq n y hy
  have hhash : db.numberToHash n = some (cfg.hash y) := by
    rw [h.index n (by omega), hy]
    rfl
  have hheader : db.header n (cfg.hash y) = some y := by
    rw [← hnumber, Indexed.header_eq hH (h.mem hmem), hstored]
  simp only [getCanonicalHeader, Await.eval_bind, eval_numberToHash, ok_bind, hhash,
    getHeaderByHash_some]
  exact getHeader_ok.2 ⟨hheader, (hrooted _ _ y hstored).1⟩

theorem eval_walkBack {n fuel : ℕ} (hx : x ∈ H)
    (hj : Fork.Joins BlockHeader.number (cfg.ReadsParent db) chain x path A)
    (hA : A.number ≤ n) (hn : n ≤ x.number) (hfuel : x.number - n < fuel)
    (passed : List BlockHeader) :
    ∃ y, (walkBack cfg n fuel x passed).eval db =
        .ok (y, passed ++ (below path A).take (x.number - n)) ∧ y ∈ H ∧ y.number = n ∧
      Fork.Joins BlockHeader.number (cfg.ReadsParent db) chain y (path.drop (x.number - n)) A ∧
      below (path.drop (x.number - n)) A = (below path A).drop (x.number - n) := by
  induction fuel generalizing x path passed with
  | zero => exact absurd hfuel (Nat.not_lt_zero _)
  | succ fuel ih =>
    rw [walkBack]
    by_cases hsame : n = x.number
    · subst hsame
      rw [if_neg (fun hc => hc.1 rfl), Nat.sub_self, List.take_zero, List.drop_zero,
        List.drop_zero, List.append_nil]
      exact ⟨x, rfl, hx, rfl, hj, rfl⟩
    · cases hj with
      | here _ => omega
      | @step _ y _ path hchain hxy hnumber hj =>
        obtain ⟨hread, hpos⟩ := eval_parent h hH hx hxy
        obtain ⟨hyH, -, -⟩ := h.parent hH hx hxy.1
        rw [if_pos ⟨hsame, hpos⟩]
        obtain ⟨z, hwalk, hzH, hz, hjz, hbelow⟩ := ih hyH hj (by omega) (by omega)
          (passed ++ [y])
        have hcount : x.number - n = y.number - n + 1 := by omega
        refine ⟨z, ?_, hzH, hz, ?_, ?_⟩
        · simp only [Await.eval_bind, hread, ok_bind, hwalk, below_cons hj, hcount, List.take_succ_cons,
            List.append_assoc, List.singleton_append]
        · rw [hcount, List.drop_succ_cons]
          exact hjz
        · rw [hcount, below_cons hj, List.drop_succ_cons, List.drop_succ_cons]
          exact hbelow

theorem eval_walkBoth (hrooted : Rooted cfg db) {fuel : ℕ} {y : BlockHeader} (hx : x ∈ H)
    (hj : Fork.Joins BlockHeader.number (cfg.ReadsParent db) chain x path A)
    (hy : chain[x.number]? = some y) (hfuel : x.number - A.number < fuel)
    (passed : List BlockHeader) :
    (walkBoth cfg fuel y x passed).eval db =
      .ok (A, A, passed ++ (below path A).flatMap (besides chain)) := by
  induction fuel generalizing x y path passed with
  | zero => exact absurd hfuel (Nat.not_lt_zero _)
  | succ fuel ih =>
    have hyH := h.mem (List.mem_of_getElem? hy)
    have hynumber := h.branch.number_eq _ _ hy
    rw [walkBoth]
    cases hj with
    | here hchain =>
      -- the two walks have met, and the loop ends
      obtain rfl : y = A := Option.some.inj (hy.symm.trans hchain)
      rw [if_neg (fun hc => hc.1 rfl)]
      change _ = Except.ok (y, y, passed ++ [])
      rw [List.append_nil]
      rfl
    | @step _ z _ path hchain hxz hnumber hj =>
      obtain ⟨hread, hpos⟩ := eval_parent h hH hx hxz
      obtain ⟨hzH, -, -⟩ := h.parent hH hx hxz.1
      -- off the chain the hashes differ, so that both go down by one
      have hne : cfg.hash y ≠ cfg.hash x := by
        intro heq
        rw [hH.injOn hyH hx heq] at hy
        exact hchain hy
      have hzlt : z.number < chain.length := by
        have := (List.getElem?_eq_some_iff.1 hy).1
        omega
      have hw := List.getElem?_eq_getElem hzlt
      have hcanonical := eval_canonical h hH hrooted hw
      have hAz := hj.number_eq
      have hwalk := ih hzH hj hw (by omega) (passed ++ [chain[z.number], z])
      rw [if_pos ⟨hne, by omega⟩]
      simp only [Await.eval_bind, natCast_sub_one (show y.number = z.number + 1 by omega),
        hcanonical, ok_bind, hread, hwalk, below_cons hj, List.flatMap_cons,
        besides, hw, Option.toList_some, List.append_assoc, List.cons_append,
        List.nil_append]

theorem number_le_of_joins (hx : x ∈ H)
    (hj : Fork.Joins BlockHeader.number (cfg.ReadsParent db) chain x path A) {y : BlockHeader}
    (hy : y ∈ chain) (hxy : db.AncestorOrSelf x y) : y.number ≤ A.number := by
  induction hj with
  | @here x hchain =>
    have hdown : ∀ z, db.AncestorOrSelf x z → z ∈ H ∧ z.number ≤ x.number := by
      intro z hz
      induction hz with
      | refl => exact ⟨hx, le_refl _⟩
      | tail _ hstep ih =>
        obtain ⟨hzH, -, hnumber⟩ := h.parent hH ih.1 hstep
        exact ⟨hzH, by have := ih.2; omega⟩
    exact (hdown y hxy).2
  | @step x z A path hchain hxz _ hj ih =>
    rcases Relation.ReflTransGen.cases_head hxy with rfl | ⟨z', hxz', hrest⟩
    · exact absurd (h.branch.getElem?_number hy) hchain
    · obtain rfl : z' = z := Option.some.inj (hxz'.2.symm.trans hxz.1.2)
      exact ih (h.parent hH hx hxz.1).1 hrest

omit h hH in
theorem ancestor_of_joins
    (hj : Fork.Joins BlockHeader.number (cfg.ReadsParent db) chain x path A) :
    A ∈ chain ∧ db.AncestorOrSelf x A := by
  induction hj with
  | here hchain => exact ⟨List.mem_of_getElem? hchain, .refl⟩
  | step _ hxz _ _ ih => exact ⟨ih.1, .head hxz.1 ih.2⟩

end

/-- **`findCommonAncestor` returns the highest ancestor on the chain**, and what it has passed on
the way: each header of the new branch below the new one, and of the chain from the lower of the
two heights, down to the ancestor itself. -/
theorem findCommonAncestor_eq (h : Indexed cfg H db chain) (hH : cfg.Admits H)
    (hrooted : Rooted cfg db) (hx : x ∈ H) (hparent : ∃ y, db.Parent x y)
    {headHeaderHash : Bytes} (hhead : chain.getLast?.map cfg.hash = some headHeaderHash)
    (hfuel : x.number < cfg.fuel) :
    ∃ A path, (findCommonAncestor cfg x headHeaderHash).eval db =
        .ok (A, visited chain path x A) ∧
      Fork.Joins BlockHeader.number (cfg.ReadsParent db) chain x path A ∧
      (A ∈ chain ∧ db.AncestorOrSelf x A) ∧
      ∀ y ∈ chain, db.AncestorOrSelf x y → y.number ≤ A.number := by
  obtain ⟨path, A, hj⟩ := hrooted.exists_joins h hH hx (.inr hparent)
  refine ⟨A, path, ?_, hj, ancestor_of_joins hj, fun y hy hxy =>
    number_le_of_joins h hH hx hj hy hxy⟩
  obtain ⟨last, hlast, rfl⟩ := Option.map_eq_some_iff.1 hhead
  have hlastmem := List.mem_of_getLast? hlast
  have hlastget := h.branch.getElem?_number hlastmem
  have hlength : chain.length = last.number + 1 := by
    rw [List.getLast?_eq_getElem?] at hlast
    have hnumber := h.branch.number_eq _ _ hlast
    have := List.length_pos_of_mem hlastmem
    omega
  have hread : (getHeaderByHash cfg (cfg.hash last) none).eval db = .ok last := by
    simp only [getHeaderByHash, Await.eval_bind, eval_hashToNumber, ok_bind,
      h.number last (h.stored last hlastmem)]
    refine getHeader_ok.2 ⟨?_, (hrooted _ _ last (h.stored last hlastmem)).1⟩
    rw [Indexed.header_eq hH (h.mem hlastmem), h.stored last hlastmem]
  have hA := (List.getElem?_eq_some_iff.1 hj.ancestor_mem).1
  have hnumber := hj.number_eq
  rw [findCommonAncestor]
  simp only [Await.eval_bind, hread, ok_bind, atOneHeight]
  by_cases hhigher : last.number > x.number
  · -- the head is higher, and the walk of both starts at once
    have hget := List.getElem?_eq_getElem (show x.number < chain.length by omega)
    have hcanonical := eval_canonical h hH hrooted hget
    have hsame := h.branch.number_eq _ _ hget
    have hwalk := eval_walkBoth h hH hrooted hx hj hget (show x.number - A.number < cfg.fuel by omega)
      [chain[x.number]]
    rw [if_pos hhigher]
    simp only [Await.eval_bind, hcanonical, ok_bind, Await.eval_pure, hsame, ne_eq,
      not_true_eq_false, if_false, hwalk, visited]
    rw [if_pos (by omega), hget]
    rfl
  · -- the new branch is walked down to the number of the head first
    obtain ⟨y, hback, hyH, hy, hjy, hbelow⟩ := eval_walkBack h hH hx hj
      (show A.number ≤ last.number by omega) (by omega)
      (show x.number - last.number < cfg.fuel by omega) []
    have hyget : chain[y.number]? = some last := hy ▸ hlastget
    have hwalk := eval_walkBoth h hH hrooted hyH hjy hyget
      (show y.number - A.number < cfg.fuel by omega) ([] ++ (below path A).take (x.number - last.number))
    have habove : x.number + 1 - chain.length = x.number - last.number := by omega
    rw [if_neg hhigher]
    simp only [Await.eval_bind, hback, ok_bind, Await.eval_pure, hy, ne_eq,
      not_true_eq_false, if_false, hwalk, visited]
    rw [if_neg (by omega), habove, hbelow]
    rfl

/-! ## A side branch -/

/-- The genesis, a child of it that is canonical, and another one. -/
def sampleGenesis : BlockHeader := sampleHeader [0] [] 0 1

def sampleChild (hash : Bytes) : BlockHeader := sampleHeader hash [0] 1 1

/-- What the database holds of the first two. -/
def sampleDatabase : Database
  | .record (.header n hash) =>
    if n = 0 ∧ hash = [0] then some sampleGenesis
    else if n = 1 ∧ hash = [1] then some (sampleChild [1])
    else none
  | .record (.numberToHash n) => if n = 0 then some [0] else if n = 1 then some [1] else none
  | .record (.hashToNumber hash) =>
    if hash = [0] then some 0 else if hash = [1] then some 1 else none
  | _ => none

theorem sampleDatabase_header {n : ℕ} {hash : Bytes} {x : BlockHeader}
    (h : sampleDatabase (.record (.header n hash)) = some x) :
    n = 0 ∧ hash = [0] ∧ x = sampleGenesis ∨ n = 1 ∧ hash = [1] ∧ x = sampleChild [1] := by
  simp only [sampleDatabase] at h
  split at h
  · rename_i hzero
    exact .inl ⟨hzero.1, hzero.2, (Option.some.inj h).symm⟩
  split at h
  · rename_i hone
    exact .inr ⟨hone.1, hone.2, (Option.some.inj h).symm⟩
  · cases h

theorem sampleDatabase_parent (hash : Bytes) :
    sampleDatabase.Parent (sampleChild hash) sampleGenesis :=
  ⟨Nat.one_ne_zero, rfl⟩

theorem sampleDatabase_rooted : Rooted sampleConfig sampleDatabase := by
  intro n hash x hx
  rcases sampleDatabase_header hx with ⟨-, -, rfl⟩ | ⟨-, -, rfl⟩
  · exact ⟨rfl, .inl rfl⟩
  · exact ⟨rfl, .inr ⟨_, sampleDatabase_parent [1]⟩⟩

/-- The three headers. -/
def sampleHeaders : Set BlockHeader := {sampleGenesis, sampleChild [1], sampleChild [2]}

theorem sampleHeaders_admits : sampleConfig.Admits sampleHeaders where
  injOn := by
    rintro x (rfl | rfl | rfl) y (rfl | rfl | rfl) hhash
    all_goals first | rfl | exact absurd hhash (by decide)
  number_lt := by
    rintro x (rfl | rfl | rfl)
    all_goals decide

theorem sampleDatabase_indexed :
    Indexed sampleConfig sampleHeaders sampleDatabase [sampleGenesis, sampleChild [1]] where
  header := by
    intro n hash x hx
    rcases sampleDatabase_header hx with ⟨rfl, rfl, rfl⟩ | ⟨rfl, rfl, rfl⟩
    · exact ⟨.inl rfl, rfl, rfl⟩
    · exact ⟨.inr (.inl rfl), rfl, rfl⟩
  number := by
    intro x hx
    rcases sampleDatabase_header hx with ⟨-, -, rfl⟩ | ⟨-, -, rfl⟩
    · rfl
    · rfl
  branch := by
    refine ⟨fun i x hx => ?_, fun i x y hx hy => ?_⟩
    · rcases i with _ | _ | i
      · obtain rfl := Option.some.inj hx
        rfl
      · obtain rfl := Option.some.inj hx
        rfl
      · cases hx
    · rcases i with _ | i
      · obtain rfl := Option.some.inj hx
        obtain rfl := Option.some.inj hy
        exact sampleDatabase_parent [1]
      · cases hy
  stored := by
    intro x hx
    rcases List.mem_pair.1 hx with rfl | rfl
    · rfl
    · rfl
  index := by
    intro n hn
    rw [Database.numberToHash, asUintN64_natCast hn]
    rcases n with _ | _ | n
    · rfl
    · rfl
    · rfl
  genesis := rfl

/-- The other child joins at the genesis. -/
theorem findCommonAncestor_eq_sample :
    ∃ A path, (findCommonAncestor sampleConfig (sampleChild [2]) [1]).eval sampleDatabase =
        .ok (A, visited [sampleGenesis, sampleChild [1]] path (sampleChild [2]) A) ∧
      Fork.Joins BlockHeader.number (sampleConfig.ReadsParent sampleDatabase)
        [sampleGenesis, sampleChild [1]] (sampleChild [2]) path A ∧
      (A ∈ [sampleGenesis, sampleChild [1]] ∧
        sampleDatabase.AncestorOrSelf (sampleChild [2]) A) ∧
      ∀ y ∈ [sampleGenesis, sampleChild [1]],
        sampleDatabase.AncestorOrSelf (sampleChild [2]) y → y.number ≤ A.number :=
  findCommonAncestor_eq sampleDatabase_indexed sampleHeaders_admits sampleDatabase_rooted
    (.inr (.inr rfl)) ⟨_, sampleDatabase_parent [2]⟩ rfl (by decide)

/-- A header whose parent is not stored is put, which has no difficulty. -/
def danglingPut : List Call := [samplePut (sampleHeader [5] [9] 5 0)]

/-- **The ancestor is among what is passed**, and where the parent of a stored parent is missing
there is none. -/
theorem sample_passed :
    (findCommonAncestor sampleConfig (sampleChild [2]) [1]).eval sampleDatabase =
        .ok (sampleGenesis, [sampleGenesis, sampleGenesis]) ∧
      (run (Chain.call sampleConfig) (Chain.init sampleConfig) danglingPut).map (fun c =>
        (c.db.header 5 [5], ((findCommonAncestor sampleConfig (sampleHeader [6] [5] 6 1)
          c.state.headHeaderHash).eval c.db).isOk)) =
        .ok (some (sampleHeader [5] [9] 5 0), false) := by
  constructor
  · decide +kernel
  · decide +kernel

end TsEthereum.Blockchain
