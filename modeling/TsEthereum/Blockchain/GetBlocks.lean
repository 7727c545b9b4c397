import TsEthereum.Blockchain.Ancestor
import TsEthereum.Blockchain.Iterator

/-!
# `getBlocks`

The walk of `getBlocks` goes from number to number and keeps every block after so many
that it skips. Over a canonical chain it returns what `steps` says
(`eval_nextBlock`), and that is what is asked for, unless no block is asked for, or the
start is not a number that a key can hold (`getBlocks_eq_steps_iff`).
-/

namespace TsEthereum.Blockchain

open TsEthereum

variable {cfg : Config} {db : Database} {blocks : List Block} {maxBlocks skip : ℕ} {reverse : Bool}

/-- What a block is asked for by. -/
inductive BlockId
  | hash (hash : Bytes)
  | number (number : ℤ)

section

variable (cfg : Config)

/-- **`getBlock`** of the manager. -/
def getBlockOf : BlockId → Reading Block
  | .hash hash => getBlockByHash cfg hash
  | .number number => getBlock cfg number

/-- **`nextBlock`**, after so many blocks, with those it keeps. -/
def nextBlock (maxBlocks skip : ℕ) (reverse : Bool) :
    ℕ → ℕ → List Block → BlockId → Reading (List Block)
  | 0, _, _, _ => Await.throw .running
  | fuel + 1, i, blocks, id => do
    match ← (getBlockOf cfg id).attempt with
    | none => pure blocks
    | some block =>
      let nextBlockNumber : ℤ := block.header.number + if reverse then -1 else 1
      if i ≠ 0 ∧ skip ≠ 0 ∧ i % (skip + 1) ≠ 0 then
        nextBlock maxBlocks skip reverse fuel (i + 1) blocks (.number nextBlockNumber)
      else
        let blocks := blocks ++ [block]
        if blocks.length < maxBlocks then
          nextBlock maxBlocks skip reverse fuel (i + 1) blocks (.number nextBlockNumber)
        else pure blocks

/-- **`getBlocks`.** -/
def getBlocks (blockId : BlockId) (maxBlocks skip : ℕ) (reverse : Bool) : Reading (List Block) :=
  nextBlock cfg maxBlocks skip reverse cfg.fuel 0 [] blockId

end

/-! ## Canonical blocks -/

/-- **The database holds the canonical blocks**, each under its number, and no others. -/
structure HoldsBlocks (cfg : Config) (db : Database) (blocks : List Block) : Prop where
  number_eq : ∀ (n : ℕ) block, blocks[n]? = some block → block.header.number = n
  read : ∀ n : ℕ, n < 2 ^ 64 → (getBlockByNumber cfg n).eval db = .ok blocks[n]?
  length_lt : blocks.length < 2 ^ 64

theorem Indexed.holdsBlocks {H : Set BlockHeader} (h : Indexed cfg H db (blocks.map Block.header))
    (hH : cfg.Admits H) (hbody : ∀ block ∈ blocks, cfg.Accepts block.header block.body ∧
      (db.body block.header.number (cfg.hash block.header)).elim (emptyBody block.header) Except.ok =
        .ok block.body) :
    HoldsBlocks cfg db blocks where
  number_eq := by
    intro n block hget
    refine h.branch.number_eq n block.header ?_
    rw [List.getElem?_map, hget]
    rfl
  read := by
    intro n hn
    have hindex := h.index n hn
    rw [List.getElem?_map, Option.map_map] at hindex
    simp only [getBlockByNumber, Await.eval_bind, eval_numberToHash, ok_bind, hindex]
    cases hget : blocks[n]? with
    | none => rfl
    | some block =>
      have hmem := List.mem_of_getElem? hget
      obtain ⟨haccepts, hstored⟩ := hbody block hmem
      have hnumber : block.header.number = n := by
        refine h.branch.number_eq n block.header ?_
        rw [List.getElem?_map, hget]
        rfl
      have hchain := List.mem_map_of_mem (f := Block.header) hmem
      have hread : (getBlockAt cfg (cfg.hash block.header) (n : ℤ)).eval db = .ok block := by
        rw [← hnumber]
        refine getBlockAt_ok_iff.2 ⟨?_, hstored, haccepts⟩
        rw [Indexed.header_eq hH (h.mem hchain), h.stored _ hchain]
      simp only [Option.map_some, Function.comp_apply, Await.eval_bind, hread, ok_bind]
      rfl
  length_lt := by
    have hlength := h.length_lt hH
    rwa [List.length_map] at hlength

/-- The canonical block of a number. -/
def canonicalBlock (blocks : List Block) (n : ℤ) : Option Block :=
  if 0 ≤ n then blocks[n.toNat]? else none

/-- The number that is so far ahead. -/
def ahead (reverse : Bool) (n : ℤ) (distance : ℕ) : ℤ :=
  if reverse then n - distance else n + distance

/-- **What is asked for**: at most so many blocks, from one on in steps, up to the first number that
is missing. -/
def steps (blocks : List Block) (skip : ℕ) (reverse : Bool) : ℕ → ℤ → List Block
  | 0, _ => []
  | count + 1, n =>
    match canonicalBlock blocks n with
    | none => []
    | some block => block :: steps blocks skip reverse count (ahead reverse n (skip + 1))

theorem steps_of_none {n : ℤ} (h : canonicalBlock blocks n = none) (count : ℕ) :
    steps blocks skip reverse count n = [] := by
  cases count with
  | zero => rfl
  | succ count => rw [steps, h]

theorem canonicalBlock_isSome {n : ℤ} :
    (canonicalBlock blocks n).isSome ↔ 0 ≤ n ∧ n < blocks.length := by
  rw [canonicalBlock]
  split
  · rename_i hn
    rw [Option.isSome_iff_ne_none, ne_eq, List.getElem?_eq_none_iff]
    omega
  · rename_i hn
    exact iff_of_false Bool.false_ne_true fun hc => hn hc.1

theorem canonicalBlock_eq_none {n : ℤ} (h : ¬ (0 ≤ n ∧ n < blocks.length)) :
    canonicalBlock blocks n = none :=
  Option.not_isSome_iff_eq_none.1 fun hsome => h (canonicalBlock_isSome.1 hsome)

/-! ## The walk -/

theorem HoldsBlocks.eval_attempt (h : HoldsBlocks cfg db blocks) (n : ℤ) :
    ((getBlockOf cfg (.number n)).attempt).eval db = .ok blocks[asUintN64 n]? := by
  have hread := h.read (asUintN64 n) (asUintN64_lt n)
  have hcongr : getBlockByNumber cfg n = getBlockByNumber cfg (asUintN64 n : ℕ) := by
    unfold getBlockByNumber getBlockAt getHeader numberToHash lookupHeader lookupBody
    rw [asUintN64_asUintN64]
  rw [Await.eval_attempt, getBlockOf, getBlock, Await.eval_bind, hcongr, hread]
  cases blocks[asUintN64 n]? with
  | none => rfl
  | some block => rfl

theorem HoldsBlocks.eval_attempt_near (h : HoldsBlocks cfg db blocks) {n : ℤ} (hle : -1 ≤ n)
    (hlt : n < 2 ^ 64) :
    ((getBlockOf cfg (.number n)).attempt).eval db = .ok (canonicalBlock blocks n) := by
  have hlength := h.length_lt
  rw [h.eval_attempt, canonicalBlock]
  congr 1
  by_cases hn : 0 ≤ n
  · rw [if_pos hn]
    congr 1
    unfold asUintN64
    omega
  · rw [if_neg hn, List.getElem?_eq_none_iff]
    unfold asUintN64
    omega

theorem succ_mod (i m : ℕ) (hm : 0 < m) :
    (i + 1) % m = if i % m + 1 = m then 0 else i % m + 1 := by
  have hlt := Nat.mod_lt i hm
  have hdiv := Nat.div_add_mod i m
  have hsum : i + 1 = m * (i / m) + (i % m + 1) := by omega
  rw [hsum, Nat.mul_add_mod]
  split
  · rename_i hlast
    rw [hlast, Nat.mod_self]
  · exact Nat.mod_eq_of_lt (by omega)

/-- How many blocks are skipped before the next is kept. -/
def toSkip (skip i : ℕ) : ℕ := if i % (skip + 1) = 0 then 0 else skip + 1 - i % (skip + 1)

theorem toSkip_after_kept {skip i : ℕ} (h : i % (skip + 1) = 0) : toSkip skip (i + 1) = skip := by
  rw [toSkip, succ_mod i (skip + 1) (by omega), h]
  by_cases hskip : skip = 0
  · rw [hskip]
    rfl
  · rw [if_neg (show ¬ 0 + 1 = skip + 1 by omega), if_neg (by omega)]
    omega

theorem toSkip_after_skipped {skip i : ℕ} (h : i % (skip + 1) ≠ 0) :
    toSkip skip (i + 1) + 1 = toSkip skip i := by
  have hlt := Nat.mod_lt i (show 0 < skip + 1 by omega)
  rw [toSkip, toSkip, succ_mod i (skip + 1) (by omega), if_neg h]
  by_cases hlast : i % (skip + 1) + 1 = skip + 1
  · rw [if_pos hlast, if_pos rfl]
    omega
  · rw [if_neg hlast, if_neg (by omega)]
    omega

theorem HoldsBlocks.eval_nextBlock (h : HoldsBlocks cfg db blocks) {fuel i : ℕ}
    {kept : List Block} {n : ℤ} (hle : -1 ≤ n) (hlt : n ≤ blocks.length)
    (hend : canonicalBlock blocks n = none → if reverse then n = -1 else n = blocks.length)
    (hkept : kept.length < maxBlocks)
    (hfuel : (if reverse then n + 1 else blocks.length - n) < fuel) :
    (nextBlock cfg maxBlocks skip reverse fuel i kept (.number n)).eval db =
      .ok (kept ++ steps blocks skip reverse (maxBlocks - kept.length)
        (ahead reverse n (toSkip skip i))) := by
  have hlength := h.length_lt
  induction fuel generalizing i kept n with
  | zero =>
    cases reverse
    · simp only [Bool.false_eq_true, if_false] at hfuel
      omega
    · simp only [if_true] at hfuel
      omega
  | succ fuel ih =>
    rw [nextBlock]
    simp only [Await.eval_bind, h.eval_attempt_near hle (show n < 2 ^ 64 by omega), ok_bind]
    cases hblock : canonicalBlock blocks n with
    | none =>
      have hmissing : canonicalBlock blocks (ahead reverse n (toSkip skip i)) = none := by
        refine canonicalBlock_eq_none fun hc => ?_
        have hn := hend hblock
        rw [ahead] at hc
        cases reverse
        · simp only [Bool.false_eq_true, if_false] at hn hc
          omega
        · simp only [if_true] at hn hc
          omega
      rw [steps_of_none hmissing, List.append_nil]
      rfl
    | some block =>
      obtain ⟨hpos, hin⟩ := canonicalBlock_isSome.1 (by rw [hblock]; rfl)
      have hnumber : (block.header.number : ℤ) = n := by
        rw [canonicalBlock, if_pos hpos] at hblock
        have := h.number_eq _ _ hblock
        omega
      -- the next number, which is on the chain or right behind its end
      have hnext : ∀ (i : ℕ) (kept : List Block), kept.length < maxBlocks →
          (nextBlock cfg maxBlocks skip reverse fuel i kept
            (.number ((block.header.number : ℤ) + if reverse then -1 else 1))).eval db =
          .ok (kept ++ steps blocks skip reverse (maxBlocks - kept.length)
            (ahead reverse n (toSkip skip i + 1))) := by
        intro i kept hkept
        rw [hnumber]
        have hlater := @ih i kept (n + if reverse then -1 else 1)
        cases reverse
        · simp only [Bool.false_eq_true, if_false] at hlater hfuel ⊢
          rw [hlater (by omega) (by omega) (fun hnone => ?_) hkept (by omega)]
          · congr 3
            simp only [ahead, Bool.false_eq_true, if_false]
            omega
          · by_contra hne
            have hsome := canonicalBlock_isSome.2 (show 0 ≤ n + 1 ∧ n + 1 < blocks.length by omega)
            rw [hnone] at hsome
            cases hsome
        · simp only [if_true] at hlater hfuel ⊢
          rw [hlater (by omega) (by omega) (fun hnone => ?_) hkept (by omega)]
          · congr 3
            simp only [ahead, if_true]
            omega
          · by_contra hne
            have hsome := canonicalBlock_isSome.2 (show 0 ≤ n + -1 ∧ n + -1 < blocks.length by omega)
            rw [hnone] at hsome
            cases hsome
      dsimp only
      by_cases hzero : i % (skip + 1) = 0
      · -- the block is kept
        have htoSkip : toSkip skip i = 0 := by rw [toSkip, if_pos hzero]
        have hsame : ahead reverse n 0 = n := by
          rw [ahead]
          split <;> simp
        obtain ⟨count, hcount⟩ : ∃ count, maxBlocks - kept.length = count + 1 :=
          ⟨maxBlocks - kept.length - 1, by omega⟩
        rw [if_neg (fun hc => hc.2.2 hzero), htoSkip, hsame, hcount, steps, hblock]
        have hlonger : (kept ++ [block]).length = kept.length + 1 := by
          rw [List.length_append, List.length_singleton]
        dsimp only
        split
        · rename_i hmore
          rw [hnext (i + 1) (kept ++ [block]) hmore, List.append_assoc, List.singleton_append]
          rw [toSkip_after_kept hzero, show maxBlocks - (kept ++ [block]).length = count by omega]
        · rename_i hfull
          obtain rfl : count = 0 := by omega
          rfl
      · -- it is skipped
        have hskip : skip ≠ 0 := by
          rintro rfl
          exact hzero (Nat.mod_one i)
        have hi : i ≠ 0 := by
          rintro rfl
          exact hzero (Nat.zero_mod _)
        rw [if_pos ⟨hi, hskip, hzero⟩, hnext (i + 1) kept hkept,
          toSkip_after_skipped hzero]

theorem prefix_of_nextBlock {fuel i : ℕ} {kept out : List Block} {id : BlockId}
    (hout : (nextBlock cfg maxBlocks skip reverse fuel i kept id).eval db = .ok out) :
    kept <+: out := by
  induction fuel generalizing i kept id with
  | zero => cases hout
  | succ fuel ih =>
    rw [nextBlock] at hout
    simp only [Await.eval_bind, bind_eq_ok] at hout
    obtain ⟨found, -, hout⟩ := hout
    cases found with
    | none =>
      cases hout
      exact List.prefix_refl _
    | some block =>
      dsimp only at hout
      split at hout
      · exact ih hout
      · split at hout
        · exact (List.prefix_append kept [block]).trans (ih hout)
        · cases hout
          exact List.prefix_append kept [block]

theorem HoldsBlocks.getBlocks_ne_nil (h : HoldsBlocks cfg db blocks) {start : ℤ}
    (hfound : blocks[asUintN64 start]? ≠ none) :
    (getBlocks cfg (.number start) maxBlocks skip reverse).eval db ≠ .ok [] := by
  intro hnil
  obtain ⟨block, hblock⟩ := Option.ne_none_iff_exists'.1 hfound
  rw [getBlocks] at hnil
  cases hfuel : cfg.fuel with
  | zero =>
    rw [hfuel] at hnil
    cases hnil
  | succ fuel =>
    rw [hfuel, nextBlock] at hnil
    simp only [Await.eval_bind, h.eval_attempt, hblock, ok_bind, ne_eq, not_true_eq_false,
      false_and, if_false, List.nil_append] at hnil
    split at hnil
    · have hkept := prefix_of_nextBlock hnil
      simp at hkept
    · cases hnil

/-- **`getBlocks` returns what is asked for** of a canonical chain: exactly where no block of the
chain has the number that the key holds, or at least one block is asked for, and the key
holds the start. -/
theorem getBlocks_eq_steps_iff {H : Set BlockHeader}
    (h : Indexed cfg H db (blocks.map Block.header)) (hH : cfg.Admits H)
    (hbody : ∀ block ∈ blocks, cfg.Accepts block.header block.body ∧
      (db.body block.header.number (cfg.hash block.header)).elim (emptyBody block.header) Except.ok =
        .ok block.body)
    (hfuel : blocks.length < cfg.fuel) (start : ℤ) (maxBlocks skip : ℕ) (reverse : Bool) :
    (getBlocks cfg (.number start) maxBlocks skip reverse).eval db =
        .ok (steps blocks skip reverse maxBlocks start) ↔
      blocks[asUintN64 start]? = none ∨ 0 < maxBlocks ∧ start = (asUintN64 start : ℕ) := by
  have hholds := h.holdsBlocks hH hbody
  have hlength := hholds.length_lt
  have hkey := asUintN64_lt start
  by_cases hfound : blocks[asUintN64 start]? = none
  · -- nothing is found, and nothing is there
    refine iff_of_true ?_ (.inl hfound)
    have hmissing : canonicalBlock blocks start = none := by
      refine canonicalBlock_eq_none fun hc => ?_
      rw [List.getElem?_eq_none_iff, asUintN64] at hfound
      omega
    obtain ⟨fuel, hsucc⟩ := Nat.exists_eq_succ_of_ne_zero (show cfg.fuel ≠ 0 by omega)
    rw [steps_of_none hmissing, getBlocks, hsucc, nextBlock]
    simp only [Await.eval_bind, hholds.eval_attempt, hfound, ok_bind]
    rfl
  · have hin : asUintN64 start < blocks.length := by
      rw [List.getElem?_eq_none_iff] at hfound
      omega
    by_cases hstart : start = (asUintN64 start : ℕ)
    · by_cases hmax : 0 < maxBlocks
      · refine iff_of_true ?_ (.inr ⟨hmax, hstart⟩)
        have hwalk := @HoldsBlocks.eval_nextBlock cfg db blocks maxBlocks skip reverse hholds
          cfg.fuel 0 [] start (by omega) (by omega) (fun hnone => ?_) hmax (by split <;> omega)
        · have hsame : ahead reverse start (toSkip skip 0) = start := by
            rw [toSkip, if_pos (Nat.zero_mod _), ahead]
            split <;> omega
          rwa [hsame] at hwalk
        · -- the start is there
          have hsome := (@canonicalBlock_isSome blocks start).2 (by omega)
          rw [hnone] at hsome
          cases hsome
      · refine iff_of_false (fun hc => ?_) (fun hc => hc.elim hfound fun hc => hmax hc.1)
        obtain rfl : maxBlocks = 0 := by omega
        exact hholds.getBlocks_ne_nil hfound hc
    · -- the key holds another number
      refine iff_of_false (fun hc => ?_) (fun hc => hc.elim hfound fun hc => hstart hc.2)
      have hmissing : canonicalBlock blocks start = none := by
        refine canonicalBlock_eq_none fun hc => hstart ?_
        rw [asUintN64]
        omega
      rw [steps_of_none hmissing] at hc
      exact hholds.getBlocks_ne_nil hfound hc

/-- The blocks of the two headers, and what the database holds of them. -/
def sampleBlocks : List Block :=
  [⟨sampleGenesis, [.list [], .list []]⟩, ⟨sampleChild [1], [.list [], .list []]⟩]

def sampleBlockDatabase : Database
  | .record (.body n hash) =>
    if n = 0 ∧ hash = [0] ∨ n = 1 ∧ hash = [1] then some [.list [], .list []] else none
  | target => sampleDatabase target

theorem sampleBlockDatabase_indexed :
    Indexed sampleConfig sampleHeaders sampleBlockDatabase (sampleBlocks.map Block.header) where
  header := sampleDatabase_indexed.header
  number := sampleDatabase_indexed.number
  branch := sampleDatabase_indexed.branch
  stored := sampleDatabase_indexed.stored
  index := sampleDatabase_indexed.index
  genesis := sampleDatabase_indexed.genesis

/-- Both are returned from the genesis on. -/
theorem getBlocks_eq_steps_iff_sample :
    (getBlocks sampleConfig (.number 0) 5 0 false).eval sampleBlockDatabase =
        .ok (steps sampleBlocks 0 false 5 0) ↔
      sampleBlocks[asUintN64 0]? = none ∨ 0 < 5 ∧ (0 : ℤ) = (asUintN64 0 : ℕ) := by
  refine getBlocks_eq_steps_iff sampleBlockDatabase_indexed sampleHeaders_admits ?_ (by decide) 0 5
    0 false
  intro block hmem
  rcases List.mem_pair.1 hmem with rfl | rfl
  · exact ⟨⟨rfl, rfl⟩, rfl⟩
  · exact ⟨⟨rfl, rfl⟩, rfl⟩

/-- **Where none is asked for one is returned**, and from a number that the key cuts off, the block
of what is left. -/
theorem sample_overshoots :
    (getBlocks sampleConfig (.number 1) 0 0 false).eval sampleBlockDatabase ≠
        .ok (steps sampleBlocks 0 false 0 1) ∧
      (getBlocks sampleConfig (.number (2 ^ 64)) 1 0 false).eval sampleBlockDatabase ≠
        .ok (steps sampleBlocks 0 false 1 (2 ^ 64)) := by
  constructor
  · decide +kernel
  · decide +kernel

end TsEthereum.Blockchain
