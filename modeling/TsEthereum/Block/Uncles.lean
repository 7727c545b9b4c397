import TsEthereum.Block.Frozen
import TsEthereum.Block.Validation
import TsEthereum.Common.Padding

/-!
# Uncles

`validateUncleHeaders`: each uncle is validated as a header, with the height of the block, and then
the chain is walked back for as long as the lowest uncle says, to look for the uncles and for their
parents among the blocks and the uncles that are passed. The bounds on an uncle's age and the
length of the walk are of different functions, and meet: an uncle of the right age has its parent
within the walk, and what was included before the walk began is lower than any uncle.
-/

namespace TsEthereum

namespace Block

open TsEthereum.ChainConfig

/-- What is thrown of uncles. -/
inductive UncleError where
  | validation (error : ValidationError)
  /-- 'The parent hash of the uncle header is not part of the canonical chain' -/
  | parentNotCanonical
  /-- 'The uncle is already included in the canonical chain' -/
  | alreadyIncluded
  /-- 'The uncle is a canonical block' -/
  | canonicalBlock
  deriving DecidableEq

structure UncleValidationContext extends HeaderValidationContext where
  getBlock : Bytes → Except ValidationError FrozenBlock

section

variable (keccak256 : Bytes → Bytes32) (m : HardforkManager) (ctx : UncleValidationContext)

/-- `hash()`, as a key. -/
def uncleKey (header : ValidatedHeader) : Bytes := (header.computeHash keccak256 m).1

def lowestUncleNumber (blockNumber : ℕ) (uncleHeaders : List ValidatedHeader) : ℕ :=
  uncleHeaders.foldl (fun lowest header => if header.number < lowest then header.number else lowest)
    blockNumber

/-- `canonicalChainHashes` and `includedUncles`. -/
structure WalkedBack where
  canonicalChainHashes : List Bytes
  includedUncles : List Bytes

/-- **The walk back**, of so many blocks. -/
def walkBack : ℕ → Bytes → WalkedBack → Except UncleError WalkedBack
  | 0, _, walked => .ok walked
  | count + 1, parentHash, walked =>
    match ctx.getBlock parentHash with
    | .error e => .error (.validation e)
    | .ok parentBlock =>
      walkBack count parentBlock.header.parentHash.1
        ⟨uncleKey keccak256 m parentBlock.header :: walked.canonicalChainHashes,
          parentBlock.uncleHeaders.map (uncleKey keccak256 m) ++ walked.includedUncles⟩

/-- The checks of an uncle after the walk. -/
def checkUncleHeader (walked : WalkedBack) (uncle : ValidatedHeader) : Except UncleError Unit :=
  if uncle.parentHash.1 ∉ walked.canonicalChainHashes then .error .parentNotCanonical
  else if uncleKey keccak256 m uncle ∈ walked.includedUncles then .error .alreadyIncluded
  else if uncleKey keccak256 m uncle ∈ walked.canonicalChainHashes then .error .canonicalBlock
  else .ok ()

/-- A check of each of a list, that throws what the first one throws. -/
def forEach {α : Type} (check : α → Except UncleError Unit) : List α → Except UncleError Unit
  | [] => .ok ()
  | a :: l => do
    check a
    forEach check l

/-- An uncle, validated as a header. -/
def validateUncle (height : ℕ) (uncle : ValidatedHeader) : Except UncleError Unit :=
  match validateHeader m uncle ctx.toHeaderValidationContext (some height) with
  | .ok () => .ok ()
  | .error e => .error (.validation e)

/-- **`validateUncleHeaders`**. What is thrown of several headers is what the first of them
throws. -/
def validateUncleHeaders (block : FrozenBlock) : Except UncleError Unit :=
  if block.uncleHeaders = [] then .ok ()
  else do
    forEach (validateUncle m ctx block.header.number) block.uncleHeaders
    let lowest := lowestUncleNumber block.header.number block.uncleHeaders
    let walked ← walkBack keccak256 m ctx (block.header.number - lowest + 1)
      block.header.parentHash.1 ⟨[], []⟩
    forEach (checkUncleHeader keccak256 m walked) block.uncleHeaders

/-! ## What uncles are to be -/

/-- **A header is valid against its parent**, whatever its age. -/
structure ValidAgainst (header parent : ValidatedHeader) : Prop where
  number : header.number = parent.number + 1
  timestamp : parent.timestamp < header.timestamp
  difficulty : checkDifficulty m ctx.toHeaderValidationContext header parent = .ok ()
  gasLimit : ofHeader (header.validateGasLimit m parent.gasLimit) = .ok ()
  baseFee : checkBaseFee m header parent
    (m.getHardforkByBlock (some header.number) (some header.timestamp)) = .ok ()
  blobGas : checkBlobGas m header parent
    (m.getHardforkByBlock (some header.number) (some header.timestamp)) = .ok ()
  requestsHash : checkRequestsHash m header
    (m.getHardforkByBlock (some header.number) (some header.timestamp)) = .ok ()

/-- **An uncle that a block may have**, on a chain that it extends: the block's `k`-th ancestor is
the one `k` before it. -/
structure Admissible (chain : List FrozenBlock) (uncle : ValidatedHeader) : Prop where
  parent : ∃ parent, ctx.getParentHeader uncle.parentHash.1 = .ok parent ∧
    ValidAgainst m ctx uncle parent ∧
    ∃ k ancestor, 2 ≤ k ∧ k ≤ 7 ∧ k ≤ chain.length ∧ chain[chain.length - k]? = some ancestor ∧
      ancestor.header = parent
  notAncestor : ∀ ancestor ∈ chain, uncle ≠ ancestor.header
  notIncluded : ∀ ancestor ∈ chain, uncle ∉ ancestor.uncleHeaders

/-- **A stored chain**, from its genesis on: each block is read by its hash, its number is its place,
it follows the one before it, and its own uncles were let through. -/
structure StoredChain (chain : List FrozenBlock) : Prop where
  number : ∀ (i : ℕ) (block : FrozenBlock), chain[i]? = some block → block.header.number = i
  parentHash : ∀ (i : ℕ) (block next : FrozenBlock), chain[i]? = some block →
    chain[i + 1]? = some next → next.header.parentHash.1 = uncleKey keccak256 m block.header
  getBlock : ∀ block ∈ chain, ctx.getBlock (uncleKey keccak256 m block.header) = .ok block
  getParentHeader : ∀ block ∈ chain,
    ctx.getParentHeader (uncleKey keccak256 m block.header) = .ok block.header
  /-- Headers are stored by their hashes. -/
  stored : ∀ hash header, ctx.getParentHeader hash = .ok header → uncleKey keccak256 m header = hash
  /-- Nothing comes before the genesis. -/
  genesis : ∀ block : FrozenBlock, chain[0]? = some block →
    ∃ e, ctx.getBlock block.header.parentHash.1 = .error e
  validated : ∀ block ∈ chain, validateUncleHeaders keccak256 m ctx block = .ok ()

/-- **A block extends a chain.** -/
structure Extends (chain : List FrozenBlock) (block : FrozenBlock) : Prop where
  number : block.header.number = chain.length
  nonempty : chain ≠ []
  parentHash : ∀ last, chain[chain.length - 1]? = some last →
    block.header.parentHash.1 = uncleKey keccak256 m last.header

/-- The headers that uncles are looked for among, and the uncles. -/
def headersAbout (chain : List FrozenBlock) (block : FrozenBlock) : Set ValidatedHeader :=
  {header | header ∈ block.uncleHeaders ∨
    ∃ ancestor ∈ chain, header = ancestor.header ∨ header ∈ ancestor.uncleHeaders}

/-- What a hash is of, with so many blocks before: the last of these, or nothing that is stored. -/
def ParentAt (chain : List FrozenBlock) : ℕ → Bytes → Prop
  | 0, hash => ∃ e, ctx.getBlock hash = .error e
  | i + 1, hash => ∃ block, chain[i]? = some block ∧ hash = uncleKey keccak256 m block.header

end

variable {keccak256 : Bytes → Bytes32} {m : HardforkManager} {ctx : UncleValidationContext}
  {chain : List FrozenBlock} {block : FrozenBlock}

/-! ## The checks, one by one -/

theorem forEach_eq_ok_iff {α : Type} {check : α → Except UncleError Unit} {l : List α} :
    forEach check l = .ok () ↔ ∀ a ∈ l, check a = .ok () := by
  induction l with
  | nil => simp [forEach]
  | cons a l ih =>
    rw [List.forall_mem_cons, ← ih, forEach]
    cases check a <;> simp [bind, Except.bind]

/-- **An uncle is validated** against its parent and by its age, unless its number is zero. -/
theorem validateUncle_eq_ok_iff {height : ℕ} {uncle : ValidatedHeader} :
    validateUncle m ctx height uncle = .ok () ↔ uncle.number = 0 ∨
      ∃ parent, ctx.getParentHeader uncle.parentHash.1 = .ok parent ∧
        ValidAgainst m ctx uncle parent ∧ parent.number + 1 < height ∧
        height < parent.number + 8 := by
  have hvalidate : validateUncle m ctx height uncle = .ok () ↔
      validateHeader m uncle ctx.toHeaderValidationContext (some height) = .ok () := by
    rw [validateUncle]
    cases validateHeader m uncle ctx.toHeaderValidationContext (some height) <;> simp
  rw [hvalidate, validateHeader]
  by_cases hzero : uncle.number = 0
  · simp [hzero]
  rw [if_neg hzero, bind_eq_ok]
  simp only [hzero, false_or, error_bind, ok_bind, check_bind_eq_ok, ite_error_eq_ok, checkUncle,
    ne_eq, not_not, not_le]
  constructor
  · rintro ⟨parent, hparent, hnumber, htimestamp, hdifficulty, hgas, hage, hbase, hblob, hrequests⟩
    by_cases hages : parent.number + 1 < height ∧ height < parent.number + 8
    · exact ⟨parent, hparent, ⟨hnumber, htimestamp, hdifficulty, hgas, hbase, hblob, hrequests⟩,
        hages.1, hages.2⟩
    · rw [if_neg hages] at hage
      cases hage
  · rintro ⟨parent, hparent, h, hold, hyoung⟩
    exact ⟨parent, hparent, h.number, h.timestamp, h.difficulty, h.gasLimit,
      if_pos ⟨hold, hyoung⟩, h.baseFee, h.blobGas, h.requestsHash⟩

/-- The lowest number is no more than the block's, and no more than that of any uncle. -/
theorem lowestUncleNumber_le {blockNumber : ℕ} {uncleHeaders : List ValidatedHeader} :
    lowestUncleNumber blockNumber uncleHeaders ≤ blockNumber ∧
      ∀ uncle ∈ uncleHeaders, lowestUncleNumber blockNumber uncleHeaders ≤ uncle.number := by
  induction uncleHeaders generalizing blockNumber with
  | nil => exact ⟨le_refl _, by simp⟩
  | cons uncle uncleHeaders ih =>
    have hcons : lowestUncleNumber blockNumber (uncle :: uncleHeaders) = lowestUncleNumber
        (if uncle.number < blockNumber then uncle.number else blockNumber) uncleHeaders := rfl
    obtain ⟨hle, hall⟩ := @ih (if uncle.number < blockNumber then uncle.number else blockNumber)
    rw [hcons, List.forall_mem_cons]
    refine ⟨hle.trans ?_, hle.trans ?_, hall⟩ <;> split <;> omega

theorem lowestUncleNumber_pos {blockNumber : ℕ} {uncleHeaders : List ValidatedHeader}
    (hblock : 0 < blockNumber) (huncles : ∀ uncle ∈ uncleHeaders, 0 < uncle.number) :
    0 < lowestUncleNumber blockNumber uncleHeaders := by
  induction uncleHeaders generalizing blockNumber with
  | nil => exact hblock
  | cons uncle uncleHeaders ih =>
    rw [List.forall_mem_cons] at huncles
    refine ih ?_ huncles.2
    change 0 < if uncle.number < blockNumber then uncle.number else blockNumber
    split
    · exact huncles.1
    · exact hblock

theorem validateUncleHeaders_eq_ok {block : FrozenBlock} (huncles : block.uncleHeaders ≠ []) :
    validateUncleHeaders keccak256 m ctx block = .ok () ↔
      (∀ uncle ∈ block.uncleHeaders, validateUncle m ctx block.header.number uncle = .ok ()) ∧
      ∃ walked, walkBack keccak256 m ctx (block.header.number -
          lowestUncleNumber block.header.number block.uncleHeaders + 1)
          block.header.parentHash.1 ⟨[], []⟩ = .ok walked ∧
        ∀ uncle ∈ block.uncleHeaders, checkUncleHeader keccak256 m walked uncle = .ok () := by
  rw [validateUncleHeaders, if_neg huncles, check_bind_eq_ok]
  simp only [bind_eq_ok, forEach_eq_ok_iff]

theorem checkUncleHeader_eq_ok_iff {walked : WalkedBack} {uncle : ValidatedHeader} :
    checkUncleHeader keccak256 m walked uncle = .ok () ↔
      uncle.parentHash.1 ∈ walked.canonicalChainHashes ∧
      uncleKey keccak256 m uncle ∉ walked.includedUncles ∧
      uncleKey keccak256 m uncle ∉ walked.canonicalChainHashes := by
  rw [checkUncleHeader, ite_error_eq_ok, ite_error_eq_ok, ite_error_eq_ok, not_not]
  simp

/-! ## The walk -/

theorem StoredChain.parentAt (h : StoredChain keccak256 m ctx chain) {i : ℕ} {block : FrozenBlock}
    (hblock : chain[i]? = some block) :
    ParentAt keccak256 m ctx chain i block.header.parentHash.1 := by
  cases i with
  | zero => exact h.genesis block hblock
  | succ i =>
    have hlt : i < chain.length := by
      have := (List.getElem?_eq_some_iff.1 hblock).1
      omega
    exact ⟨chain[i], List.getElem?_eq_getElem hlt,
      h.parentHash i _ block (List.getElem?_eq_getElem hlt) hblock⟩

theorem Extends.parentAt (h : Extends keccak256 m chain block) :
    ParentAt keccak256 m ctx chain chain.length block.header.parentHash.1 := by
  obtain ⟨n, hn⟩ := Nat.exists_eq_succ_of_ne_zero (List.length_pos_iff.2 h.nonempty).ne'
  obtain ⟨last, hlast⟩ : ∃ last, chain[n]? = some last :=
    ⟨_, List.getElem?_eq_getElem (show n < chain.length by omega)⟩
  rw [hn]
  exact ⟨last, hlast, h.parentHash last (by rw [hn]; exact hlast)⟩

/-- **A walk within the chain** collects the blocks that it passes, and their uncles. -/
theorem walkBack_within (h : StoredChain keccak256 m ctx chain) {count j : ℕ} (hcount : count ≤ j)
    {hash : Bytes} (hhash : ParentAt keccak256 m ctx chain j hash) (walked : WalkedBack) :
    ∃ result, walkBack keccak256 m ctx count hash walked = .ok result ∧
      (∀ key, key ∈ result.canonicalChainHashes ↔ key ∈ walked.canonicalChainHashes ∨
        ∃ i ancestor, j ≤ i + count ∧ i < j ∧ chain[i]? = some ancestor ∧
          key = uncleKey keccak256 m ancestor.header) ∧
      ∀ key, key ∈ result.includedUncles ↔ key ∈ walked.includedUncles ∨
        ∃ i ancestor, j ≤ i + count ∧ i < j ∧ chain[i]? = some ancestor ∧
          ∃ uncle ∈ ancestor.uncleHeaders, key = uncleKey keccak256 m uncle := by
  induction count generalizing j hash walked with
  | zero =>
    refine ⟨walked, rfl, fun key => ⟨.inl, fun hkey => hkey.resolve_right ?_⟩,
      fun key => ⟨.inl, fun hkey => hkey.resolve_right ?_⟩⟩
    · rintro ⟨i, ancestor, hle, hlt, -⟩
      omega
    · rintro ⟨i, ancestor, hle, hlt, -⟩
      omega
  | succ count ih =>
    obtain ⟨j, rfl⟩ := Nat.exists_eq_succ_of_ne_zero (show j ≠ 0 by omega)
    obtain ⟨parentBlock, hparent, rfl⟩ := hhash
    have hget := h.getBlock parentBlock (List.mem_of_getElem? hparent)
    obtain ⟨result, hwalk, hcanonical, hincluded⟩ := ih (by omega) (h.parentAt hparent)
      ⟨uncleKey keccak256 m parentBlock.header :: walked.canonicalChainHashes,
        parentBlock.uncleHeaders.map (uncleKey keccak256 m) ++ walked.includedUncles⟩
    refine ⟨result, by rw [walkBack, hget]; exact hwalk, fun key => ?_, fun key => ?_⟩
    · rw [hcanonical, List.mem_cons]
      constructor
      · rintro ((rfl | hkey) | ⟨i, ancestor, hle, hlt, hancestor, rfl⟩)
        · exact .inr ⟨j, parentBlock, by omega, by omega, hparent, rfl⟩
        · exact .inl hkey
        · exact .inr ⟨i, ancestor, by omega, by omega, hancestor, rfl⟩
      · rintro (hkey | ⟨i, ancestor, hle, hlt, hancestor, rfl⟩)
        · exact .inl (.inr hkey)
        · obtain rfl | hne := eq_or_ne i j
          · obtain rfl := Option.some.inj (hancestor.symm.trans hparent)
            exact .inl (.inl rfl)
          · exact .inr ⟨i, ancestor, by omega, by omega, hancestor, rfl⟩
    · rw [hincluded, List.mem_append, List.mem_map]
      constructor
      · rintro ((⟨uncle, huncle, rfl⟩ | hkey) | ⟨i, ancestor, hle, hlt, hancestor, hkey⟩)
        · exact .inr ⟨j, parentBlock, by omega, by omega, hparent, uncle, huncle, rfl⟩
        · exact .inl hkey
        · exact .inr ⟨i, ancestor, by omega, by omega, hancestor, hkey⟩
      · rintro (hkey | ⟨i, ancestor, hle, hlt, hancestor, uncle, huncle, rfl⟩)
        · exact .inl (.inr hkey)
        · obtain rfl | hne := eq_or_ne i j
          · obtain rfl := Option.some.inj (hancestor.symm.trans hparent)
            exact .inl (.inl ⟨uncle, huncle, rfl⟩)
          · exact .inr ⟨i, ancestor, by omega, by omega, hancestor, uncle, huncle, rfl⟩

theorem walkBack_past (h : StoredChain keccak256 m ctx chain) {count j : ℕ} (hcount : j < count)
    {hash : Bytes} (hhash : ParentAt keccak256 m ctx chain j hash) (walked : WalkedBack) :
    ∃ e, walkBack keccak256 m ctx count hash walked = .error e := by
  induction count generalizing j hash walked with
  | zero => omega
  | succ count ih =>
    cases j with
    | zero =>
      obtain ⟨e, he⟩ := hhash
      exact ⟨.validation e, by rw [walkBack, he]⟩
    | succ j =>
      obtain ⟨parentBlock, hparent, rfl⟩ := hhash
      have hget := h.getBlock parentBlock (List.mem_of_getElem? hparent)
      obtain ⟨e, he⟩ := ih (by omega) (h.parentAt hparent)
        ⟨uncleKey keccak256 m parentBlock.header :: walked.canonicalChainHashes,
          parentBlock.uncleHeaders.map (uncleKey keccak256 m) ++ walked.includedUncles⟩
      exact ⟨e, by rw [walkBack, hget]; exact he⟩

theorem StoredChain.number_lt (h : StoredChain keccak256 m ctx chain) {i : ℕ} {block : FrozenBlock}
    (hblock : chain[i]? = some block) {uncle : ValidatedHeader}
    (huncle : uncle ∈ block.uncleHeaders) : uncle.number < i := by
  have hne : block.uncleHeaders ≠ [] := List.ne_nil_of_mem huncle
  obtain ⟨hvalid, walked, hwalk, -⟩ := (validateUncleHeaders_eq_ok hne).1
    (h.validated block (List.mem_of_getElem? hblock))
  have hnumber := h.number i block hblock
  rcases validateUncle_eq_ok_iff.1 (hvalid uncle huncle) with hzero | ⟨parent, -, hagainst, hold, -⟩
  · -- a genesis has no uncles: the walk of one block would pass it
    rcases Nat.eq_zero_or_pos i with rfl | hpos
    · obtain ⟨e, he⟩ := walkBack_past h (Nat.succ_pos _) (h.parentAt hblock) ⟨[], []⟩
      rw [he] at hwalk
      cases hwalk
    · omega
  · have := hagainst.number
    omega

/-- What the walk of a block has passed: the ancestors from the lowest uncle's parent on, and what
these include. -/
structure Passed (keccak256 : Bytes → Bytes32) (m : HardforkManager) (chain : List FrozenBlock)
    (lowest : ℕ) (walked : WalkedBack) : Prop where
  canonical : ∀ key, key ∈ walked.canonicalChainHashes ↔ ∃ ancestor ∈ chain,
    lowest ≤ ancestor.header.number + 1 ∧ key = uncleKey keccak256 m ancestor.header
  included : ∀ key, key ∈ walked.includedUncles ↔ ∃ ancestor ∈ chain,
    lowest ≤ ancestor.header.number + 1 ∧
      ∃ uncle ∈ ancestor.uncleHeaders, key = uncleKey keccak256 m uncle

theorem Extends.exists_passed (h : StoredChain keccak256 m ctx chain)
    (hblock : Extends keccak256 m chain block) {lowest : ℕ} (hpos : 0 < lowest)
    (hlowest : lowest ≤ chain.length) :
    ∃ walked, walkBack keccak256 m ctx (chain.length - lowest + 1) block.header.parentHash.1
      ⟨[], []⟩ = .ok walked ∧ Passed keccak256 m chain lowest walked := by
  obtain ⟨walked, hwalk, hcanonical, hincluded⟩ :=
    walkBack_within h (show chain.length - lowest + 1 ≤ chain.length by omega) hblock.parentAt ⟨[], []⟩
  -- a place that the walk passes, as a block that is high enough
  have hplace : ∀ P : FrozenBlock → Prop, (∃ i ancestor, chain.length ≤ i +
      (chain.length - lowest + 1) ∧ i < chain.length ∧ chain[i]? = some ancestor ∧ P ancestor) ↔
      ∃ ancestor ∈ chain, lowest ≤ ancestor.header.number + 1 ∧ P ancestor := by
    intro P
    constructor
    · rintro ⟨i, ancestor, hle, -, hancestor, hP⟩
      have hnumber := h.number i ancestor hancestor
      exact ⟨ancestor, List.mem_of_getElem? hancestor, by omega, hP⟩
    · rintro ⟨ancestor, hmem, hle, hP⟩
      obtain ⟨i, hi⟩ := List.getElem?_of_mem hmem
      have hnumber := h.number i ancestor hi
      exact ⟨i, ancestor, by omega, (List.getElem?_eq_some_iff.1 hi).1, hi, hP⟩
  refine ⟨walked, hwalk, fun key => ?_, fun key => ?_⟩
  · rw [hcanonical, ← hplace]
    exact or_iff_right List.not_mem_nil
  · rw [hincluded, ← hplace]
    exact or_iff_right List.not_mem_nil

/-- What comes through the walk, and the checks before and after it, may be an uncle. -/
theorem Passed.admissible (h : StoredChain keccak256 m ctx chain) {lowest : ℕ} {walked : WalkedBack}
    {uncle : ValidatedHeader} (hwalked : Passed keccak256 m chain lowest walked) (hpos : 0 < lowest)
    (hlowest : lowest ≤ uncle.number) (hvalid : validateUncle m ctx chain.length uncle = .ok ())
    (hcheck : checkUncleHeader keccak256 m walked uncle = .ok ()) :
    Admissible m ctx chain uncle := by
  obtain hzero | ⟨parent, hparent, hagainst, hold, hyoung⟩ := validateUncle_eq_ok_iff.1 hvalid
  · omega
  have hsucc := hagainst.number
  obtain ⟨hparentHash, hnotIncluded, hnotCanonical⟩ := checkUncleHeader_eq_ok_iff.1 hcheck
  obtain ⟨ancestor, hmem, -, hkey⟩ := (hwalked.canonical _).1 hparentHash
  obtain rfl : ancestor.header = parent := by
    rw [hkey, h.getParentHeader ancestor hmem] at hparent
    exact Except.ok.inj hparent
  obtain ⟨i, hancestor⟩ := List.getElem?_of_mem hmem
  have hlt := (List.getElem?_eq_some_iff.1 hancestor).1
  have hi := h.number i ancestor hancestor
  refine ⟨⟨_, hparent, hagainst, chain.length - i, ancestor, by omega, by omega, by omega, ?_, rfl⟩,
    fun other hother heq => hnotCanonical ((hwalked.canonical _).2 ⟨other, hother, ?_, by rw [heq]⟩),
    fun other hother hincludes => hnotIncluded
      ((hwalked.included _).2 ⟨other, hother, ?_, uncle, hincludes, rfl⟩)⟩
  · rw [show chain.length - (chain.length - i) = i by omega]
    exact hancestor
  · rw [← heq]
    omega
  · -- what includes the uncle is higher, so the walk has passed it
    obtain ⟨j, hj⟩ := List.getElem?_of_mem hother
    have hlower := h.number_lt hj hincludes
    have hnumber := h.number j other hj
    omega

theorem Admissible.checked (h : StoredChain keccak256 m ctx chain) {lowest : ℕ} {walked : WalkedBack}
    {uncle : ValidatedHeader} (hwalked : Passed keccak256 m chain lowest walked)
    (hlowest : lowest ≤ uncle.number) (huncle : uncle ∈ block.uncleHeaders)
    (hinj : Set.InjOn (uncleKey keccak256 m) (headersAbout chain block))
    (hadmissible : Admissible m ctx chain uncle) :
    validateUncle m ctx chain.length uncle = .ok () ∧
      checkUncleHeader keccak256 m walked uncle = .ok () := by
  obtain ⟨parent, hparent, hagainst, k, ancestor, hold, hyoung, hk, hancestor, rfl⟩ :=
    hadmissible.parent
  have hnumber := h.number _ ancestor hancestor
  have hsucc := hagainst.number
  refine ⟨validateUncle_eq_ok_iff.2 (.inr ⟨_, hparent, hagainst, by omega, by omega⟩),
    checkUncleHeader_eq_ok_iff.2 ⟨(hwalked.canonical _).2 ⟨ancestor,
      List.mem_of_getElem? hancestor, by omega, (h.stored _ _ hparent).symm⟩, fun hkey => ?_,
      fun hkey => ?_⟩⟩
  · obtain ⟨other, hother, -, included, hincluded, hkeys⟩ := (hwalked.included _).1 hkey
    have heq : uncle = included := hinj (.inl huncle) (.inr ⟨other, hother, .inr hincluded⟩) hkeys
    exact hadmissible.notIncluded other hother (heq ▸ hincluded)
  · obtain ⟨other, hother, -, hkeys⟩ := (hwalked.canonical _).1 hkey
    exact hadmissible.notAncestor other hother
      (hinj (.inl huncle) (.inr ⟨other, hother, .inl rfl⟩) hkeys)

/-- **Uncles are let through exactly when each is one that the block may have.** -/
theorem validateUncleHeaders_eq_ok_iff (keccak256 : Bytes → Bytes32) (m : HardforkManager)
    (ctx : UncleValidationContext) (chain : List FrozenBlock) (block : FrozenBlock)
    (h : StoredChain keccak256 m ctx chain) (hblock : Extends keccak256 m chain block)
    (hinj : Set.InjOn (uncleKey keccak256 m) (headersAbout chain block)) :
    validateUncleHeaders keccak256 m ctx block = .ok () ↔
      ∀ uncle ∈ block.uncleHeaders, Admissible m ctx chain uncle := by
  rcases eq_or_ne block.uncleHeaders [] with hnil | hne
  · simp [validateUncleHeaders, hnil]
  rw [validateUncleHeaders_eq_ok hne, hblock.number]
  obtain ⟨hlowest, hlowestUncle⟩ := @lowestUncleNumber_le chain.length block.uncleHeaders
  constructor
  · rintro ⟨hvalid, walked, hwalk, hcheck⟩ uncle huncle
    -- the walk has not passed the genesis, so no uncle has the number zero
    have hpos : 0 < lowestUncleNumber chain.length block.uncleHeaders := by
      by_contra hzero
      obtain ⟨e, he⟩ := walkBack_past h (show chain.length < chain.length -
        lowestUncleNumber chain.length block.uncleHeaders + 1 by omega) hblock.parentAt ⟨[], []⟩
      rw [he] at hwalk
      cases hwalk
    obtain ⟨walked', hwalk', hpassed⟩ := hblock.exists_passed h hpos hlowest
    obtain rfl : walked' = walked := Except.ok.inj (hwalk'.symm.trans hwalk)
    exact hpassed.admissible h hpos (hlowestUncle uncle huncle) (hvalid uncle huncle)
      (hcheck uncle huncle)
  · intro hall
    have hpos : 0 < lowestUncleNumber chain.length block.uncleHeaders := by
      refine lowestUncleNumber_pos (List.length_pos_iff.2 hblock.nonempty) fun uncle huncle => ?_
      obtain ⟨parent, -, hagainst, -⟩ := (hall uncle huncle).parent
      rw [hagainst.number]
      exact Nat.succ_pos _
    obtain ⟨walked, hwalk, hpassed⟩ := hblock.exists_passed h hpos hlowest
    have hchecked := fun uncle huncle => (hall uncle huncle).checked h hpassed
      (hlowestUncle uncle huncle) huncle hinj
    exact ⟨fun uncle huncle => (hchecked uncle huncle).1, walked, hwalk,
      fun uncle huncle => (hchecked uncle huncle).2⟩

/-- A header of a number and a time, after another. -/
def sampleUncleHeader (number timestamp : ℕ) (parentHash : BytesOrEmpty 32) : ValidatedHeader :=
  { coreDefaults number timestamp with parentHash }

def sampleGenesisBlock : FrozenBlock := ⟨coreDefaults 0 0, [], [], none⟩

def sampleGenesisHash : BytesOrEmpty 32 :=
  ⟨_, .inl (sampleGenesisBlock.header.computeHash sampleDigest sampleManager).2⟩

def sampleFirst : FrozenBlock := ⟨sampleUncleHeader 1 10 sampleGenesisHash, [], [], none⟩

def sampleFirstHash : BytesOrEmpty 32 :=
  ⟨_, .inl (sampleFirst.header.computeHash sampleDigest sampleManager).2⟩

/-- A block at the height of 2, with an uncle at the height of 1. -/
def sampleNephew : FrozenBlock :=
  ⟨sampleUncleHeader 2 20 sampleFirstHash, [], [sampleUncleHeader 1 11 sampleGenesisHash], none⟩

/-- The blocks, by their hashes. -/
def sampleGetBlock (hash : Bytes) : Except ValidationError FrozenBlock :=
  if hash = uncleKey sampleDigest sampleManager sampleFirst.header then .ok sampleFirst
  else if hash = uncleKey sampleDigest sampleManager sampleGenesisBlock.header then .ok sampleGenesisBlock
  else .error .notFound

def sampleUncleContext : UncleValidationContext where
  consensus := none
  getParentHeader hash := (sampleGetBlock hash).map FrozenBlock.header
  getBlock := sampleGetBlock

theorem eq_of_sampleGetBlock {hash : Bytes} {block : FrozenBlock}
    (h : sampleGetBlock hash = .ok block) :
    uncleKey sampleDigest sampleManager block.header = hash := by
  unfold sampleGetBlock at h
  split at h
  · rename_i hfirst
    obtain rfl := Except.ok.inj h
    exact hfirst.symm
  · split at h
    · rename_i hgenesis
      obtain rfl := Except.ok.inj h
      exact hgenesis.symm
    · cases h

theorem parentHash_sampleFirst : sampleFirst.header.parentHash.1 =
    uncleKey sampleDigest sampleManager sampleGenesisBlock.header := by decide +kernel

theorem parentHash_sampleNephew : sampleNephew.header.parentHash.1 =
    uncleKey sampleDigest sampleManager sampleFirst.header := by decide +kernel

theorem storedChain_sample : StoredChain sampleDigest sampleManager sampleUncleContext
    [sampleGenesisBlock, sampleFirst] where
  number i block h := by
    rcases i with _ | _ | i
    · obtain rfl := Option.some.inj ((List.getElem?_cons_zero).symm.trans h)
      rfl
    · obtain rfl := Option.some.inj ((List.getElem?_cons_succ).symm.trans h)
      rfl
    · simp at h
  parentHash i block next h h' := by
    rcases i with _ | _ | i
    · obtain rfl := Option.some.inj ((List.getElem?_cons_zero).symm.trans h)
      obtain rfl := Option.some.inj ((List.getElem?_cons_succ).symm.trans h')
      exact parentHash_sampleFirst
    · simp at h'
    · simp at h
  getBlock := by decide +kernel
  getParentHeader := by decide +kernel
  stored hash header h := by
    obtain ⟨block, hblock, rfl⟩ := map_eq_ok h
    exact eq_of_sampleGetBlock hblock
  genesis block h := by
    rw [← Option.some.inj h]
    exact ⟨.notFound, by decide +kernel⟩
  validated := by decide +kernel

theorem extends_sampleNephew :
    Extends sampleDigest sampleManager [sampleGenesisBlock, sampleFirst] sampleNephew where
  number := rfl
  nonempty := by decide
  parentHash last h := by
    obtain rfl := Option.some.inj ((List.getElem?_cons_succ).symm.trans h)
    exact parentHash_sampleNephew

/-- **The uncle of the nephew.** -/
theorem validateUncleHeaders_eq_ok_iff_sampleNephew :
    validateUncleHeaders sampleDigest sampleManager sampleUncleContext sampleNephew = .ok () ∧
      ∀ uncle ∈ sampleNephew.uncleHeaders,
        Admissible sampleManager sampleUncleContext [sampleGenesisBlock, sampleFirst] uncle := by
  have hok : validateUncleHeaders sampleDigest sampleManager sampleUncleContext sampleNephew =
      .ok () := by decide +kernel
  refine ⟨hok, (validateUncleHeaders_eq_ok_iff sampleDigest sampleManager sampleUncleContext
    [sampleGenesisBlock, sampleFirst] sampleNephew storedChain_sample extends_sampleNephew ?_).1 hok⟩
  have hnodup : ((sampleNephew.uncleHeaders ++ [sampleGenesisBlock.header, sampleFirst.header]).map
      (uncleKey sampleDigest sampleManager)).Nodup := by decide +kernel
  refine Set.InjOn.mono ?_ (List.inj_on_of_nodup_map hnodup)
  rintro header (h | ⟨ancestor, hancestor, rfl | h⟩)
  · exact List.mem_append_left _ h
  · refine List.mem_append_right _ ?_
    simp only [List.mem_cons, List.not_mem_nil, or_false] at hancestor
    rcases hancestor with rfl | rfl
    · exact List.mem_cons_self
    · exact List.mem_cons_of_mem _ List.mem_cons_self
  · simp only [List.mem_cons, List.not_mem_nil, or_false] at hancestor
    rcases hancestor with rfl | rfl <;> cases h

end Block

end TsEthereum
