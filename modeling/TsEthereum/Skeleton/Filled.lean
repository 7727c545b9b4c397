import TsEthereum.Skeleton.Fill
import TsEthereum.Skeleton.Frames
import TsEthereum.Skeleton.Restart

/-!
# What a fill leaves

From a skeleton with blocks from the chain's head, or from below its tail, up to the head of
subchain 0, a fill puts them in until one fails. Then it is over, and the failure recorded;
but not where the failure is taken for a block that is not there: then it steps back instead
(`fillsOrRecords_iff`). And if the chain cannot be reset the fill is over with an error, and
`filling` stays set.
-/

namespace TsEthereum.Skeleton

open TsEthereum
open TsEthereum.Blockchain (bigIntToBytes ofBigEndian_bigIntToBytes)

variable {β γ : Type} {cfg : Config β γ} {s u : State β γ} {block : ℕ → β} {head n : ℕ}

/-- The block the skeleton itself has at a number. -/
def skeletonBlock (cfg : Config β γ) (s : State β γ) (number : ℕ) : Option β :=
  (s.db (.skeletonBlock (bigIntToBytes number))).bind (skeletonBlockRlpToBlock cfg)

/-- **What is taken of the chain**: a child of its head is put on top or leaves it as it is, a reset
keeps the blocks up to the new head, and above its head there are none. -/
structure Config.Chains (cfg : Config β γ) : Prop where
  putBlocks : ∀ chain parent block, cfg.number block = cfg.height chain + 1 →
    cfg.getBlock chain (cfg.height chain) = .ok parent → cfg.hash parent = cfg.parentHash block →
      (∃ chain', cfg.putBlocks chain block = (.ok 1, chain') ∧
        cfg.height chain' = cfg.height chain + 1 ∧
        cfg.getBlock chain' (cfg.height chain + 1) = .ok block ∧
        ∀ m ≤ cfg.height chain, cfg.getBlock chain' m = cfg.getBlock chain m) ∨
      ∃ message, cfg.putBlocks chain block = (.error message, chain)
  resetCanonicalHead : ∀ chain n chain', n ≤ cfg.height chain →
    cfg.resetCanonicalHead chain n = (.ok (), chain') →
      cfg.height chain' = n ∧ ∀ m ≤ n, cfg.getBlock chain' m = cfg.getBlock chain m
  height : ∀ chain n block, cfg.getBlock chain n = .ok block → n ≤ cfg.height chain

/-- What inserting blocks one by one comes to: the chain, the last that is inserted, and how the
next one failed. -/
structure Insertion (γ : Type) where
  chain : γ
  last : ℕ
  failure : Option String

/-- **Inserting blocks**, so many after a number. -/
def insertAll (cfg : Config β γ) (block : ℕ → β) : ℕ → ℕ → γ → Insertion γ
  | 0, n, chain => ⟨chain, n, none⟩
  | blocks + 1, n, chain =>
    match cfg.putBlocks chain (block (n + 1)) with
    | (.ok _, chain) => insertAll cfg block blocks (n + 1) chain
    | (.error message, chain) => ⟨chain, n, some message⟩

/-- **Blocks to insert**: up to the head, by their numbers, each one the child of the one before,
and the first of the block of the chain below it. -/
structure Above (cfg : Config β γ) (block : ℕ → β) (head n : ℕ) (chain : γ) : Prop where
  number : ∀ m, n < m → m ≤ head → cfg.number (block m) = m
  first : n < head → ∃ parent, cfg.getBlock chain n = .ok parent ∧
    cfg.hash parent = cfg.parentHash (block (n + 1))
  linked : ∀ m, n < m → m < head → cfg.hash (block m) = cfg.parentHash (block (m + 1))

/-- They are so above the head of the chain. -/
structure Insertable (cfg : Config β γ) (block : ℕ → β) (head n : ℕ) (chain : γ) : Prop
    extends Above cfg block head n chain where
  height : cfg.height chain = n

theorem Insertable.step (hcfg : cfg.Chains) {chain : γ} (h : Insertable cfg block head n chain)
    (hlt : n < head) :
    (∃ chain', cfg.putBlocks chain (block (n + 1)) = (.ok 1, chain') ∧
      Insertable cfg block head (n + 1) chain' ∧ cfg.getBlock chain' (n + 1) = .ok (block (n + 1)) ∧
      ∀ m ≤ n, cfg.getBlock chain' m = cfg.getBlock chain m) ∨
    ∃ message, cfg.putBlocks chain (block (n + 1)) = (.error message, chain) := by
  obtain ⟨parent, hparent, hlink⟩ := h.first hlt
  have hnumber := h.number (n + 1) (by omega) (by omega)
  have hput := hcfg.putBlocks chain parent (block (n + 1)) (by rw [hnumber, h.height])
    (by rw [h.height]; exact hparent) hlink
  rw [h.height] at hput
  rcases hput with ⟨chain', hput, hheight, hblock, hbelow⟩ | hfails
  · refine .inl ⟨chain', hput, ⟨⟨fun m hm hle => h.number m (by omega) hle, fun hlt' => ?_,
      fun m hm hlt' => h.linked m (by omega) hlt'⟩, hheight⟩, hblock, hbelow⟩
    exact ⟨_, hblock, h.linked (n + 1) (by omega) hlt'⟩
  · exact .inr hfails

/-- **What inserting them comes to**: the blocks up to the last are in the chain, and it is the head,
or the next one fails. -/
theorem Insertable.insertAll_spec (hcfg : cfg.Chains) {chain : γ} {k : ℕ}
    (h : Insertable cfg block head n chain) (hk : k = head - n) :
    let inserted := insertAll cfg block k n chain
    n ≤ inserted.last ∧ cfg.height inserted.chain = inserted.last ∧
      (∀ m, n < m → m ≤ inserted.last → cfg.getBlock inserted.chain m = .ok (block m)) ∧
      (∀ m ≤ n, cfg.getBlock inserted.chain m = cfg.getBlock chain m) ∧
      (inserted.failure = none → inserted.last = max n head) ∧
      ∀ message, inserted.failure = some message → inserted.last < head ∧
        cfg.putBlocks inserted.chain (block (inserted.last + 1)) =
          (.error message, inserted.chain) := by
  induction k generalizing n chain with
  | zero =>
    refine ⟨le_refl n, h.height, fun m hm hle => ?_, fun _ _ => rfl, fun _ => ?_, ?_⟩
    · exact absurd hm (Nat.not_lt.2 hle)
    · change n = max n head
      omega
    · intro message hmessage
      cases hmessage
  | succ k ih =>
    rcases h.step hcfg (by omega) with ⟨chain', hput, hnext, hblock, hbelow⟩ | ⟨message, hput⟩
    · obtain ⟨hle, hheight, hin, hkept, hnone, hsome⟩ := ih hnext (by omega)
      have hinserted : insertAll cfg block (k + 1) n chain =
          insertAll cfg block k (n + 1) chain' := by simp only [insertAll, hput]
      rw [hinserted]
      refine ⟨by omega, hheight, fun m hm hle' => ?_, fun m hm => ?_, fun h => ?_, hsome⟩
      · rcases Nat.eq_or_lt_of_le (show n + 1 ≤ m by omega) with rfl | hlt
        · rw [hkept (n + 1) (le_refl _), hblock]
        · exact hin m hlt hle'
      · rw [hkept m (by omega), hbelow m hm]
      · rw [hnone h]
        omega
    · have hinserted : insertAll cfg block (k + 1) n chain = ⟨chain, n, some message⟩ := by
        simp only [insertAll, hput]
      rw [hinserted]
      refine ⟨le_refl n, h.height, fun m hm hle => ?_, fun _ _ => rfl, nofun, ?_⟩
      · exact absurd hm (Nat.not_lt.2 hle)
      · intro message' hmessage
        obtain rfl := Option.some.inj hmessage
        exact ⟨(by omega : n < head), hput⟩

/-! ## The loop of the fill -/

theorem getBlock_of_skeletonBlock {number : ℕ} {b : β}
    (h : skeletonBlock cfg s number = some b) (onlyCanonical : Bool) :
    getBlock cfg s number onlyCanonical = some b := by
  unfold skeletonBlock at h
  simp only [getBlock, h]

/-- A failure that is recorded is of no block that is not there. -/
def Recorded (fillStatus : Option FillStatus) : Prop :=
  ∀ status message, fillStatus = some status → status.validationError = some message →
    isBlockNotFound message = false

/-- **What every turn keeps**: the blocks that are still to be inserted are stored, on top of the
head of the chain. -/
structure Filling (cfg : Config β γ) (block : ℕ → β) (head n : ℕ) (s : State β γ) : Prop where
  insertable : Insertable cfg block head n s.chain
  reset : s.status.canonicalHeadReset = false
  stored : ∀ m, n < m → m ≤ head → skeletonBlock cfg s m = some (block m)
  recorded : Recorded s.fillStatus

theorem bigIntToBytes_inj {m k : ℕ} (h : bigIntToBytes m = bigIntToBytes k) : m = k := by
  rw [← ofBigEndian_bigIntToBytes m, h, ofBigEndian_bigIntToBytes]

theorem skeletonBlock_cleanUp {b : β} {m : ℕ} (hm : m ≠ cfg.number b) :
    skeletonBlock cfg (cleanUp cfg b s) m = skeletonBlock cfg s m := by
  have hne : bigIntToBytes m ≠ bigIntToBytes (cfg.number b) := fun h => hm (bigIntToBytes_inj h)
  unfold cleanUp
  split
  · simp [skeletonBlock, deleteBlock, State.delete, hne]
  · rfl

theorem cleanUp_apart (cfg : Config β γ) {ρ : Type} {f : State β γ → ρ}
    (hf : ∀ s key, f (State.delete s key) = f s)
    (b : β) : f (cleanUp cfg b s) = f s := by
  unfold cleanUp deleteBlock
  split
  · rw [hf, hf, hf]
  · rfl

theorem backStep_keeps (cfg : Config β γ) (number : ℕ) (s : State β γ) :
    (backStep cfg number s).2.chain = s.chain ∧ (backStep cfg number s).2.filling = s.filling ∧
      (backStep cfg number s).2.fillStatus = s.fillStatus := by
  have hapart : Apart fun s : State β γ => (s.chain, s.filling, s.fillStatus) :=
    ⟨fun _ _ => rfl, fun _ _ _ => rfl⟩
  have h : (fun s : State β γ => (s.chain, s.filling, s.fillStatus)) (backStep cfg number s).2 = _ :=
    hapart.backStep number s
  simpa only [Prod.mk.injEq] using h

/-- **A turn**: the next block is inserted, or it fails, and the fill is over; the failure is recorded,
or it is taken for a block that is not there. -/
theorem Filling.fillTurn_spec (hcfg : cfg.Chains) (h : Filling cfg block head n s) (hlt : n < head) :
    (∃ chain' s', cfg.putBlocks s.chain (block (n + 1)) = (.ok 1, chain') ∧ s'.chain = chain' ∧
      s'.filling = s.filling ∧ fillTurn cfg head (s, n) = .inl (s', n + 1) ∧
        Filling cfg block head (n + 1) s') ∨
    ∃ message result u, cfg.putBlocks s.chain (block (n + 1)) = (.error message, s.chain) ∧
      fillTurn cfg head (s, n) = .inr (result, u) ∧ u.chain = s.chain ∧ u.filling = s.filling ∧
        (isBlockNotFound message = false → result = .ok () ∧ u.fillStatus =
          some ⟨.invalid, n + 1, cfg.hash (block (n + 1)), some message⟩) ∧
        (isBlockNotFound message = true → Recorded u.fillStatus) := by
  have hnumber := h.insertable.number (n + 1) (by omega) (by omega)
  have hblock := getBlock_of_skeletonBlock (h.stored (n + 1) (by omega) (by omega)) false
  have hheight : cfg.height s.chain ≤ n + 1 := by
    rw [h.insertable.height]
    omega
  rcases h.insertable.step hcfg hlt with ⟨chain', hput, hnext, -, -⟩ | ⟨message, hput⟩
  · refine .inl ⟨chain', cleanUp cfg (block (n + 1)) { s with
      chain := chain'
      fillStatus := some ⟨.valid, n + 1, cfg.hash (block (n + 1)), none⟩ }, hput,
      cleanUp_apart cfg (f := State.chain) (fun _ _ => rfl) _,
      cleanUp_apart cfg (f := State.filling) (fun _ _ => rfl) _, ?_, ?_⟩
    · simp [fillTurn, h.reset, hlt, hblock, hheight, insertBlock, hput, hnumber]
    · have hstate := cleanUp_apart cfg (f := fun s : State β γ =>
        (s.chain, s.status, s.fillStatus)) (s := { s with
          chain := chain'
          fillStatus := some ⟨.valid, n + 1, cfg.hash (block (n + 1)), none⟩ })
        (fun _ _ => rfl) (block (n + 1))
      simp only [Prod.mk.injEq] at hstate
      obtain ⟨hchain, hstatus, hfill⟩ := hstate
      refine ⟨by rwa [hchain], by rw [hstatus]; exact h.reset, fun m hm hle => ?_, ?_⟩
      · rw [skeletonBlock_cleanUp (by omega)]
        exact h.stored m (by omega) hle
      · rw [hfill]
        rintro status message hstatus' hmessage
        obtain rfl := Option.some.inj hstatus'
        cases hmessage
  · cases hfound : isBlockNotFound message with
    | false =>
      refine .inr ⟨message, .ok (),
        { s with fillStatus := some ⟨.invalid, n + 1, cfg.hash (block (n + 1)), some message⟩ },
        hput, ?_, rfl, rfl, fun _ => ⟨rfl, rfl⟩, fun hnot => ?_⟩
      · simp [fillTurn, h.reset, hlt, hblock, hheight, insertBlock, hput, hnumber, hfound]
      · rw [hfound] at hnot
        cases hnot
    | true =>
      obtain ⟨hchain, hfilling, hfill⟩ := backStep_keeps cfg (n + 1) s
      rcases hback : backStep cfg (n + 1) s with ⟨e | newTail, u⟩
      all_goals
        rw [hback] at hchain hfilling hfill
      · refine .inr ⟨message, .error e, u, hput, ?_, hchain, hfilling, by simp [hfound], fun _ => ?_⟩
        · simp [fillTurn, h.reset, hlt, hblock, hheight, insertBlock, hput, hnumber, hfound, hback]
        · rw [hfill]
          exact h.recorded
      · refine .inr ⟨message, .ok (), u, hput, ?_, hchain, hfilling, by simp [hfound], fun _ => ?_⟩
        · simp [fillTurn, h.reset, hlt, hblock, hheight, insertBlock, hput, hnumber, hfound, hback]
        · rw [hfill]
          exact h.recorded

theorem fillTurn_of_le (cfg : Config β γ) (s : State β γ) (hle : head ≤ n) :
    fillTurn cfg head (s, n) = .inr (.ok (), s) := by
  simp [fillTurn, Nat.not_lt.2 hle]

/-- **The loop**: it ends with the blocks inserted that `insertAll` inserts, and with the failure
recorded unless that is taken for a block that is not there. -/
theorem Filling.loop_spec (hcfg : cfg.Chains) {k fuel : ℕ} (h : Filling cfg block head n s)
    (hk : k = head - n) (hfuel : k < fuel) :
    ∃ result u, loop (fillTurn cfg head) fuel (s, n) = some (result, u) ∧
      u.chain = (insertAll cfg block k n s.chain).chain ∧ u.filling = s.filling ∧
      ((insertAll cfg block k n s.chain).failure = none → result = .ok ()) ∧
      ∀ message, (insertAll cfg block k n s.chain).failure = some message →
        (isBlockNotFound message = false → result = .ok () ∧
          u.fillStatus = some ⟨.invalid, (insertAll cfg block k n s.chain).last + 1,
            cfg.hash (block ((insertAll cfg block k n s.chain).last + 1)), some message⟩) ∧
        (isBlockNotFound message = true → Recorded u.fillStatus) := by
  obtain ⟨fuel, rfl⟩ : ∃ fuel', fuel = fuel' + 1 := ⟨fuel - 1, by omega⟩
  induction k generalizing n s fuel with
  | zero =>
    refine ⟨.ok (), s, ?_, rfl, rfl, fun _ => rfl, fun message hmessage => by cases hmessage⟩
    simp only [loop, fillTurn_of_le cfg s (show head ≤ n by omega)]
  | succ k ih =>
    rcases h.fillTurn_spec hcfg (by omega) with ⟨chain', s', hput, hchain, hfilling, hturn, hnext⟩ |
      ⟨message, result, u, hput, hturn, hchain, hfilling, hrecorded, hnot⟩
    · obtain ⟨fuel, rfl⟩ : ∃ fuel', fuel = fuel' + 1 := ⟨fuel - 1, by omega⟩
      have hinserted : insertAll cfg block (k + 1) n s.chain =
          insertAll cfg block k (n + 1) s'.chain := by
        simp only [insertAll, hput, hchain]
      have hloop : loop (fillTurn cfg head) (fuel + 1 + 1) (s, n) =
          loop (fillTurn cfg head) (fuel + 1) (s', n + 1) := by
        conv_lhs => unfold loop
        rw [hturn]
      rw [hinserted, hloop, ← hfilling]
      exact ih hnext (by omega) fuel (by omega)
    · have hinserted : insertAll cfg block (k + 1) n s.chain = ⟨s.chain, n, some message⟩ := by
        simp only [insertAll, hput]
      rw [hinserted]
      refine ⟨result, u, by simp only [loop, hturn], hchain, hfilling, fun hnone => ?_,
        fun message' hmessage => ?_⟩
      · cases hnone
      obtain rfl := Option.some.inj hmessage
      exact ⟨hrecorded, hnot⟩

/-! ## The fill -/

/-- Whether the chain is reset to below the tail. -/
def resetsChain (cfg : Config β γ) (s : State β γ) : Bool :=
  s.status.canonicalHeadReset && decide (0 < cfg.height s.chain)

/-- The number of the block that is filled from. -/
def fillStart (cfg : Config β γ) (s : State β γ) (subchain : Subchain) : ℕ :=
  if resetsChain cfg s then subchain.tail - 1 else cfg.height s.chain

/-- How the reset of the chain ends, and the chain that is filled. -/
def startChain (cfg : Config β γ) (s : State β γ) (subchain : Subchain) : Except String Unit × γ :=
  if resetsChain cfg s then cfg.resetCanonicalHead s.chain (subchain.tail - 1)
  else (.ok (), s.chain)

/-- What inserting the blocks of subchain 0 comes to. -/
def filled (cfg : Config β γ) (s : State β γ) (subchain : Subchain) (block : ℕ → β) : Insertion γ :=
  insertAll cfg block (subchain.head - fillStart cfg s subchain) (fillStart cfg s subchain)
    (startChain cfg s subchain).2

/-- **A skeleton to fill from**: linked, with the blocks of subchain 0 stored above the block of the
chain that is filled from, and hash-linked down to it. -/
structure Fillable (cfg : Config β γ) (s : State β γ) (subchain : Subchain) (block : ℕ → β) :
    Prop where
  idle : s.filling = false
  linked : s.status.linked = true
  subchain0 : s.status.subchains.head? = some subchain
  tail : subchain.tail ≤ cfg.height s.chain + 1
  above : Above cfg block subchain.head (fillStart cfg s subchain) s.chain
  stored : ∀ m, fillStart cfg s subchain < m → m ≤ subchain.head →
    skeletonBlock cfg s m = some (block m)
  recorded : Recorded s.fillStatus

/-- The chain has the blocks of the skeleton up to a number, on those it had. -/
structure FilledTo (cfg : Config β γ) (s : State β γ) (block : ℕ → β) (start last : ℕ) (u : State β γ) :
    Prop where
  height : cfg.height u.chain = last
  kept : ∀ m ≤ start, cfg.getBlock u.chain m = cfg.getBlock s.chain m
  filled : ∀ m, start < m → m ≤ last → cfg.getBlock u.chain m = .ok (block m)

/-- **What is said of a fill**: it ends with `filling` unset; and if it returns, the chain is filled
up to the head of subchain 0, or to below the first block that fails, with the failure recorded. -/
def FillsOrRecords (cfg : Config β γ) (s : State β γ) (subchain : Subchain) (block : ℕ → β) : Prop :=
  let start := fillStart cfg s subchain
  ∃ result u, fillCanonicalChain cfg s = some (result, u) ∧ u.filling = false ∧
    (result = .ok () →
      FilledTo cfg s block start (max start subchain.head) u ∨
      ∃ last message, start ≤ last ∧ last < subchain.head ∧ FilledTo cfg s block start last u ∧
        cfg.putBlocks u.chain (block (last + 1)) = (.error message, u.chain) ∧
        u.fillStatus =
          some ⟨.invalid, last + 1, cfg.hash (block (last + 1)), some message⟩)

/-- What a reset leaves. -/
def resetTo (s : State β γ) (chain : γ) : State β γ :=
  { s with chain := chain, status := { s.status with canonicalHeadReset := false } }

/-- The head to fill from, once the chain is reset, -/
theorem resetToTail_of_ok {subchain : Subchain} {chain : γ}
    (htail : subchain.tail ≤ cfg.height s.chain + 1)
    (hstart : startChain cfg s subchain = (.ok (), chain)) :
    resetToTail cfg subchain s = (.ok (fillStart cfg s subchain), resetTo s chain) := by
  unfold startChain at hstart
  unfold fillStart
  cases hreset : s.status.canonicalHeadReset with
  | false =>
    have hno : resetsChain cfg s = false := by simp [resetsChain, hreset]
    rw [if_neg (by simp [hno])] at hstart ⊢
    obtain rfl := congrArg Prod.snd hstart
    have hkept : resetTo s s.chain = s := by
      unfold resetTo
      rw [← hreset]
    simp [resetToTail, Action.bind_apply, hreset, hkept]
  | true =>
    by_cases hheight : 0 < cfg.height s.chain
    · have hyes : resetsChain cfg s = true := by simp [resetsChain, hreset, hheight]
      rw [if_pos hyes] at hstart ⊢
      simp [resetToTail, Action.bind_apply, hreset, hheight, hstart, Nat.not_lt.2 htail,
        setCanonicalHeadReset, setStatus, State.setStatus, resetTo]
    · have hno : resetsChain cfg s = false := by simp [resetsChain, hheight]
      rw [if_neg (by simp [hno])] at hstart ⊢
      obtain rfl := congrArg Prod.snd hstart
      simp [resetToTail, Action.bind_apply, hreset, hheight, Nat.not_lt.2 htail,
        setCanonicalHeadReset, setStatus, State.setStatus, resetTo]

/-- and where the reset throws. -/
theorem resetToTail_of_error {subchain : Subchain} {chain : γ} {message : String}
    (htail : subchain.tail ≤ cfg.height s.chain + 1)
    (hstart : startChain cfg s subchain = (.error message, chain)) :
    resetToTail cfg subchain s = (.error (.chain message), { s with chain := chain }) := by
  unfold startChain at hstart
  cases hreset : resetsChain cfg s with
  | false =>
    rw [if_neg (by simp [hreset])] at hstart
    cases congrArg Prod.fst hstart
  | true =>
    rw [if_pos hreset] at hstart
    simp only [resetsChain, Bool.and_eq_true, decide_eq_true_eq] at hreset
    simp [resetToTail, Action.bind_apply, hreset.1, hreset.2, hstart, Nat.not_lt.2 htail]

/-- The chain that is filled: up to the block that is filled from, with the blocks it had. -/
theorem Fillable.startChain_spec (hcfg : cfg.Chains) {subchain : Subchain} {chain : γ}
    (h : Fillable cfg s subchain block) (hstart : startChain cfg s subchain = (.ok (), chain)) :
    cfg.height chain = fillStart cfg s subchain ∧
      ∀ m ≤ fillStart cfg s subchain, cfg.getBlock chain m = cfg.getBlock s.chain m := by
  have htail := h.tail
  unfold startChain at hstart
  unfold fillStart
  cases hreset : resetsChain cfg s with
  | false =>
    rw [if_neg (by simp [hreset])] at hstart ⊢
    obtain rfl := congrArg Prod.snd hstart
    exact ⟨rfl, fun _ _ => rfl⟩
  | true =>
    rw [if_pos hreset] at hstart
    simp only [if_true]
    exact hcfg.resetCanonicalHead s.chain _ chain (by omega) hstart

theorem Fillable.filling (hcfg : cfg.Chains) {subchain : Subchain} {chain : γ}
    (h : Fillable cfg s subchain block) (hstart : startChain cfg s subchain = (.ok (), chain)) :
    Filling cfg block subchain.head (fillStart cfg s subchain)
      (resetTo { s with filling := true } chain) := by
  obtain ⟨hheight, hkept⟩ := h.startChain_spec hcfg hstart
  refine ⟨⟨⟨h.above.number, fun hlt => ?_, h.above.linked⟩, hheight⟩, rfl, h.stored, h.recorded⟩
  obtain ⟨parent, hparent, hlink⟩ := h.above.first hlt
  exact ⟨parent, (hkept _ (le_refl _)).trans hparent, hlink⟩

/-- **The fill of such a skeleton** ends as its loop does; but `filling` is unset only where that
returns. -/
theorem Fillable.fillCanonicalChain_of_ok (hcfg : cfg.Chains) {subchain : Subchain} {chain : γ}
    (h : Fillable cfg s subchain block) (hstart : startChain cfg s subchain = (.ok (), chain)) :
    ∃ result u, fillCanonicalChain cfg s = some (result, u) ∧
      (result = .ok () ↔ u.filling = false) ∧ u.chain = (filled cfg s subchain block).chain ∧
      ((filled cfg s subchain block).failure = none → result = .ok ()) ∧
      ∀ message, (filled cfg s subchain block).failure = some message →
        (isBlockNotFound message = false → result = .ok () ∧
          u.fillStatus = some ⟨.invalid, (filled cfg s subchain block).last + 1,
            cfg.hash (block ((filled cfg s subchain block).last + 1)), some message⟩) ∧
        (isBlockNotFound message = true → Recorded u.fillStatus) := by
  obtain ⟨result, u, hloop, hchain, hfilling, hspec⟩ := (h.filling hcfg hstart).loop_spec hcfg rfl
    (show subchain.head - fillStart cfg s subchain < subchain.head + 1 by omega)
  have hreset : resetToTail cfg subchain { s with filling := true } =
      (.ok (fillStart cfg s subchain), resetTo { s with filling := true } chain) :=
    resetToTail_of_ok h.tail hstart
  have hfilled : filled cfg s subchain block = insertAll cfg block
      (subchain.head - fillStart cfg s subchain) (fillStart cfg s subchain) chain := by
    rw [filled, hstart]
  obtain ⟨rest, hsubchains⟩ := List.head?_eq_some_iff.1 h.subchain0
  rw [hfilled]
  cases result with
  | ok =>
    refine ⟨.ok (), { u with filling := false }, ?_, by simp, hchain, hspec⟩
    simp only [fillCanonicalChain, h.idle, Bool.false_eq_true, if_false, hsubchains, hreset, hloop,
      Option.map_some]
  | error e =>
    refine ⟨.error e, u, ?_, ?_, hchain, hspec⟩
    · simp only [fillCanonicalChain, h.idle, Bool.false_eq_true, if_false, hsubchains, hreset,
        hloop, Option.map_some]
    · rw [hfilling]
      simp [resetTo]

theorem Fillable.fillCanonicalChain_of_error {subchain : Subchain} {chain : γ} {message : String}
    (h : Fillable cfg s subchain block)
    (hstart : startChain cfg s subchain = (.error message, chain)) :
    fillCanonicalChain cfg s =
      some (.error (.chain message), { s with filling := true, chain := chain }) := by
  have hreset : resetToTail cfg subchain { s with filling := true } =
      (.error (.chain message), { s with filling := true, chain := chain }) :=
    resetToTail_of_error h.tail hstart
  obtain ⟨rest, hsubchains⟩ := List.head?_eq_some_iff.1 h.subchain0
  simp only [fillCanonicalChain, h.idle, Bool.false_eq_true, if_false, hsubchains, hreset]

theorem Fillable.filled_spec (hcfg : cfg.Chains) {subchain : Subchain} {chain : γ} {u : State β γ}
    (h : Fillable cfg s subchain block) (hstart : startChain cfg s subchain = (.ok (), chain))
    (hu : u.chain = (filled cfg s subchain block).chain) :
    let inserted := filled cfg s subchain block
    fillStart cfg s subchain ≤ inserted.last ∧
      FilledTo cfg s block (fillStart cfg s subchain) inserted.last u ∧
      (inserted.failure = none →
        inserted.last = max (fillStart cfg s subchain) subchain.head) ∧
      ∀ message, inserted.failure = some message → inserted.last < subchain.head ∧
        cfg.putBlocks u.chain (block (inserted.last + 1)) = (.error message, u.chain) := by
  obtain ⟨hle, hheight, hin, hkept, hnone, hsome⟩ :=
    (h.filling hcfg hstart).insertable.insertAll_spec hcfg rfl
  have hfilled : filled cfg s subchain block = insertAll cfg block
      (subchain.head - fillStart cfg s subchain) (fillStart cfg s subchain) chain := by
    rw [filled, hstart]
  rw [hfilled] at hu ⊢
  refine ⟨hle, ⟨by rw [hu]; exact hheight, fun m hm => ?_, by rw [hu]; exact hin⟩, hnone,
    by rw [hu]; exact hsome⟩
  rw [hu]
  exact (hkept m hm).trans ((h.startChain_spec hcfg hstart).2 m hm)

/-- **A fill**: of every skeleton to fill from, it ends as it is said to, exactly when the chain can
be reset, and no block fails with a failure that is taken for a block that is not there. -/
theorem fillsOrRecords_iff (hcfg : cfg.Chains) {subchain : Subchain}
    (h : Fillable cfg s subchain block) :
    FillsOrRecords cfg s subchain block ↔
      (startChain cfg s subchain).1 = .ok () ∧
        ∀ message, (filled cfg s subchain block).failure = some message →
          isBlockNotFound message = false := by
  rcases hstart : startChain cfg s subchain with ⟨message | _, chain⟩
  · -- the reset throws
    constructor
    · rintro ⟨result, u, hfill, hfilling, -⟩
      rw [h.fillCanonicalChain_of_error hstart] at hfill
      obtain rfl := congrArg Prod.snd (Option.some.inj hfill)
      cases hfilling
    · rintro ⟨hok, -⟩
      cases hok
  obtain ⟨result, u, hfill, hfilling, hchain, hok, hfailed⟩ :=
    h.fillCanonicalChain_of_ok hcfg hstart
  obtain ⟨hle, hto, hnone, hsome⟩ := h.filled_spec hcfg hstart hchain
  constructor
  · rintro ⟨result', u', hfill', hfilling', hreturned⟩
    obtain ⟨rfl, rfl⟩ := Prod.mk.inj (Option.some.inj (hfill.symm.trans hfill'))
    refine ⟨rfl, fun message hmessage => ?_⟩
    obtain ⟨hlast, hput⟩ := hsome message hmessage
    rcases hreturned (hfilling.2 hfilling') with hall | ⟨last, message', -, -, hto', hput', hrecorded⟩
    · -- not filled up to the head
      have hheight := hto.height.symm.trans hall.height
      omega
    · -- so it is recorded
      obtain rfl : last = (filled cfg s subchain block).last := hto'.height.symm.trans hto.height
      rw [hput] at hput'
      obtain rfl : message = message' := Except.error.inj (Prod.mk.inj hput').1
      cases hfound : isBlockNotFound message with
      | false => rfl
      | true =>
        rw [← hfound]
        exact (hfailed message hmessage).2 hfound _ message hrecorded rfl
  · rintro ⟨-, hcond⟩
    refine ⟨result, u, hfill, ?_⟩
    cases hfailure : (filled cfg s subchain block).failure with
    | none =>
      refine ⟨hfilling.1 (hok hfailure), fun _ => .inl ?_⟩
      rw [← hnone hfailure]
      exact hto
    | some message =>
      obtain ⟨hlast, hput⟩ := hsome message hfailure
      obtain ⟨hreturns, hrecorded⟩ := (hfailed message hfailure).1 (hcond message hfailure)
      exact ⟨hfilling.1 hreturns, fun _ => .inr ⟨_, message, hle, hlast, hto, hput, hrecorded⟩⟩

/-! ## A small fill -/

/-- The sample chain, with its own way to be reset. -/
def resettingConfig (resetCanonicalHead : List SampleBlock → ℕ → Except String Unit × List SampleBlock) :
    Config SampleBlock (List SampleBlock) :=
  { sampleConfig with resetCanonicalHead := resetCanonicalHead }

/-- The blocks of its first branch. -/
def mainBlock (number : ℕ) : SampleBlock := ⟨UInt8.ofNat number, 0⟩

/-- Blocks 2 and 3 in the skeleton, above the genesis and block 1 in the chain. -/
def linkedState : State SampleBlock (List SampleBlock) :=
  let opened := { sampleState with chain := [⟨0, 0⟩, ⟨1, 0⟩] }
  (putBlocks sampleConfig [⟨2, 0⟩] (setHead sampleConfig ⟨3, 0⟩ true false false opened).2).2

theorem sampleConfig_getBlock {chain : List SampleBlock} {n : ℕ} {b : SampleBlock} :
    sampleConfig.getBlock chain n = .ok b ↔ chain[n]? = some b := by
  change chain[n]?.elim (Except.error "Block not found in DB") Except.ok = Except.ok b ↔ _
  cases chain[n]? with
  | none => simp
  | some b' => simp

theorem resettingConfig_chains
    {resetCanonicalHead : List SampleBlock → ℕ → Except String Unit × List SampleBlock}
    (hreset : ∀ chain n, resetCanonicalHead chain n = (.ok (), chain.take (n + 1)) ∨
      ∃ message, resetCanonicalHead chain n = (.error message, chain)) :
    (resettingConfig resetCanonicalHead).Chains where
  putBlocks chain parent block hnumber hparent hlink := by
    have hlt : chain.length - 1 < chain.length :=
      (List.getElem?_eq_some_iff.1 (sampleConfig_getBlock.1 hparent)).1
    have hlength : block.number.toNat = chain.length - 1 + 1 := hnumber
    have hput : (resettingConfig resetCanonicalHead).putBlocks chain block =
        (.ok 1, chain ++ [block]) := if_pos (by omega)
    refine .inl ⟨_, hput, ?_, sampleConfig_getBlock.2 ?_, fun m hm => ?_⟩
    · change (chain ++ [block]).length - 1 = chain.length - 1 + 1
      rw [List.length_append, List.length_singleton]
      omega
    · change (chain ++ [block])[chain.length - 1 + 1]? = some block
      rw [show chain.length - 1 + 1 = chain.length by omega, List.getElem?_concat_length]
    · have hm' : m ≤ chain.length - 1 := hm
      change ((chain ++ [block])[m]?).elim _ _ = (chain[m]?).elim _ _
      rw [List.getElem?_append_left (by omega)]
  resetCanonicalHead chain n chain' hle hok := by
    have hle' : n ≤ chain.length - 1 := hle
    rcases hreset chain n with hresets | ⟨message, hfails⟩
    · obtain rfl := (Prod.mk.inj (hresets.symm.trans hok)).2
      refine ⟨?_, fun m hm => ?_⟩
      · change (chain.take (n + 1)).length - 1 = n
        rw [List.length_take]
        omega
      · change ((chain.take (n + 1))[m]?).elim _ _ = (chain[m]?).elim _ _
        rw [List.getElem?_take_of_lt (by omega)]
    · cases (Prod.mk.inj (hfails.symm.trans hok)).1
  height chain n block hblock := by
    have hlt := (List.getElem?_eq_some_iff.1 (sampleConfig_getBlock.1 hblock)).1
    change n ≤ chain.length - 1
    omega

theorem linkedState_fillable : Fillable sampleConfig linkedState ⟨3, 2, [1, 0]⟩ mainBlock := by
  have hstart : fillStart sampleConfig linkedState ⟨3, 2, [1, 0]⟩ = 1 := by decide +kernel
  have hfill : linkedState.fillStatus = none := by decide +kernel
  refine ⟨by decide +kernel, by decide +kernel, by decide +kernel, by decide +kernel, ?_, ?_, ?_⟩
  · rw [hstart]
    refine ⟨fun m hm hle => ?_, fun _ => ⟨⟨1, 0⟩, ?_, by decide⟩, fun m hm hlt => ?_⟩
    · change m ≤ 3 at hle
      interval_cases m <;> decide
    · exact sampleConfig_getBlock.2 (by decide +kernel)
    · change m < 3 at hlt
      interval_cases m
      decide
  · rw [hstart]
    intro m hm hle
    change m ≤ 3 at hle
    interval_cases m <;> decide +kernel
  · intro status message hstatus
    rw [hfill] at hstatus
    cases hstatus

theorem resettingConfig_fillable
    (resetCanonicalHead : List SampleBlock → ℕ → Except String Unit × List SampleBlock) :
    Fillable (resettingConfig resetCanonicalHead) linkedState ⟨3, 2, [1, 0]⟩ mainBlock where
  idle := linkedState_fillable.idle
  linked := linkedState_fillable.linked
  subchain0 := linkedState_fillable.subchain0
  tail := linkedState_fillable.tail
  above := ⟨linkedState_fillable.above.number, linkedState_fillable.above.first,
    linkedState_fillable.above.linked⟩
  stored := linkedState_fillable.stored
  recorded := linkedState_fillable.recorded

theorem fillsOrRecords_iff_linkedState :
    FillsOrRecords sampleConfig linkedState ⟨3, 2, [1, 0]⟩ mainBlock := by
  have hchains : sampleConfig.Chains := resettingConfig_chains fun _ _ => .inl rfl
  refine (fillsOrRecords_iff hchains linkedState_fillable).2
    ⟨by decide +kernel, fun message hmessage => ?_⟩
  have hnone : (filled sampleConfig linkedState ⟨3, 2, [1, 0]⟩ mainBlock).failure = none := by
    decide +kernel
  rw [hnone] at hmessage
  cases hmessage

/-- **A chain that cannot be reset leaves the skeleton filling.** -/
theorem not_fillsOrRecords_of_reset :
    ∃ cfg : Config SampleBlock (List SampleBlock), cfg.Chains ∧
      Fillable cfg linkedState ⟨3, 2, [1, 0]⟩ mainBlock ∧
      ¬ FillsOrRecords cfg linkedState ⟨3, 2, [1, 0]⟩ mainBlock := by
  have hfillable := resettingConfig_fillable fun chain _ => (.error "Database is not open", chain)
  refine ⟨_, resettingConfig_chains fun _ _ => .inr ⟨_, rfl⟩, hfillable, ?_⟩
  have hstart : startChain (resettingConfig fun chain _ => (.error "Database is not open", chain))
      linkedState ⟨3, 2, [1, 0]⟩ = (.error "Database is not open", linkedState.chain) :=
    if_pos (by decide +kernel)
  rintro ⟨result, u, hfill, hfilling, -⟩
  rw [hfillable.fillCanonicalChain_of_error hstart] at hfill
  obtain rfl := congrArg Prod.snd (Option.some.inj hfill)
  cases hfilling

end TsEthereum.Skeleton
