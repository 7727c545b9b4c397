import TsEthereum.Common.LastWrite
import TsEthereum.Vm.SystemContracts

/-!
# The rings of beacon roots and block hashes

Over a run of blocks the storage of the two system contracts holds, at every
slot, the number written there last: `Holds` composes as writes do, so that a
run makes the writes of its blocks. A run may be longer than the rings: a slot
keeps its number until a block comes whose time, or whose number, has the same
remainder. The rest of a block is to leave the two contracts alone.
-/

namespace TsEthereum.Vm

open ChainConfig Evm

/-! ## What is recorded -/

/-- **The number `getStorage` reads** of a slot. -/
def word (s : State) (address : Bytes20) (key : Bytes32) : ℕ := ofBigEndian (s.storage address key)

/-- What a block is to write to the ring buffers of EIP-4788: slots, and the
numbers meant. -/
def beaconWrites (m : HardforkManager) (block : HistoryBlock) : List (ℕ × ℕ) :=
  let length := (m.getParamAtHardfork .historicalRootsLength (block.hardfork m)).getD 0
  if m.isEIPActiveAtHardfork 4788 (block.hardfork m) then
    [(block.timestamp % length, block.timestamp),
      (block.timestamp % length + length, ofBigEndian block.parentBeaconBlockRoot.1)]
  else []

/-- What a block is to write to the ring buffer of EIP-2935. -/
def historyWrites (m : HardforkManager) (block : HistoryBlock) : List (ℕ × ℕ) :=
  let window := (m.getParamAtHardfork .historyServeWindow (block.hardfork m)).getD 0
  if m.isEIPActiveAtHardfork 2935 (block.hardfork m) then
    [((block.number - 1) % window, ofBigEndian block.parentHash.1)]
  else []

/-- **An address is left alone**: its storage and its code are as they were. -/
def Leaves (address : Bytes20) (s s' : State) : Prop :=
  s'.storage address = s.storage address ∧ getCode s' address = getCode s address

/-- The rest of a block leaves an address alone. -/
def HistoryBlock.Spares (block : HistoryBlock) (address : Bytes20) : Prop :=
  ∀ w w', block.rest w = .ok w' → Leaves address w.state w'.state

/-- **A storage holds the latest writes**, over what it held. -/
def Holds (address : Bytes20) (writes : List (ℕ × ℕ)) (s s' : State) : Prop :=
  ∀ key : Bytes32, word s' address key =
    (latest writes (ofBigEndian key.1)).getD (word s address key)

variable {m : HardforkManager} {config : DAOConfig} {w w' : World} {block : HistoryBlock}
  {address : Bytes20} {s s' s'' : State}

theorem Leaves.refl : Leaves address s s := ⟨rfl, rfl⟩

theorem Leaves.trans (h : Leaves address s s') (h' : Leaves address s' s'') :
    Leaves address s s'' := ⟨h'.1.trans h.1, h'.2.trans h.2⟩

theorem Leaves.word (h : Leaves address s s') (key : Bytes32) :
    word s' address key = word s address key := by
  rw [Vm.word, Vm.word, h.1]

theorem Leaves.holds (h : Leaves address s s') : Holds address [] s s' := fun key => h.word key

theorem Holds.trans {writes writes' : List (ℕ × ℕ)} (h : Holds address writes s s')
    (h' : Holds address writes' s' s'') : Holds address (writes ++ writes') s s'' := by
  intro key
  rw [h' key, h key, getD_latest_append]

theorem Holds.leaves {writes : List (ℕ × ℕ)} (h : Holds address writes s s')
    (h' : Leaves address s' s'') : Holds address writes s s'' := by
  intro key
  rw [h'.word, h key]

theorem Leaves.then_holds {writes : List (ℕ × ℕ)} (h : Leaves address s s')
    (h' : Holds address writes s' s'') : Holds address writes s s'' := by
  intro key
  rw [h' key, h.word]

/-! ## Slots and values -/

theorem ofBigEndian_unpadBytes (value : Bytes) :
    ofBigEndian (unpadBytes value) = ofBigEndian value := by
  induction value with
  | nil => rfl
  | cons byte value ih =>
    rw [unpadBytes, List.dropWhile_cons]
    split
    · next h =>
      have hbyte : byte = 0 := by simpa using h
      rw [← unpadBytes, ih, hbyte]
      exact (ofBigEndian_replicate_append 1 value).symm
    · rfl

theorem ofBigEndian_slotKey {num : ℕ} (h : num < 256 ^ 32) : ofBigEndian (slotKey num).1 = num := by
  rw [slotKey, ofBigEndian_setLengthLeft, Blockchain.ofBigEndian_bigIntToBytes, Nat.mod_eq_of_lt h]

theorem eq_slotKey_iff {num : ℕ} (h : num < 256 ^ 32) (key : Bytes32) :
    key = slotKey num ↔ ofBigEndian key.1 = num := by
  constructor
  · rintro rfl
    exact ofBigEndian_slotKey h
  · intro heq
    refine Subtype.ext (eq_of_ofBigEndian_eq (by rw [key.2, (slotKey num).2]) ?_)
    rw [heq, ofBigEndian_slotKey h]

theorem historyStorageAddress_ne : historyStorageAddress ≠ parentBeaconBlockRootAddress := by
  intro h
  have hnum := congrArg (fun a : Bytes20 => ofBigEndian a.1) h
  simp only [historyStorageAddress, parentBeaconBlockRootAddress, bigIntToAddressBytes,
    ofBigEndian_setLengthLeft, Blockchain.ofBigEndian_bigIntToBytes] at hnum
  norm_num at hnum

theorem putStorage_eq_ok {key : Bytes32} {value : Bytes}
    (h : putStorage w address key value = .ok w') :
    w'.state = w.state.putStorage address key (unpadBytes value) := by
  rw [putStorage] at h
  split at h
  · cases h
  · split at h
    · cases h
    · rw [← Except.ok.inj h]

theorem holds_putStorage {num : ℕ} {value : Bytes} (hnum : num < 256 ^ 32)
    (h : putStorage w address (slotKey num) value = .ok w') :
    Holds address [(num, ofBigEndian value)] w.state w'.state := by
  intro key
  rw [getD_latest_singleton, word, putStorage_eq_ok h, State.putStorage]
  dsimp only
  rw [Function.update_self]
  by_cases hkey : key = slotKey num
  · rw [if_pos ((eq_slotKey_iff hnum key).1 hkey), hkey, Function.update_self,
      ofBigEndian_unpadBytes]
  · rw [if_neg fun heq => hkey ((eq_slotKey_iff hnum key).2 heq), Function.update_of_ne hkey, word]

theorem leaves_putStorage {address' : Bytes20} {key : Bytes32} {value : Bytes}
    (hne : address' ≠ address) (h : putStorage w address key value = .ok w') :
    Leaves address' w.state w'.state := by
  rw [putStorage_eq_ok h]
  exact ⟨Function.update_of_ne hne _ _, rfl⟩

theorem getCode_putStorage {address' : Bytes20} {key : Bytes32} {value : Bytes}
    (h : putStorage w address key value = .ok w') :
    getCode w'.state address' = getCode w.state address' := by
  rw [putStorage_eq_ok h]
  rfl

/-! ## Clean-ups and the DAO fork -/

theorem leaves_cleanup (hcode : getCode w.state address ≠ []) (hardfork : Hardfork) :
    Leaves address w.state (cleanup m hardfork w).state := by
  have hkept : (w.state.accounts address).all AccountFields.isEmpty = false := by
    rw [getCode] at hcode
    cases haccount : w.state.accounts address with
    | none =>
      rw [haccount] at hcode
      exact absurd rfl hcode
    | some account =>
      rw [haccount] at hcode
      have hhash : account.codeHash ≠ KECCAK256_NULL := fun heq => hcode (if_pos heq)
      simp [AccountFields.isEmpty, hhash]
  constructor
  · simp [cleanup, hkept]
  · simp [cleanup, getCode, hkept]

theorem getCode_eq (s : State) (address : Bytes20) : getCode s address =
    if (s.account address).codeHash = KECCAK256_NULL then [] else s.code address := by
  rw [getCode, State.account]
  cases s.accounts address with
  | none => exact (if_pos rfl).symm
  | some account => rfl

/-- Code and storage of every address are as they were. -/
def KeepsContracts (s s' : State) : Prop :=
  s'.storage = s.storage ∧ s'.code = s.code ∧
    ∀ address, (s'.account address).codeHash = (s.account address).codeHash

theorem KeepsContracts.leaves (h : KeepsContracts s s') (address : Bytes20) :
    Leaves address s s' := by
  refine ⟨congrFun h.1 address, ?_⟩
  rw [getCode_eq, getCode_eq, h.2.1, h.2.2]

theorem KeepsContracts.putAccount (h : KeepsContracts s s') {account : AccountFields}
    (hcode : account.codeHash = (s.account address).codeHash) :
    KeepsContracts s (s'.putAccount address account) := by
  refine ⟨h.1, h.2.1, fun a => ?_⟩
  rw [State.account_putAccount]
  split
  · next ha => rw [hcode, ha]
  · exact h.2.2 a

theorem keepsContracts_applyDAOHardfork (config : DAOConfig) (w : World) :
    KeepsContracts w.state (_applyDAOHardfork config w).state := by
  -- over the accounts the loop has passed
  have hloop (addresses : List Bytes20) (r : World × ℕ)
      (h : KeepsContracts w.state r.1.state) :
      KeepsContracts w.state (addresses.foldl (fun (r : World × ℕ) address =>
        let account := r.1.state.account address
        (r.1.putAccount address { account with balance := 0 }, r.2 + account.balance)) r).1.state := by
    induction addresses generalizing r with
    | nil => exact h
    | cons a addresses ih => exact ih _ (h.putAccount (h.2.2 a))
  have hnew : KeepsContracts w.state
      (if (w.state.accounts config.DAORefundContract).isNone
        then w.putAccount config.DAORefundContract .new else w).state := by
    split
    · next hnone =>
      refine KeepsContracts.putAccount ⟨rfl, rfl, fun _ => rfl⟩ ?_
      rw [State.account, Option.isNone_iff_eq_none.1 hnone]
      rfl
    · exact ⟨rfl, rfl, fun _ => rfl⟩
  exact (hloop _ _ hnew).putAccount (hnew.2.2 _)

/-! ## The calls of a block -/

theorem foldl_param {param : BlockParam} {value : ℕ} (eips : List ℕ) (init : Option ℕ)
    (hinit : ∀ n, init = some n → n = value)
    (heip : ∀ eip n, BlockParam.EIP_PARAMS eip param = some n → n = value) :
    ∀ n, eips.foldl (fun result eip => (BlockParam.EIP_PARAMS eip param).or result) init = some n →
      n = value := by
  induction eips generalizing init with
  | nil => exact hinit
  | cons eip eips ih =>
    refine ih _ fun n hn => ?_
    dsimp only at hn
    cases hparam : BlockParam.EIP_PARAMS eip param with
    | none =>
      rw [hparam, Option.none_or] at hn
      exact hinit n hn
    | some n' =>
      rw [hparam, Option.some_or] at hn
      rw [← Option.some.inj hn]
      exact heip eip n' hparam

theorem historicalRootsLength_eq {hardfork : Hardfork} {n : ℕ}
    (h : m.getParamAtHardfork .historicalRootsLength hardfork = some n) : n = 8191 := by
  rw [HardforkManager.getParamAtHardfork] at h
  split at h
  · cases h
  · refine foldl_param _ _ (fun n hn => by cases hn) (fun eip n hn => ?_) n h
    unfold BlockParam.EIP_PARAMS at hn
    split at hn <;> cases hn
    rfl

theorem historyServeWindow_eq {hardfork : Hardfork} {n : ℕ}
    (h : m.getParamAtHardfork .historyServeWindow hardfork = some n) : n = 8192 := by
  rw [HardforkManager.getParamAtHardfork] at h
  split at h
  · cases h
  · refine foldl_param _ _ (fun n hn => by cases hn) (fun eip n hn => ?_) n h
    unfold BlockParam.EIP_PARAMS at hn
    split at hn <;> cases hn
    rfl

theorem modulus_eq_ok {length : Option ℕ} {n : ℕ} (h : modulus length = .ok n) :
    length = some n ∧ n ≠ 0 := by
  cases length with
  | none => cases h
  | some n' =>
    obtain ⟨hne, heq⟩ := ite_error_eq_ok.1 h
    obtain rfl := Except.ok.inj heq
    exact ⟨rfl, hne⟩

theorem holds_putBeaconRoot {root : Bytes} {timestamp : ℕ}
    (h : putBeaconRoot root timestamp 8191 w = .ok w') :
    Holds parentBeaconBlockRootAddress
        [(timestamp % 8191, timestamp), (timestamp % 8191 + 8191, ofBigEndian root)]
        w.state w'.state ∧
      Leaves historyStorageAddress w.state w'.state ∧
      getCode w'.state parentBeaconBlockRootAddress =
        getCode w.state parentBeaconBlockRootAddress := by
  obtain ⟨w₁, h₁, h₂⟩ := bind_eq_ok.1 h
  have hlt : timestamp % 8191 < 8191 := Nat.mod_lt _ (by omega)
  have hbound : 8191 + 8191 < 256 ^ 32 := by norm_num
  have hfirst := holds_putStorage (hlt.trans (by norm_num)) h₁
  have hsecond := holds_putStorage (show timestamp % 8191 + 8191 < 256 ^ 32 by omega) h₂
  rw [Blockchain.ofBigEndian_bigIntToBytes] at hfirst
  exact ⟨hfirst.trans hsecond, (leaves_putStorage historyStorageAddress_ne h₁).trans
    (leaves_putStorage historyStorageAddress_ne h₂),
    (getCode_putStorage h₂).trans (getCode_putStorage h₁)⟩

/-- Both contracts have code. -/
def HasContracts (s : State) : Prop :=
  getCode s parentBeaconBlockRootAddress ≠ [] ∧ getCode s historyStorageAddress ≠ []

theorem accumulateParentBeaconBlockRoot_holds (hcode : HasContracts w.state)
    (h : accumulateParentBeaconBlockRoot m block.parentBeaconBlockRoot.1 block.timestamp
      (block.hardfork m) w = .ok w') :
    Holds parentBeaconBlockRootAddress (beaconWrites m block) w.state w'.state ∧
      Leaves historyStorageAddress w.state w'.state ∧ HasContracts w'.state := by
  rw [accumulateParentBeaconBlockRoot] at h
  obtain ⟨hactive, h⟩ := check_bind_eq_ok.1 h
  have hactive : m.isEIPActiveAtHardfork 4788 (block.hardfork m) = true := by
    rw [checkActive] at hactive
    by_contra hne
    rw [if_neg hne] at hactive
    cases hactive
  obtain ⟨length, hlength, h⟩ := bind_eq_ok.1 h
  obtain ⟨hparam, -⟩ := modulus_eq_ok hlength
  obtain rfl := historicalRootsLength_eq hparam
  have hlen : ¬ (getCode w.state parentBeaconBlockRootAddress).length = 0 := fun hz =>
    hcode.1 (List.length_eq_zero_iff.1 hz)
  rw [if_neg hlen] at h
  obtain ⟨w₁, hput, rfl⟩ := map_eq_ok h
  obtain ⟨hholds, hleaves, hkept⟩ := holds_putBeaconRoot hput
  have hcode₁ : HasContracts w₁.state := ⟨hkept ▸ hcode.1, hleaves.2 ▸ hcode.2⟩
  have hclean := leaves_cleanup (m := m) hcode₁.1 (block.hardfork m)
  have hclean' := leaves_cleanup (m := m) hcode₁.2 (block.hardfork m)
  rw [beaconWrites, if_pos hactive, hparam]
  exact ⟨hholds.leaves hclean, hleaves.trans hclean', hclean.2 ▸ hcode₁.1, hclean'.2 ▸ hcode₁.2⟩

theorem accumulateParentBlockHash_holds (hcode : HasContracts w.state)
    (h : accumulateParentBlockHash m block.number block.parentHash.1 (block.hardfork m) w =
      .ok w') :
    Holds historyStorageAddress (historyWrites m block) w.state w'.state ∧
      Leaves parentBeaconBlockRootAddress w.state w'.state ∧ HasContracts w'.state := by
  rw [accumulateParentBlockHash] at h
  obtain ⟨hactive, h⟩ := check_bind_eq_ok.1 h
  have hactive : m.isEIPActiveAtHardfork 2935 (block.hardfork m) = true := by
    rw [checkActive] at hactive
    by_contra hne
    rw [if_neg hne] at hactive
    cases hactive
  have hlen : ¬ (getCode w.state historyStorageAddress).length = 0 := fun hz =>
    hcode.2 (List.length_eq_zero_iff.1 hz)
  rw [if_neg hlen] at h
  obtain ⟨w₁, hput, rfl⟩ := map_eq_ok h
  rw [putBlockHash] at hput
  obtain ⟨window, hwindow, hput⟩ := bind_eq_ok.1 hput
  obtain ⟨hparam, -⟩ := modulus_eq_ok hwindow
  obtain rfl := historyServeWindow_eq hparam
  obtain ⟨-, hput⟩ := ite_error_eq_ok.1 hput
  have hlt : (block.number - 1) % 8192 < 8192 := Nat.mod_lt _ (by omega)
  have hholds := holds_putStorage (hlt.trans (by norm_num)) hput
  have hleaves := leaves_putStorage historyStorageAddress_ne.symm hput
  have hcode₁ : HasContracts w₁.state :=
    ⟨hleaves.2 ▸ hcode.1, (getCode_putStorage hput) ▸ hcode.2⟩
  have hclean := leaves_cleanup (m := m) hcode₁.1 (block.hardfork m)
  have hclean' := leaves_cleanup (m := m) hcode₁.2 (block.hardfork m)
  rw [historyWrites, if_pos hactive, hparam]
  exact ⟨hholds.leaves hclean', hleaves.trans hclean, hclean.2 ▸ hcode₁.1, hclean'.2 ▸ hcode₁.2⟩

theorem accumulate_holds (hcode : HasContracts w.state) (h : accumulate m block w = .ok w') :
    Holds parentBeaconBlockRootAddress (beaconWrites m block) w.state w'.state ∧
      Holds historyStorageAddress (historyWrites m block) w.state w'.state ∧
      HasContracts w'.state := by
  rw [accumulate] at h
  obtain ⟨w₁, h₁, h₂⟩ := bind_eq_ok.1 h
  rw [whenActive] at h₁ h₂
  have hbeacon : Holds parentBeaconBlockRootAddress (beaconWrites m block) w.state w₁.state ∧
      Leaves historyStorageAddress w.state w₁.state ∧ HasContracts w₁.state := by
    split at h₁
    · exact accumulateParentBeaconBlockRoot_holds hcode h₁
    · next hinactive =>
      obtain rfl := Except.ok.inj h₁
      rw [beaconWrites, if_neg hinactive]
      exact ⟨Leaves.refl.holds, .refl, hcode⟩
  obtain ⟨hholds, hleaves, hcode₁⟩ := hbeacon
  split at h₂
  · obtain ⟨hholds', hleaves', hcode₂⟩ := accumulateParentBlockHash_holds hcode₁ h₂
    exact ⟨hholds.leaves hleaves', hleaves.then_holds hholds', hcode₂⟩
  · next hinactive =>
    obtain rfl := Except.ok.inj h₂
    rw [historyWrites, if_neg hinactive]
    exact ⟨hholds, hleaves.holds, hcode₁⟩

/-- A block leaves both contracts alone after its two calls. -/
def HistoryBlock.SparesHistory (block : HistoryBlock) : Prop :=
  block.Spares parentBeaconBlockRootAddress ∧ block.Spares historyStorageAddress

theorem runBlock_holds (hcode : HasContracts w.state) (hspares : block.SparesHistory)
    (h : runBlock m config w block = .ok w') :
    Holds parentBeaconBlockRootAddress (beaconWrites m block) w.state w'.state ∧
      Holds historyStorageAddress (historyWrites m block) w.state w'.state ∧
      HasContracts w'.state := by
  rw [runBlock] at h
  obtain ⟨w₂, haccumulate, h⟩ := bind_eq_ok.1 h
  obtain ⟨w₃, hrest, h⟩ := bind_eq_ok.1 h
  obtain rfl := Except.ok.inj h
  have hbefore (address : Bytes20) :
      Leaves address w.state (beforeBlock m config w block).checkpoint.state := by
    rw [beforeBlock]
    split
    · exact (keepsContracts_applyDAOHardfork config _).leaves address
    · exact .refl
  have hbeacon := hbefore parentBeaconBlockRootAddress
  have hhistory := hbefore historyStorageAddress
  obtain ⟨hholds, hholds', hcode₂⟩ :=
    accumulate_holds ⟨hbeacon.2 ▸ hcode.1, hhistory.2 ▸ hcode.2⟩ haccumulate
  have hafter := hspares.1 w₂ w₃ hrest
  have hafter' := hspares.2 w₂ w₃ hrest
  exact ⟨(hbeacon.then_holds hholds).leaves hafter, (hhistory.then_holds hholds').leaves hafter',
    hafter.2 ▸ hcode₂.1, hafter'.2 ▸ hcode₂.2⟩

theorem runBlocks_holds {blocks : List HistoryBlock} (hcode : HasContracts w.state)
    (hspares : ∀ block ∈ blocks, block.SparesHistory)
    (h : runBlocks m config w blocks = .ok w') :
    Holds parentBeaconBlockRootAddress (blocks.flatMap (beaconWrites m)) w.state w'.state ∧
      Holds historyStorageAddress (blocks.flatMap (historyWrites m)) w.state w'.state ∧
      HasContracts w'.state := by
  induction blocks generalizing w with
  | nil =>
    obtain rfl := Except.ok.inj h
    exact ⟨Leaves.refl.holds, Leaves.refl.holds, hcode⟩
  | cons block blocks ih =>
    obtain ⟨w₁, h₁, h₂⟩ := bind_eq_ok.1 h
    obtain ⟨hholds, hholds', hcode₁⟩ :=
      runBlock_holds hcode (hspares block List.mem_cons_self) h₁
    obtain ⟨hrest, hrest', hcode₂⟩ :=
      ih hcode₁ (List.forall_mem_cons.1 hspares).2 h₂
    exact ⟨hholds.trans hrest, hholds'.trans hrest', hcode₂⟩

/-! ## The last block -/

theorem foldl_param_ne_none {param : BlockParam} {eip : ℕ} {eips : List ℕ} (init : Option ℕ)
    (hmem : eip ∈ eips) (heip : BlockParam.EIP_PARAMS eip param ≠ none) :
    eips.foldl (fun result eip => (BlockParam.EIP_PARAMS eip param).or result) init ≠ none := by
  -- what is set stays set
  have hstays (eips : List ℕ) (init : Option ℕ) (hinit : init ≠ none) :
      eips.foldl (fun result eip => (BlockParam.EIP_PARAMS eip param).or result) init ≠ none := by
    induction eips generalizing init with
    | nil => exact hinit
    | cons eip eips ih =>
      exact ih ((BlockParam.EIP_PARAMS eip param).or init) fun hnone =>
        hinit (Option.or_eq_none_iff.1 hnone).2
  induction eips generalizing init with
  | nil => cases hmem
  | cons eip' eips ih =>
    rcases List.mem_cons.1 hmem with rfl | hmem
    · exact hstays eips ((BlockParam.EIP_PARAMS eip param).or init) fun hnone =>
        heip (Option.or_eq_none_iff.1 hnone).1
    · exact ih _ hmem

theorem param_of_active (param : BlockParam) {eip : ℕ} {hardfork : Hardfork}
    (hactive : m.isEIPActiveAtHardfork eip hardfork = true)
    (heip : BlockParam.EIP_PARAMS eip param ≠ none) :
    ∃ n, m.getParamAtHardfork param hardfork = some n := by
  refine Option.ne_none_iff_exists'.1 ?_
  rw [HardforkManager.isEIPActiveAtHardfork, ChainSpec.isEIPActiveAtHardfork] at hactive
  rw [HardforkManager.getParamAtHardfork]
  cases hindex : m.spec.hardforkIndex hardfork with
  | none =>
    rw [hindex] at hactive
    cases hactive
  | some index =>
    rw [hindex] at hactive
    exact foldl_param_ne_none _ (List.contains_iff_mem.1 hactive) heip

/-- **What a block is to have recorded**: with EIP-4788, its timestamp and the root of
its parent beacon block; with EIP-2935, the hash of its parent. -/
structure Recorded (m : HardforkManager) (block : HistoryBlock) (s : State) : Prop where
  timestamp : m.isEIPActiveAtHardfork 4788 (block.hardfork m) = true →
    word s parentBeaconBlockRootAddress (slotKey (block.timestamp % 8191)) = block.timestamp
  root : m.isEIPActiveAtHardfork 4788 (block.hardfork m) = true →
    word s parentBeaconBlockRootAddress (slotKey (block.timestamp % 8191 + 8191)) =
      ofBigEndian block.parentBeaconBlockRoot.1
  parentHash : m.isEIPActiveAtHardfork 2935 (block.hardfork m) = true →
    word s historyStorageAddress (slotKey ((block.number - 1) % 8192)) =
      ofBigEndian block.parentHash.1

theorem recorded_of_holds
    (hbeacon : Holds parentBeaconBlockRootAddress (beaconWrites m block) s s')
    (hhistory : Holds historyStorageAddress (historyWrites m block) s s') :
    Recorded m block s' := by
  have hlt : block.timestamp % 8191 < 8191 := Nat.mod_lt _ (by omega)
  have hlt' : (block.number - 1) % 8192 < 8192 := Nat.mod_lt _ (by omega)
  have hbound : 8191 + 8191 < 256 ^ 32 := by norm_num
  have hwrites (hactive : m.isEIPActiveAtHardfork 4788 (block.hardfork m) = true) :
      beaconWrites m block = [(block.timestamp % 8191, block.timestamp),
        (block.timestamp % 8191 + 8191, ofBigEndian block.parentBeaconBlockRoot.1)] := by
    obtain ⟨length, hlength⟩ :=
      param_of_active .historicalRootsLength hactive (by decide)
    rw [beaconWrites, if_pos hactive, hlength, historicalRootsLength_eq hlength]
    rfl
  refine ⟨fun hactive => ?_, fun hactive => ?_, fun hactive => ?_⟩
  · have h := hbeacon (slotKey (block.timestamp % 8191))
    rw [hwrites hactive, ofBigEndian_slotKey (by omega)] at h
    simpa [latest] using h
  · have h := hbeacon (slotKey (block.timestamp % 8191 + 8191))
    rw [hwrites hactive, ofBigEndian_slotKey (by omega)] at h
    simpa [latest] using h
  · obtain ⟨window, hwindow⟩ :=
      param_of_active .historyServeWindow hactive (by decide)
    have h := hhistory (slotKey ((block.number - 1) % 8192))
    rw [historyWrites, if_pos hactive, hwindow, historyServeWindow_eq hwindow,
      ofBigEndian_slotKey (by omega)] at h
    simpa [latest] using h

/-- **Beacon roots and block hashes.** In every run of blocks from a state in which both
contracts have code, each block leaving them alone after its two calls: every slot of
the contracts reads as the number written for it last, or as before the run, and the
last block has recorded what it is to. -/
theorem history_of_runBlocks {blocks : List HistoryBlock} (hcode : HasContracts w.state)
    (hspares : ∀ block ∈ blocks, block.SparesHistory)
    (h : runBlocks m config w blocks = .ok w') :
    Holds parentBeaconBlockRootAddress (blocks.flatMap (beaconWrites m)) w.state w'.state ∧
      Holds historyStorageAddress (blocks.flatMap (historyWrites m)) w.state w'.state ∧
      ∀ pre block, blocks = pre ++ [block] → Recorded m block w'.state := by
  obtain ⟨hbeacon, hhistory, -⟩ := runBlocks_holds hcode hspares h
  refine ⟨hbeacon, hhistory, ?_⟩
  rintro pre block rfl
  rw [runBlocks, List.foldlM_append] at h
  obtain ⟨w₁, hpre, hlast⟩ := bind_eq_ok.1 h
  obtain ⟨-, -, hcode₁⟩ := runBlocks_holds hcode
    (fun b hb => hspares b (List.mem_append_left _ hb)) hpre
  have hlast : runBlock m config w₁ block = .ok w' := by
    rw [List.foldlM_cons] at hlast
    obtain ⟨w₂, h₂, hnil⟩ := bind_eq_ok.1 hlast
    rw [h₂, ← Except.ok.inj hnil]
  obtain ⟨hholds, hholds', -⟩ :=
    runBlock_holds hcode₁ (hspares block (List.mem_append_right _ (by simp))) hlast
  exact recorded_of_holds hholds hholds'

/-! ## Blocks that run -/

theorem exists_putStorage (key : Bytes32) {value : Bytes} (hcode : getCode w.state address ≠ [])
    (hlen : value.length ≤ 32) : ∃ w', putStorage w address key value = .ok w' := by
  rw [getCode] at hcode
  rw [putStorage, if_neg (by omega)]
  cases haccount : w.state.accounts address with
  | none =>
    rw [haccount] at hcode
    exact absurd rfl hcode
  | some account => exact ⟨_, rfl⟩

theorem length_bigIntToBytes_le {num : ℕ} (h : num < 256 ^ 32) :
    (Blockchain.bigIntToBytes num).length ≤ 32 := by
  rw [Blockchain.bigIntToBytes]
  split
  · simp
  · exact length_bigEndian_le h

/-- **The two calls do not throw**, but for the first block or a time that takes more
than 32 bytes. -/
theorem exists_accumulate (block : HistoryBlock) (hcode : HasContracts w.state) (hnumber : block.number ≠ 0)
    (htime : block.timestamp < 256 ^ 32) : ∃ w', accumulate m block w = .ok w' := by
  have hbeacon : ∃ w₁, whenActive m 4788 (block.hardfork m)
      (accumulateParentBeaconBlockRoot m block.parentBeaconBlockRoot.1 block.timestamp
        (block.hardfork m)) w = .ok w₁ := by
    rw [whenActive]
    split
    · next hactive =>
      obtain ⟨length, hlength⟩ :=
        param_of_active .historicalRootsLength hactive (by decide)
      obtain rfl := historicalRootsLength_eq hlength
      have hlen : ¬ (getCode w.state parentBeaconBlockRootAddress).length = 0 := fun hz =>
        hcode.1 (List.length_eq_zero_iff.1 hz)
      obtain ⟨w₁, h₁⟩ := exists_putStorage (slotKey (block.timestamp % 8191)) hcode.1
        (length_bigIntToBytes_le htime)
      obtain ⟨w₂, h₂⟩ := exists_putStorage (w := w₁)
        (slotKey (block.timestamp % 8191 + 8191)) ((getCode_putStorage h₁) ▸ hcode.1)
        block.parentBeaconBlockRoot.2.le
      refine ⟨cleanup m (block.hardfork m) w₂, ?_⟩
      rw [accumulateParentBeaconBlockRoot, checkActive, if_pos hactive, ok_bind, hlength, modulus,
        if_neg (by omega), ok_bind, if_neg hlen, putBeaconRoot, h₁, ok_bind, h₂]
      rfl
    · exact ⟨w, rfl⟩
  obtain ⟨w₁, h₁⟩ := hbeacon
  rw [accumulate, h₁, ok_bind, whenActive]
  split
  · next hactive =>
    have hcode₁ : getCode w₁.state historyStorageAddress ≠ [] := by
      rw [whenActive] at h₁
      split at h₁
      · exact (accumulateParentBeaconBlockRoot_holds hcode h₁).2.2.2
      · obtain rfl := Except.ok.inj h₁
        exact hcode.2
    have hlen : ¬ (getCode w₁.state historyStorageAddress).length = 0 := fun hz =>
      hcode₁ (List.length_eq_zero_iff.1 hz)
    obtain ⟨window, hwindow⟩ :=
      param_of_active .historyServeWindow hactive (by decide)
    obtain rfl := historyServeWindow_eq hwindow
    obtain ⟨w₂, h₂⟩ := exists_putStorage (slotKey ((block.number - 1) % 8192)) hcode₁
      block.parentHash.2.le
    refine ⟨cleanup m (block.hardfork m) w₂, ?_⟩
    rw [accumulateParentBlockHash, checkActive, if_pos hactive, ok_bind, if_neg hlen, putBlockHash,
      hwindow, modulus, if_neg (by omega), ok_bind, if_neg hnumber, h₂]
    rfl
  · exact ⟨w₁, rfl⟩

/-- A block of a hardfork that has both EIPs. -/
def sampleBlockWith (rest : World → Except BlockError World) : HistoryBlock where
  number := 30
  timestamp := 4000
  parentHash := ⟨List.replicate 32 1, List.length_replicate⟩
  parentBeaconBlockRoot := ⟨List.replicate 32 2, List.length_replicate⟩
  rest := rest

/-- One without transactions. -/
def sampleBlock : HistoryBlock := sampleBlockWith .ok

/-- A state with or without a code at every address. -/
def sampleWorld (code : Bytes) : World where
  state :=
    { accounts := fun _ => some { AccountFields.new with codeHash := KECCAK256_RLP }
      code := fun _ => code
      storage := fun _ _ => []
      burned := 0 }
  touched := ∅
  journalHeight := 0
  saved := []
  transient := .new

/-- The accounts of no DAO fork. -/
def sampleDAO : DAOConfig := ⟨[], bigIntToAddressBytes 0⟩

theorem sparesHistory_sampleBlock : sampleBlock.SparesHistory := by
  constructor
  · intro w w' h
    obtain rfl := Except.ok.inj h
    exact .refl
  · intro w w' h
    obtain rfl := Except.ok.inj h
    exact .refl

theorem hasContracts_sampleWorld : HasContracts (sampleWorld [1]).state := by
  have h (address : Bytes20) : getCode (sampleWorld [1]).state address = [1] := by
    change (if KECCAK256_RLP = KECCAK256_NULL then [] else [1]) = [1]
    exact if_neg (by decide)
  rw [HasContracts, h, h]
  simp

theorem exists_runBlocks_sample (rest : World → Except BlockError World)
    (hrest : ∀ w, ∃ w', rest w = .ok w') : ∃ w w',
      rest w = .ok w' ∧ runBlocks sampleManager sampleDAO (sampleWorld [1])
        [sampleBlockWith rest] = .ok w'.commit := by
  have hbefore : beforeBlock sampleManager sampleDAO (sampleWorld [1])
      (sampleBlockWith rest) = sampleWorld [1] := rfl
  obtain ⟨w, h⟩ := exists_accumulate (m := sampleManager) (w := (sampleWorld [1]).checkpoint)
    (sampleBlockWith rest) hasContracts_sampleWorld (by simp [sampleBlockWith]) (by simp [sampleBlockWith])
  obtain ⟨w', hw'⟩ := hrest w
  refine ⟨w, w', hw', ?_⟩
  have hrest' : (sampleBlockWith rest).rest w = .ok w' := hw'
  rw [runBlocks, List.foldlM_cons, runBlock, hbefore, h, ok_bind, hrest']
  rfl

theorem history_sampleBlock : ∃ w', runBlocks sampleManager sampleDAO (sampleWorld [1])
    [sampleBlock] = .ok w' ∧ Recorded sampleManager sampleBlock w'.state := by
  obtain ⟨w, w', -, hrun⟩ := exists_runBlocks_sample .ok fun w => ⟨w, rfl⟩
  refine ⟨_, hrun, (history_of_runBlocks hasContracts_sampleWorld ?_ hrun).2.2 [] sampleBlock rfl⟩
  intro block hblock
  rw [List.mem_singleton.1 hblock]
  exact sparesHistory_sampleBlock

/-- What the transactions of a block do that call contracts whose code sets every slot
to zero. -/
def clearEverything (w : World) : Except BlockError World :=
  .ok { w with state := { w.state with storage := fun _ _ => [] } }

/-- **Not every run records**: not where a contract has no code, and not where the
contract's own code, run by a transaction of the block, sets the slots. -/
theorem not_recorded_sampleBlock :
    (¬ ∀ m config w w' blocks, runBlocks m config w blocks = .ok w' →
      (blocks.map HistoryBlock.timestamp).Pairwise (· < ·) →
      (blocks.map HistoryBlock.number).Pairwise (· < ·) →
      (∀ block ∈ blocks, block.SparesHistory) →
      ∀ pre block, blocks = pre ++ [block] → Recorded m block w'.state) ∧
    ¬ ∀ m config w w' blocks, runBlocks m config w blocks = .ok w' →
      (blocks.map HistoryBlock.timestamp).Pairwise (· < ·) →
      (blocks.map HistoryBlock.number).Pairwise (· < ·) →
      HasContracts w.state →
      ∀ pre block, blocks = pre ++ [block] → Recorded m block w'.state := by
  constructor
  · intro h
    have hrun : runBlocks sampleManager sampleDAO (sampleWorld []) [sampleBlock] =
        .ok (sampleWorld []) := rfl
    have hspares : ∀ block ∈ [sampleBlock], block.SparesHistory := by
      intro block hblock
      rw [List.mem_singleton.1 hblock]
      exact sparesHistory_sampleBlock
    have htime := (h _ _ _ _ _ hrun (List.pairwise_singleton ..) (List.pairwise_singleton ..)
      hspares [] sampleBlock rfl).timestamp (by decide)
    cases htime
  · intro h
    obtain ⟨w, w', hrest, hrun⟩ := exists_runBlocks_sample clearEverything fun w => ⟨_, rfl⟩
    have htime := (h _ _ _ _ _ hrun (List.pairwise_singleton ..) (List.pairwise_singleton ..)
      hasContracts_sampleWorld [] _ rfl).timestamp (by decide)
    rw [← Except.ok.inj hrest] at htime
    cases htime

end TsEthereum.Vm
