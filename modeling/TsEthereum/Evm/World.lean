import TsEthereum.State.Account
import Mathlib.Algebra.BigOperators.Group.Finset.Basic
import Mathlib.Data.Finset.Lattice.Basic
import Mathlib.Data.Fintype.EquivFin
import Mathlib.Data.Fintype.Pi
import Mathlib.Logic.Function.Basic

/-!
# What messages change

The accounts, codes and storage that the state manager holds, with its
checkpoints; the height of the journal and the accounts it has touched; and
transient storage. A checkpoint of the journal is one of the state manager, which
keeps what it is to restore; the touched accounts are restored as well, but for
RIPEMD160 (`Journal.revert_restores`).
-/

namespace TsEthereum.Evm

/-- The fields of an account. -/
structure AccountFields where
  nonce : ℕ
  balance : ℕ
  storageRoot : Bytes32
  codeHash : Bytes32
  deriving DecidableEq

/-- `new Account()`. -/
def AccountFields.new : AccountFields := ⟨0, 0, KECCAK256_RLP, KECCAK256_NULL⟩

def AccountFields.isEmpty (account : AccountFields) : Bool :=
  account.balance = 0 ∧ account.nonce = 0 ∧ account.codeHash = KECCAK256_NULL

/-- **The state**: what the state manager holds. Nothing reads `burned`: it counts
the ether that selfdestructs have destroyed. -/
structure State where
  accounts : Bytes20 → Option AccountFields
  code : Bytes20 → Bytes
  storage : Bytes20 → Bytes32 → Bytes
  burned : ℕ

namespace State

variable (s : State)

/-- `getAccount`, or a new account. -/
def account (address : Bytes20) : AccountFields := (s.accounts address).getD .new

/-- The balance of an address. -/
def balance (address : Bytes20) : ℕ := (s.account address).balance

def putAccount (address : Bytes20) (account : AccountFields) : State :=
  { s with accounts := Function.update s.accounts address (some account) }

/-- **`putCode`**: the account gets the hash of its code. -/
def putCode (keccak256 : Bytes → Bytes32) (address : Bytes20) (value : Bytes) : State :=
  { s.putAccount address { s.account address with codeHash := keccak256 value } with
    code := Function.update s.code address value }

def putStorage (address : Bytes20) (key : Bytes32) (value : Bytes) : State :=
  { s with
    storage := Function.update s.storage address (Function.update (s.storage address) key value) }

def clearStorage (address : Bytes20) : State :=
  { s.putAccount address { s.account address with storageRoot := KECCAK256_RLP } with
    storage := Function.update s.storage address fun _ => [] }

end State

/-- **The `TransientStorage`.** Its journal and its indices are kept the last first. -/
structure TransientStorage where
  storage : Bytes20 → Bytes32 → Bytes
  changeJournal : List (Bytes20 × Bytes32 × Bytes)
  indices : List ℕ

namespace TransientStorage

variable (t : TransientStorage)

/-- `new TransientStorage()`: a slot that is not set reads as zeros. -/
def new : TransientStorage := ⟨fun _ _ => List.replicate 32 0, [], [0]⟩

/-- A slot is set. -/
def set (address : Bytes20) (key : Bytes32) (value : Bytes) : TransientStorage :=
  { t with
    storage := Function.update t.storage address (Function.update (t.storage address) key value) }

def put (address : Bytes20) (key : Bytes32) (value : Bytes) : TransientStorage :=
  { t.set address key value with
    changeJournal := (address, key, t.storage address key) :: t.changeJournal }

def checkpoint : TransientStorage := { t with indices := t.changeJournal.length :: t.indices }

/-- `commit`; `none` where it throws. -/
def commit : Option TransientStorage :=
  match t.indices with
  | [] => none
  | _ :: indices => some { t with indices := indices }

/-- The loop of `revert`, over the changes after the last checkpoint. -/
def undo : TransientStorage :=
  t.changeJournal.foldl (fun t change => t.set change.1 change.2.1 change.2.2) t

/-- **`revert`**; `none` where it throws. -/
def revert : Option TransientStorage :=
  match t.indices with
  | [] => none
  | lastCheckpoint :: indices =>
    let count := t.changeJournal.length - lastCheckpoint
    some
      { storage := { t with changeJournal := t.changeJournal.take count }.undo.storage
        changeJournal := t.changeJournal.drop count
        indices := indices }

/-- `clear`, which leaves the indices. -/
def clear : TransientStorage := { new with indices := t.indices }

end TransientStorage

/-- `RIPEMD160_ADDRESS_STRING`, as an address. -/
def RIPEMD160_ADDRESS : Bytes20 := ⟨List.replicate 19 0 ++ [3], rfl⟩

/-- **What a message changes.** `saved` is what the state manager's checkpoints
have kept, the last first, with the accounts that were touched. -/
structure World where
  state : State
  touched : Finset Bytes20
  journalHeight : ℤ
  saved : List (State × Finset Bytes20)
  transient : TransientStorage

namespace World

variable (w : World)

def putAccount (address : Bytes20) (account : AccountFields) : World :=
  { w with state := w.state.putAccount address account, touched := insert address w.touched }

/-- **`journal.checkpoint`**. -/
def checkpoint : World :=
  { w with journalHeight := w.journalHeight + 1, saved := (w.state, w.touched) :: w.saved }

/-- **`journal.commit`**. -/
def commit : World := { w with journalHeight := w.journalHeight - 1, saved := w.saved.tail }

/-- **`journal.revert`**: RIPEMD160 stays touched. -/
def revert : World :=
  match w.saved with
  | [] => { w with journalHeight := w.journalHeight - 1 }
  | (state, touched) :: saved =>
    { w with
      state := state
      touched := touched ∪ w.touched ∩ {RIPEMD160_ADDRESS}
      journalHeight := w.journalHeight - 1
      saved := saved }

end World

/-! ## Balances -/

instance : Finite Bytes20 := by
  refine Finite.of_injective (fun (b : Bytes20) (i : Fin 20) => (b.1.getD i 0).toFin) ?_
  intro b b' h
  refine Subtype.ext (List.ext_getElem (b.2.trans b'.2.symm) fun i hi hi' => ?_)
  have hbyte := congrFun h ⟨i, by omega⟩
  simp only [List.getD_eq_getElem?_getD] at hbyte
  rw [List.getElem?_eq_getElem hi, List.getElem?_eq_getElem hi'] at hbyte
  exact UInt8.toFin_inj.1 hbyte

noncomputable instance : Fintype Bytes20 := Fintype.ofFinite Bytes20

namespace State

variable (s : State) (address address' : Bytes20) (account : AccountFields)

/-- **The sum of all balances.** -/
noncomputable def total : ℕ := ∑ address, s.balance address

theorem account_putAccount :
    (s.putAccount address account).account address' =
      if address' = address then account else s.account address' := by
  change (Function.update s.accounts address (some account) address').getD .new = _
  rw [Function.update_apply]
  split
  · rfl
  · rfl

theorem balance_putAccount :
    (s.putAccount address account).balance address' =
      if address' = address then account.balance else s.balance address' := by
  rw [balance, account_putAccount, balance]
  split
  · rfl
  · rfl

theorem total_putAccount :
    (s.putAccount address account).total + s.balance address = s.total + account.balance := by
  have hnew := Finset.add_sum_erase Finset.univ (s.putAccount address account).balance
    (Finset.mem_univ address)
  have hold := Finset.add_sum_erase Finset.univ s.balance (Finset.mem_univ address)
  have hothers : ∑ a ∈ Finset.univ.erase address, (s.putAccount address account).balance a =
      ∑ a ∈ Finset.univ.erase address, s.balance a := by
    refine Finset.sum_congr rfl fun a ha => ?_
    rw [balance_putAccount, if_neg (Finset.ne_of_mem_erase ha)]
  rw [balance_putAccount, if_pos rfl, hothers] at hnew
  rw [total, total, ← hnew, ← hold]
  omega

theorem balance_putAccount_of_eq (h : account.balance = s.balance address) :
    (s.putAccount address account).balance = s.balance := by
  funext a
  rw [balance_putAccount]
  split
  · rename_i heq
    rw [heq, h]
  · rfl

theorem total_congr {s s' : State} (h : s'.balance = s.balance) : s'.total = s.total := by
  rw [total, total, h]

theorem balance_putCode (keccak256 : Bytes → Bytes32) (value : Bytes) :
    (s.putCode keccak256 address value).balance = s.balance :=
  s.balance_putAccount_of_eq address { s.account address with codeHash := keccak256 value } rfl

theorem balance_clearStorage : (s.clearStorage address).balance = s.balance :=
  s.balance_putAccount_of_eq address { s.account address with storageRoot := KECCAK256_RLP } rfl

end State

end TsEthereum.Evm
