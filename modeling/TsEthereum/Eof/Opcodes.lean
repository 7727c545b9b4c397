import TsEthereum.Common.Bytes
import Mathlib.Data.Fintype.Basic

/-!
# The instructions of EOF code

What the validation takes an instruction to do to the stack is a table (`stackDelta`); what it does
when it runs is its handler's (`handler`). The two agree on every opcode of the table.
-/

namespace TsEthereum

namespace Eof

/-- **An entry of `stackDelta`**, but for the name. -/
structure StackDelta where
  inputs : ℕ
  outputs : ℕ
  intermediates : ℕ
  terminating : Bool
  deriving DecidableEq

/-- The entries of `stackDelta`, by their opcodes. -/
def stackDeltas : List (ℕ × StackDelta) := [
  (0x00, ⟨0, 0, 0, true⟩), (0x01, ⟨2, 1, 0, false⟩), (0x02, ⟨2, 1, 0, false⟩),
  (0x03, ⟨2, 1, 0, false⟩), (0x04, ⟨2, 1, 0, false⟩), (0x05, ⟨2, 1, 0, false⟩),
  (0x06, ⟨2, 1, 0, false⟩), (0x07, ⟨2, 1, 0, false⟩), (0x08, ⟨3, 1, 0, false⟩),
  (0x09, ⟨3, 1, 0, false⟩), (0x0a, ⟨2, 1, 0, false⟩), (0x0b, ⟨2, 1, 0, false⟩),
  (0x10, ⟨2, 1, 0, false⟩), (0x11, ⟨2, 1, 0, false⟩), (0x12, ⟨2, 1, 0, false⟩),
  (0x13, ⟨2, 1, 0, false⟩), (0x14, ⟨2, 1, 0, false⟩), (0x15, ⟨1, 1, 0, false⟩),
  (0x16, ⟨2, 1, 0, false⟩), (0x17, ⟨2, 1, 0, false⟩), (0x18, ⟨2, 1, 0, false⟩),
  (0x19, ⟨1, 1, 0, false⟩), (0x1a, ⟨2, 1, 0, false⟩), (0x1b, ⟨2, 1, 0, false⟩),
  (0x1c, ⟨2, 1, 0, false⟩), (0x1d, ⟨2, 1, 0, false⟩), (0x20, ⟨2, 1, 0, false⟩),
  (0x30, ⟨0, 1, 0, false⟩), (0x31, ⟨1, 1, 0, false⟩), (0x32, ⟨0, 1, 0, false⟩),
  (0x33, ⟨0, 1, 0, false⟩), (0x34, ⟨0, 1, 0, false⟩), (0x35, ⟨1, 1, 0, false⟩),
  (0x36, ⟨0, 1, 0, false⟩), (0x37, ⟨3, 0, 0, false⟩), (0x3a, ⟨0, 1, 0, false⟩),
  (0x3d, ⟨0, 1, 0, false⟩), (0x3e, ⟨3, 0, 0, false⟩), (0x40, ⟨1, 1, 0, false⟩),
  (0x41, ⟨0, 1, 0, false⟩), (0x42, ⟨0, 1, 0, false⟩), (0x43, ⟨0, 1, 0, false⟩),
  (0x44, ⟨0, 1, 0, false⟩), (0x45, ⟨0, 1, 0, false⟩), (0x46, ⟨0, 1, 0, false⟩),
  (0x47, ⟨0, 1, 0, false⟩), (0x48, ⟨0, 1, 0, false⟩), (0x49, ⟨1, 1, 0, false⟩),
  (0x4a, ⟨0, 1, 0, false⟩), (0x50, ⟨1, 0, 0, false⟩), (0x51, ⟨1, 1, 0, false⟩),
  (0x52, ⟨2, 0, 0, false⟩), (0x53, ⟨2, 0, 0, false⟩), (0x54, ⟨1, 1, 0, false⟩),
  (0x55, ⟨2, 0, 0, false⟩), (0x59, ⟨0, 1, 0, false⟩), (0x5b, ⟨0, 0, 0, false⟩),
  (0x5c, ⟨1, 1, 0, false⟩), (0x5d, ⟨2, 0, 0, false⟩), (0x5e, ⟨3, 0, 0, false⟩),
  (0x5f, ⟨0, 1, 0, false⟩), (0x60, ⟨0, 1, 1, false⟩), (0x61, ⟨0, 1, 2, false⟩),
  (0x62, ⟨0, 1, 3, false⟩), (0x63, ⟨0, 1, 4, false⟩), (0x64, ⟨0, 1, 5, false⟩),
  (0x65, ⟨0, 1, 6, false⟩), (0x66, ⟨0, 1, 7, false⟩), (0x67, ⟨0, 1, 8, false⟩),
  (0x68, ⟨0, 1, 9, false⟩), (0x69, ⟨0, 1, 10, false⟩), (0x6a, ⟨0, 1, 11, false⟩),
  (0x6b, ⟨0, 1, 12, false⟩), (0x6c, ⟨0, 1, 13, false⟩), (0x6d, ⟨0, 1, 14, false⟩),
  (0x6e, ⟨0, 1, 15, false⟩), (0x6f, ⟨0, 1, 16, false⟩), (0x70, ⟨0, 1, 17, false⟩),
  (0x71, ⟨0, 1, 18, false⟩), (0x72, ⟨0, 1, 19, false⟩), (0x73, ⟨0, 1, 20, false⟩),
  (0x74, ⟨0, 1, 21, false⟩), (0x75, ⟨0, 1, 22, false⟩), (0x76, ⟨0, 1, 23, false⟩),
  (0x77, ⟨0, 1, 24, false⟩), (0x78, ⟨0, 1, 25, false⟩), (0x79, ⟨0, 1, 26, false⟩),
  (0x7a, ⟨0, 1, 27, false⟩), (0x7b, ⟨0, 1, 28, false⟩), (0x7c, ⟨0, 1, 29, false⟩),
  (0x7d, ⟨0, 1, 30, false⟩), (0x7e, ⟨0, 1, 31, false⟩), (0x7f, ⟨0, 1, 32, false⟩),
  (0x80, ⟨1, 2, 0, false⟩), (0x81, ⟨2, 3, 0, false⟩), (0x82, ⟨3, 4, 0, false⟩),
  (0x83, ⟨4, 5, 0, false⟩), (0x84, ⟨5, 6, 0, false⟩), (0x85, ⟨6, 7, 0, false⟩),
  (0x86, ⟨7, 8, 0, false⟩), (0x87, ⟨8, 9, 0, false⟩), (0x88, ⟨9, 10, 0, false⟩),
  (0x89, ⟨10, 11, 0, false⟩), (0x8a, ⟨11, 12, 0, false⟩), (0x8b, ⟨12, 13, 0, false⟩),
  (0x8c, ⟨13, 14, 0, false⟩), (0x8d, ⟨14, 15, 0, false⟩), (0x8e, ⟨15, 16, 0, false⟩),
  (0x8f, ⟨16, 17, 0, false⟩), (0x90, ⟨2, 2, 0, false⟩), (0x91, ⟨3, 3, 0, false⟩),
  (0x92, ⟨4, 4, 0, false⟩), (0x93, ⟨5, 5, 0, false⟩), (0x94, ⟨6, 6, 0, false⟩),
  (0x95, ⟨7, 7, 0, false⟩), (0x96, ⟨8, 8, 0, false⟩), (0x97, ⟨9, 9, 0, false⟩),
  (0x98, ⟨10, 10, 0, false⟩), (0x99, ⟨11, 11, 0, false⟩), (0x9a, ⟨12, 12, 0, false⟩),
  (0x9b, ⟨13, 13, 0, false⟩), (0x9c, ⟨14, 14, 0, false⟩), (0x9d, ⟨15, 15, 0, false⟩),
  (0x9e, ⟨16, 16, 0, false⟩), (0x9f, ⟨17, 17, 0, false⟩), (0xa0, ⟨2, 0, 0, false⟩),
  (0xa1, ⟨3, 0, 0, false⟩), (0xa2, ⟨4, 0, 0, false⟩), (0xa3, ⟨5, 0, 0, false⟩),
  (0xa4, ⟨6, 0, 0, false⟩), (0xd0, ⟨1, 1, 0, false⟩), (0xd1, ⟨0, 1, 2, false⟩),
  (0xd2, ⟨0, 1, 0, false⟩), (0xd3, ⟨3, 0, 0, false⟩), (0xe0, ⟨0, 0, 2, false⟩),
  (0xe1, ⟨1, 0, 2, false⟩), (0xe2, ⟨1, 0, 0, false⟩), (0xe3, ⟨0, 0, 2, false⟩),
  (0xe4, ⟨0, 0, 0, true⟩), (0xe5, ⟨0, 0, 2, true⟩), (0xe6, ⟨0, 1, 1, false⟩),
  (0xe7, ⟨0, 0, 1, false⟩), (0xe8, ⟨0, 0, 1, false⟩), (0xec, ⟨4, 1, 1, false⟩),
  (0xee, ⟨2, 0, 1, true⟩), (0xf3, ⟨2, 0, 0, true⟩), (0xf7, ⟨1, 1, 0, false⟩),
  (0xf8, ⟨4, 1, 0, false⟩), (0xf9, ⟨3, 1, 0, false⟩), (0xfb, ⟨3, 1, 0, false⟩),
  (0xfd, ⟨2, 0, 0, true⟩), (0xfe, ⟨0, 0, 0, true⟩)]

/-- **`stackDelta`**. -/
def stackDelta (opcode : ℕ) : Option StackDelta := stackDeltas.lookup opcode

/-- **What a handler does to the stack and the program counter.** -/
inductive Handler where
  /-- Some items are popped and at most one is pushed; the counter is moved over the immediates. -/
  | values (popped : ℕ) (pushed : Bool) (immediates : ℕ)
  /-- `stack.dup`, of a position that the opcode gives. -/
  | dup (position : ℕ)
  /-- `stack.swap`. -/
  | swap (position : ℕ)
  /-- Some items are popped, and the run ends. -/
  | halt (popped immediates : ℕ)
  | rjump
  | rjumpi
  | rjumpv
  | callf
  | retf
  | jumpf
  | dupn
  | swapn
  | exchange
  deriving DecidableEq

/-- The handlers of ranges of opcodes. -/
def rangeHandler (opcode : ℕ) : Option Handler :=
  if 0x60 ≤ opcode ∧ opcode ≤ 0x7f then some (.values 0 true (opcode - 0x5f))
  else if 0x80 ≤ opcode ∧ opcode ≤ 0x8f then some (.dup (opcode - 0x7f))
  else if 0x90 ≤ opcode ∧ opcode ≤ 0x9f then some (.swap (opcode - 0x8f))
  else if 0xa0 ≤ opcode ∧ opcode ≤ 0xa4 then some (.values (2 + (opcode - 0xa0)) false 0)
  else none

/-- The handlers that pop some items and push at most one. -/
def valuesHandler (opcode : ℕ) : Option Handler :=
  -- ADD .. SMOD, EXP, SIGNEXTEND, LT .. EQ, AND .. XOR, BYTE .. SAR, KECCAK256
  if opcode ∈ [0x01, 0x02, 0x03, 0x04, 0x05, 0x06, 0x07, 0x0a, 0x0b, 0x10, 0x11, 0x12, 0x13, 0x14,
    0x16, 0x17, 0x18, 0x1a, 0x1b, 0x1c, 0x1d, 0x20] then some (.values 2 true 0)
  -- ADDMOD, MULMOD, EXTDELEGATECALL, EXTSTATICCALL
  else if opcode ∈ [0x08, 0x09, 0xf9, 0xfb] then some (.values 3 true 0)
  -- ISZERO, NOT, CLZ, BALANCE, CALLDATALOAD, BLOCKHASH, BLOBHASH, MLOAD, SLOAD, TLOAD, DATALOAD,
  -- RETURNDATALOAD
  else if opcode ∈ [0x15, 0x19, 0x1e, 0x31, 0x35, 0x40, 0x49, 0x51, 0x54, 0x5c, 0xd0, 0xf7] then
    some (.values 1 true 0)
  -- ADDRESS, ORIGIN .. CALLVALUE, CALLDATASIZE, GASPRICE, RETURNDATASIZE, COINBASE .. BASEFEE,
  -- BLOBBASEFEE, MSIZE, PUSH0, DATASIZE
  else if opcode ∈ [0x30, 0x32, 0x33, 0x34, 0x36, 0x3a, 0x3d, 0x41, 0x42, 0x43, 0x44, 0x45, 0x46,
    0x47, 0x48, 0x4a, 0x59, 0x5f, 0xd2] then some (.values 0 true 0)
  -- CALLDATACOPY, RETURNDATACOPY, MCOPY, DATACOPY
  else if opcode ∈ [0x37, 0x3e, 0x5e, 0xd3] then some (.values 3 false 0)
  -- MSTORE, MSTORE8, SSTORE, TSTORE
  else if opcode ∈ [0x52, 0x53, 0x55, 0x5d] then some (.values 2 false 0)
  else
    match opcode with
    | 0x50 => some (.values 1 false 0)
    | 0x5b => some (.values 0 false 0)
    | 0xd1 => some (.values 0 true 2)
    | 0xec => some (.values 4 true 1)
    | 0xf8 => some (.values 4 true 0)
    | _ => none

/-- The handlers that move the program counter elsewhere, end the run, or read a position. -/
def controlHandler (opcode : ℕ) : Option Handler :=
  match opcode with
  | 0x00 => some (.halt 0 0)
  | 0xe0 => some .rjump
  | 0xe1 => some .rjumpi
  | 0xe2 => some .rjumpv
  | 0xe3 => some .callf
  | 0xe4 => some .retf
  | 0xe5 => some .jumpf
  | 0xe6 => some .dupn
  | 0xe7 => some .swapn
  | 0xe8 => some .exchange
  | 0xee => some (.halt 2 1)
  | 0xf3 => some (.halt 2 0)
  | 0xfd => some (.halt 2 0)
  | 0xfe => some (.halt 0 0)
  | _ => none

/-- **The handler of an opcode**, of those that EOF code may have. -/
def handler (opcode : ℕ) : Option Handler :=
  ((rangeHandler opcode).or (valuesHandler opcode)).or (controlHandler opcode)

/-! ## Agreement -/

/-- An entry is right about a handler. -/
def StackDelta.Agrees (opcode : ℕ) (delta : StackDelta) : Handler → Prop
  | .values popped pushed immediates =>
    delta = ⟨popped, pushed.toNat, immediates, false⟩ ∧ ¬ (0xe0 ≤ opcode ∧ opcode ≤ 0xe8)
  | .dup position => delta = ⟨position, position + 1, 0, false⟩ ∧ opcode < 0xe0
  | .swap position => delta = ⟨position + 1, position + 1, 0, false⟩ ∧ opcode < 0xe0
  | .halt popped immediates =>
    delta = ⟨popped, 0, immediates, true⟩ ∧ ¬ (0xe0 ≤ opcode ∧ opcode ≤ 0xe8)
  | .rjump => opcode = 0xe0 ∧ delta = ⟨0, 0, 2, false⟩
  | .rjumpi => opcode = 0xe1 ∧ delta = ⟨1, 0, 2, false⟩
  | .rjumpv => opcode = 0xe2 ∧ delta = ⟨1, 0, 0, false⟩
  | .callf => opcode = 0xe3 ∧ delta = ⟨0, 0, 2, false⟩
  | .retf => opcode = 0xe4 ∧ delta = ⟨0, 0, 0, true⟩
  | .jumpf => opcode = 0xe5 ∧ delta = ⟨0, 0, 2, true⟩
  | .dupn => opcode = 0xe6 ∧ delta = ⟨0, 1, 1, false⟩
  | .swapn => opcode = 0xe7 ∧ delta = ⟨0, 0, 1, false⟩
  | .exchange => opcode = 0xe8 ∧ delta = ⟨0, 0, 1, false⟩

instance (opcode : ℕ) (delta : StackDelta) (handler : Handler) :
    Decidable (delta.Agrees opcode handler) :=
  match handler with
  | .values .. | .dup .. | .swap .. | .halt .. | .rjump | .rjumpi | .rjumpv | .callf | .retf
  | .jumpf | .dupn | .swapn | .exchange => inferInstanceAs (Decidable (_ ∧ _))

/-- Whether the table is right about an opcode. -/
def agreesAt (opcode : ℕ) : Bool :=
  match stackDelta opcode, handler opcode with
  | some delta, some handler => decide (delta.Agrees opcode handler)
  | some _, none => false
  | none, _ => true

theorem agreesAt_all : ∀ opcode : Fin 256, agreesAt opcode = true := by decide +kernel

/-- **The table is right about every opcode that it has**: a handler does what its entry says. -/
theorem agrees_of_stackDelta {opcode : ℕ} (hlt : opcode < 256) {delta : StackDelta}
    (hdelta : stackDelta opcode = some delta) :
    ∃ handler', handler opcode = some handler' ∧ delta.Agrees opcode handler' := by
  have hall := agreesAt_all ⟨opcode, hlt⟩
  rw [agreesAt, hdelta] at hall
  cases hhandler : handler opcode with
  | none =>
    rw [hhandler] at hall
    cases hall
  | some handler' =>
    rw [hhandler] at hall
    exact ⟨handler', rfl, of_decide_eq_true hall⟩

end Eof

end TsEthereum
