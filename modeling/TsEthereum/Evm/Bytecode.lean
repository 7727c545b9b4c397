import TsEthereum.Common.Bytes
import Mathlib.Order.Monotone.Basic
import Mathlib.Order.Monotone.Defs

/-!
# Where instructions start

An instruction is an opcode and, after a PUSH, the bytes it pushes. The starts
of the instructions of a code are read off from the left (`boundary`), so the
bytes that are pushed are none (`not_isBoundary_of_lt_next`).
-/

namespace TsEthereum.Evm

/-- How many bytes follow an opcode. -/
def pushSize (opcode : UInt8) : ℕ :=
  if 0x60 ≤ opcode ∧ opcode ≤ 0x7f then opcode.toNat - 0x5f else 0

variable (code : Bytes)

/-- Where the next instruction starts. -/
def nextInstruction (i : ℕ) : ℕ := i + 1 + (code[i]?.map pushSize).getD 0

/-- **The start of the `n`-th instruction.** -/
def boundary : ℕ → ℕ
  | 0 => 0
  | n + 1 => nextInstruction code (boundary n)

/-- **An instruction starts here**, or the code has ended. -/
def IsBoundary (i : ℕ) : Prop := ∃ n, boundary code n = i

def subarray (bytes : Bytes) (start stop : ℕ) : Bytes := (bytes.drop start).take (stop - start)

def setLengthRight (bytes : Bytes) (length : ℕ) : Bytes :=
  if bytes.length < length then bytes ++ List.replicate (length - bytes.length) 0
  else subarray bytes 0 length

variable {code} {i j n : ℕ} {opcode : UInt8}

theorem nextInstruction_of_getElem? (h : code[i]? = some opcode) :
    nextInstruction code i = i + 1 + pushSize opcode := by
  rw [nextInstruction, h]
  rfl

theorem lt_nextInstruction (code : Bytes) (i : ℕ) : i < nextInstruction code i := by
  rw [nextInstruction]
  omega

theorem boundary_strictMono (code : Bytes) : StrictMono (boundary code) :=
  strictMono_nat_of_lt_succ fun n => lt_nextInstruction code (boundary code n)

theorem isBoundary_zero (code : Bytes) : IsBoundary code 0 := ⟨0, rfl⟩

theorem IsBoundary.next (h : IsBoundary code i) : IsBoundary code (nextInstruction code i) := by
  obtain ⟨n, rfl⟩ := h
  exact ⟨n + 1, rfl⟩

theorem not_isBoundary_of_lt_next (h : IsBoundary code i) (hij : i < j)
    (hj : j < nextInstruction code i) : ¬ IsBoundary code j := by
  obtain ⟨n, rfl⟩ := h
  rintro ⟨m, rfl⟩
  have hn : n < m := (boundary_strictMono code).lt_iff_lt.1 hij
  have hm : m < n + 1 := (boundary_strictMono code).lt_iff_lt.1 hj
  omega

theorem boundary_ge (code : Bytes) (n : ℕ) : n ≤ boundary code n :=
  (boundary_strictMono code).le_apply

/-- Starts are found among those of the first instructions. -/
instance : DecidablePred (IsBoundary code) := fun i =>
  decidable_of_iff (∃ n < i + 1, boundary code n = i) <| by
    constructor
    · rintro ⟨n, -, h⟩
      exact ⟨n, h⟩
    · rintro ⟨n, rfl⟩
      exact ⟨n, Nat.lt_succ_of_le (boundary_ge code n), rfl⟩

/-- Five starts: two pushes, the second of which is cut off. -/
example : ((List.range 6).filter fun i => IsBoundary [0x61, 0x5b, 0x5b, 0x5b, 0x62, 0x5b] i) =
    [0, 3, 4] := by
  decide

end TsEthereum.Evm
