import Mathlib.Algebra.BigOperators.Group.List.Basic
import Mathlib.Data.Nat.Notation

/-!
# The cost of memory

Memory is charged as it grows: `subMemUsage` returns by how much the cost of all words
exceeds what was charged so far. Its two counters stay together (`Charged`), and so the
charges of a frame add up to the cost of its last size (`sum_subMemUsage`), however the
accesses are ordered or split.
-/

namespace TsEthereum.Evm

/-- `memoryGas`, which only the parameters of the first hardfork set. -/
def memoryGas : ℕ := 3

def quadCoefficientDivGas : ℕ := 512

/-- **`divCeil`**, of numbers that are not negative. -/
def divCeil (a b : ℕ) : ℕ :=
  let div := a / b
  let modulus := a % b
  if modulus = 0 then div else div + 1

/-- What a `RunState` holds of memory. -/
structure MemoryUsage where
  memoryWordCount : ℕ
  highestMemCost : ℕ
  deriving DecidableEq

/-- An access: its offset, and its length. -/
structure MemoryAccess where
  offset : ℕ
  length : ℕ

namespace MemoryUsage

/-- The memory of a frame when it begins. -/
def new : MemoryUsage := ⟨0, 0⟩

/-- The cost of so many words. -/
def cost (words : ℕ) : ℕ := words * memoryGas + words * words / quadCoefficientDivGas

/-- The words an access reaches. -/
def words (access : MemoryAccess) : ℕ := divCeil (access.offset + access.length) 32

/-- **`subMemUsage`**, with what it returns. -/
def subMemUsage (s : MemoryUsage) (access : MemoryAccess) : ℕ × MemoryUsage :=
  if access.length = 0 then (0, s)
  else
    let newMemoryWordCount := words access
    if newMemoryWordCount ≤ s.memoryWordCount then (0, s)
    else
      let cost := cost newMemoryWordCount
      if s.highestMemCost < cost then
        (cost - s.highestMemCost, ⟨newMemoryWordCount, cost⟩)
      else (cost, { s with memoryWordCount := newMemoryWordCount })

/-- **The accesses of a frame**: what is returned for them together, and the memory then. -/
def charge : MemoryUsage → List MemoryAccess → ℕ × MemoryUsage
  | s, [] => (0, s)
  | s, access :: accesses =>
    let (cost, s) := s.subMemUsage access
    let (costs, s) := charge s accesses
    (cost + costs, s)

/-- The most words any of the accesses reaches. -/
def mostWords (accesses : List MemoryAccess) : ℕ := (accesses.map words).foldl max 0

/-- The accesses that touch something. -/
def touching (accesses : List MemoryAccess) : List MemoryAccess :=
  accesses.filter fun access => access.length ≠ 0

theorem cost_lt_cost {n m : ℕ} (h : n < m) : cost n < cost m := by
  have hlinear : n * memoryGas < m * memoryGas := Nat.mul_lt_mul_of_pos_right h (by decide)
  have hsquare : n * n / quadCoefficientDivGas ≤ m * m / quadCoefficientDivGas :=
    Nat.div_le_div_right (Nat.mul_le_mul (Nat.le_of_lt h) (Nat.le_of_lt h))
  exact Nat.add_lt_add_of_lt_of_le hlinear hsquare

/-- **What is charged is the cost of the words there are.** -/
def Charged (s : MemoryUsage) : Prop := s.highestMemCost = cost s.memoryWordCount

theorem Charged.subMemUsage {s : MemoryUsage} (h : s.Charged) (access : MemoryAccess) :
    (s.subMemUsage access).2.Charged ∧
      s.highestMemCost + (s.subMemUsage access).1 = (s.subMemUsage access).2.highestMemCost ∧
      (s.subMemUsage access).2.memoryWordCount =
        if access.length = 0 then s.memoryWordCount else max s.memoryWordCount (words access) := by
  rw [MemoryUsage.subMemUsage]
  by_cases hlength : access.length = 0
  · rw [if_pos hlength, if_pos hlength]
    exact ⟨h, rfl, rfl⟩
  rw [if_neg hlength, if_neg hlength]
  by_cases hwords : words access ≤ s.memoryWordCount
  · dsimp only
    rw [if_pos hwords]
    exact ⟨h, rfl, (Nat.max_eq_left hwords).symm⟩
  · have hmore : s.memoryWordCount < words access := Nat.lt_of_not_le hwords
    have hcost : s.highestMemCost < cost (words access) := h ▸ cost_lt_cost hmore
    dsimp only
    rw [if_neg hwords, if_pos hcost]
    refine ⟨rfl, ?_, (Nat.max_eq_right (Nat.le_of_lt hmore)).symm⟩
    dsimp only
    omega

theorem Charged.charge {s : MemoryUsage} (h : s.Charged) (accesses : List MemoryAccess) :
    (s.charge accesses).2.Charged ∧
      s.highestMemCost + (s.charge accesses).1 = (s.charge accesses).2.highestMemCost ∧
      (s.charge accesses).2.memoryWordCount =
        ((touching accesses).map words).foldl max s.memoryWordCount := by
  induction accesses generalizing s with
  | nil => exact ⟨h, rfl, rfl⟩
  | cons access accesses ih =>
    obtain ⟨hcharged, hcost, hwords⟩ := h.subMemUsage access
    obtain ⟨hlast, hcosts, hmost⟩ := ih hcharged
    refine ⟨hlast, ?_, ?_⟩
    · change s.highestMemCost + ((s.subMemUsage access).1 +
        ((s.subMemUsage access).2.charge accesses).1) = _
      rw [← Nat.add_assoc, hcost]
      exact hcosts
    · refine hmost.trans ?_
      rw [hwords]
      by_cases hlength : access.length = 0
      · rw [if_pos hlength, touching, touching, List.filter_cons_of_neg (by simp [hlength])]
      · rw [if_neg hlength, touching, touching, List.filter_cons_of_pos (by simp [hlength])]
        rfl

/-- **The charges of a frame add up to the cost of its last size**, and that is the most words an
access reaches that touches something. -/
theorem sum_subMemUsage (accesses : List MemoryAccess) :
    (new.charge accesses).1 = cost (new.charge accesses).2.memoryWordCount ∧
      (new.charge accesses).2.memoryWordCount = mostWords (touching accesses) := by
  obtain ⟨hcharged, hcost, hwords⟩ := Charged.charge (s := new) rfl accesses
  refine ⟨?_, hwords⟩
  rw [← hcharged, ← hcost]
  exact (Nat.zero_add _).symm

/-- An access of length zero reaches nothing, wherever it is. -/
theorem sum_subMemUsage_empty :
    ¬ ∀ accesses, (new.charge accesses).1 = cost (mostWords accesses) := by
  intro h
  exact absurd (h [⟨32, 0⟩]) (by decide)

end MemoryUsage

end TsEthereum.Evm
