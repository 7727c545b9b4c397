import TsEthereum.Common.Bytes
import TsEthereum.Common.RadixTree.Basic
import Mathlib.Data.List.Lex

/-!
# Nibbles and the hex prefix

`util/nibbles.ts` and `util/hex.ts`: a key is read nibble by nibble, and
the path of a leaf or an extension is written back to bytes behind a prefix
that tells the two apart and makes the number of nibbles even.
-/

namespace TsEthereum

/-- Half a byte. -/
abbrev Nibble := Fin 16

/-- A key as the trie walks it. -/
abbrev Nibbles := List Nibble

def bytesToNibbles (key : Bytes) : Nibbles :=
  key.flatMap fun b => [Fin.ofNat 16 (b.toNat >>> 4), Fin.ofNat 16 (b.toNat % 16)]

/-- `nibblesTypeToPackedBytes`: pairs of nibbles; a last one alone is
dropped, as `new Uint8Array(arr.length / 2)` rounds down. -/
def nibblesTypeToPackedBytes : Nibbles → Bytes
  | q :: r :: arr => UInt8.ofNat ((q.val <<< 4) + r.val) :: nibblesTypeToPackedBytes arr
  | _ => []

def nibblesCompare : Nibbles → Nibbles → Ordering
  | [], [] => .eq
  | [], _ :: _ => .lt
  | _ :: _, [] => .gt
  | a :: n1, b :: n2 => if a < b then .lt else if b < a then .gt else nibblesCompare n1 n2

def matchingNibbleLength : Nibbles → Nibbles → ℕ
  | a :: nib1, b :: nib2 => if a = b then matchingNibbleLength nib1 nib2 + 1 else 0
  | _, _ => 0

/-- `addHexPrefix`: one nibble before an odd path, two before an even one;
a leaf's prefix is 2 more. -/
def addHexPrefix (key : Nibbles) (terminator : Bool) : Nibbles :=
  if key.length % 2 = 1 then (if terminator then 3 else 1) :: key
  else (if terminator then 2 else 0) :: 0 :: key

def removeHexPrefix (val : Nibbles) : Nibbles :=
  match val with
  | [] => []
  | n :: _ => if n.val % 2 = 1 then val.drop 1 else val.drop 2

def isTerminator (key : Nibbles) : Bool :=
  match key with
  | [] => false
  | n :: _ => 1 < n

/-! ## Packing and unpacking -/

theorem packed_nibbles (x : UInt8) :
    UInt8.ofNat (((Fin.ofNat 16 (x.toNat >>> 4)).val <<< 4) + (Fin.ofNat 16 (x.toNat % 16)).val) = x := by
  have hx := x.toNat_lt
  have hval : ((Fin.ofNat 16 (x.toNat >>> 4)).val <<< 4) + (Fin.ofNat 16 (x.toNat % 16)).val =
      x.toNat := by
    simp only [Fin.val_ofNat, Nat.shiftRight_eq_div_pow, Nat.shiftLeft_eq]
    omega
  rw [hval, UInt8.ofNat_toNat]

theorem nibbles_packed (q r : Nibble) :
    [Fin.ofNat 16 ((UInt8.ofNat ((q.val <<< 4) + r.val)).toNat >>> 4),
      Fin.ofNat 16 ((UInt8.ofNat ((q.val <<< 4) + r.val)).toNat % 16)] = [q, r] := by
  have hq := q.isLt
  have hr := r.isLt
  have hlt : (q.val <<< 4) + r.val < 256 := by
    rw [Nat.shiftLeft_eq]
    omega
  rw [toNat_ofNat hlt, Nat.shiftLeft_eq, Nat.shiftRight_eq_div_pow]
  congr 1
  · ext
    simp only [Fin.val_ofNat]
    omega
  · congr 1
    ext
    simp only [Fin.val_ofNat]
    omega

@[simp] theorem nibblesTypeToPackedBytes_bytesToNibbles (key : Bytes) :
    nibblesTypeToPackedBytes (bytesToNibbles key) = key := by
  induction key with
  | nil => rfl
  | cons x key ih =>
    rw [bytesToNibbles, List.flatMap_cons]
    change _ :: nibblesTypeToPackedBytes (bytesToNibbles key) = _
    rw [ih, packed_nibbles]

theorem bytesToNibbles_packed : ∀ {arr : Nibbles}, arr.length % 2 = 0 →
    bytesToNibbles (nibblesTypeToPackedBytes arr) = arr
  | [], _ => rfl
  | [q], h => by simp at h
  | q :: r :: arr, h => by
    have hrest : arr.length % 2 = 0 := by
      simp only [List.length_cons] at h
      omega
    have ih := bytesToNibbles_packed hrest
    rw [nibblesTypeToPackedBytes, bytesToNibbles, List.flatMap_cons, nibbles_packed]
    change [q, r] ++ bytesToNibbles (nibblesTypeToPackedBytes arr) = _
    rw [ih]
    rfl

theorem bytesToNibbles_injective : Function.Injective bytesToNibbles :=
  Function.LeftInverse.injective nibblesTypeToPackedBytes_bytesToNibbles

@[simp] theorem length_bytesToNibbles (key : Bytes) :
    (bytesToNibbles key).length = 2 * key.length := by
  induction key with
  | nil => rfl
  | cons x key ih =>
    rw [bytesToNibbles, List.flatMap_cons, List.length_append]
    change 2 + (bytesToNibbles key).length = _
    rw [ih, List.length_cons]
    omega

/-! ## The hex prefix -/

theorem length_addHexPrefix_even (key : Nibbles) (terminator : Bool) :
    (addHexPrefix key terminator).length % 2 = 0 := by
  unfold addHexPrefix
  split
  · simp only [List.length_cons]
    omega
  · simp only [List.length_cons]
    omega

@[simp] theorem removeHexPrefix_addHexPrefix (key : Nibbles) (terminator : Bool) :
    removeHexPrefix (addHexPrefix key terminator) = key := by
  unfold addHexPrefix
  split <;> cases terminator <;> rfl

@[simp] theorem isTerminator_addHexPrefix (key : Nibbles) (terminator : Bool) :
    isTerminator (addHexPrefix key terminator) = terminator := by
  unfold addHexPrefix
  split <;> cases terminator <;> rfl

@[simp] theorem bytesToNibbles_packed_addHexPrefix (key : Nibbles) (terminator : Bool) :
    bytesToNibbles (nibblesTypeToPackedBytes (addHexPrefix key terminator)) =
      addHexPrefix key terminator :=
  bytesToNibbles_packed (length_addHexPrefix_even key terminator)

/-! ## Comparing -/

/-- **The matching length is how much of the first path the parting leaves
behind.** -/
theorem matchingNibbleLength_eq (nib1 nib2 : Nibbles) :
    matchingNibbleLength nib1 nib2 = (divide nib1 nib2).1.length := by
  fun_induction divide nib1 nib2 with
  | case1 nib1 a nib2 m p' k' h ih =>
    rw [matchingNibbleLength, if_pos rfl, ih, h]
    rfl
  | case2 a nib1 b nib2 hab => rw [matchingNibbleLength, if_neg hab]; rfl
  | case3 nib1 nib2 h =>
    unfold matchingNibbleLength
    split
    · next a nib1 b nib2 => exact absurd rfl (h a nib1 b nib2 rfl)
    · rfl

@[simp] theorem take_matchingNibbleLength (nib1 nib2 : Nibbles) :
    nib1.take (matchingNibbleLength nib1 nib2) = (divide nib1 nib2).1 := by
  rw [matchingNibbleLength_eq]
  have h : ((divide nib1 nib2).1 ++ (divide nib1 nib2).2.1).take (divide nib1 nib2).1.length =
      (divide nib1 nib2).1 := List.take_left
  rwa [← (divide_spec nib1 nib2).1] at h

@[simp] theorem drop_matchingNibbleLength_left (nib1 nib2 : Nibbles) :
    nib1.drop (matchingNibbleLength nib1 nib2) = (divide nib1 nib2).2.1 := by
  rw [matchingNibbleLength_eq]
  have h : ((divide nib1 nib2).1 ++ (divide nib1 nib2).2.1).drop (divide nib1 nib2).1.length =
      (divide nib1 nib2).2.1 := List.drop_left
  rwa [← (divide_spec nib1 nib2).1] at h

@[simp] theorem drop_matchingNibbleLength_right (nib1 nib2 : Nibbles) :
    nib2.drop (matchingNibbleLength nib1 nib2) = (divide nib1 nib2).2.2 := by
  rw [matchingNibbleLength_eq]
  have h : ((divide nib1 nib2).1 ++ (divide nib1 nib2).2.2).drop (divide nib1 nib2).1.length =
      (divide nib1 nib2).2.2 := List.drop_left
  rwa [← (divide_spec nib1 nib2).2.1] at h

/-! ## Comparing -/

theorem nibblesCompare_cases (n1 n2 : Nibbles) :
    (nibblesCompare n1 n2 = .lt ∧ n1 < n2) ∨ (nibblesCompare n1 n2 = .eq ∧ n1 = n2) ∨
      (nibblesCompare n1 n2 = .gt ∧ n2 < n1) := by
  fun_induction nibblesCompare n1 n2 with
  | case1 => exact .inr (.inl ⟨rfl, rfl⟩)
  | case2 b n2 => exact .inl ⟨rfl, List.nil_lt_cons b n2⟩
  | case3 a n1 => exact .inr (.inr ⟨rfl, List.nil_lt_cons a n1⟩)
  | case4 a n1 b n2 hab => exact .inl ⟨rfl, List.cons_lt_cons_iff.2 (.inl hab)⟩
  | case5 a n1 b n2 hab hba => exact .inr (.inr ⟨rfl, List.cons_lt_cons_iff.2 (.inl hba)⟩)
  | case6 a n1 b n2 hab hba ih =>
    obtain rfl : a = b := le_antisymm (not_lt.1 hba) (not_lt.1 hab)
    rcases ih with ⟨h, hlt⟩ | ⟨h, rfl⟩ | ⟨h, hlt⟩
    · exact .inl ⟨h, List.cons_lt_cons_iff.2 (.inr ⟨rfl, hlt⟩)⟩
    · exact .inr (.inl ⟨h, rfl⟩)
    · exact .inr (.inr ⟨h, List.cons_lt_cons_iff.2 (.inr ⟨rfl, hlt⟩)⟩)

theorem nibblesCompare_eq_eq {n1 n2 : Nibbles} : nibblesCompare n1 n2 = .eq ↔ n1 = n2 := by
  rcases nibblesCompare_cases n1 n2 with ⟨h, hlt⟩ | ⟨h, rfl⟩ | ⟨h, hlt⟩
  · simp [h, hlt.ne]
  · simp [h]
  · simp [h, hlt.ne']

theorem nibblesCompare_eq_gt {n1 n2 : Nibbles} : nibblesCompare n1 n2 = .gt ↔ n2 < n1 := by
  rcases nibblesCompare_cases n1 n2 with ⟨h, hlt⟩ | ⟨h, rfl⟩ | ⟨h, hlt⟩
  · simp [h, hlt.le]
  · simp [h]
  · exact iff_of_true h hlt

end TsEthereum
