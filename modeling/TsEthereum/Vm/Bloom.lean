import TsEthereum.Common.Bytes
import Mathlib.Data.Nat.Bitwise

/-!
# Bloom filters

A bloom has three bits for each element, at places the element's digest says.
However it was built, by adding elements and by `or`, its bits are those of the
elements (`bit_bloom`): it finds all of them, and does not tell their order.
-/

namespace TsEthereum

/-- `BYTE_SIZE`. -/
def BYTE_SIZE : ℕ := 256

/-- **`Bloom`.** -/
structure Bloom where
  bitvector : Bytes
  length : bitvector.length = BYTE_SIZE

namespace Bloom

variable (keccakFunction : Bytes → Bytes)

/-- `new Bloom()`. -/
def new : Bloom := ⟨List.replicate BYTE_SIZE 0, List.length_replicate⟩

/-- `mask & first2bytes`, for the two bytes at a place of the digest. -/
def loc (e : Bytes) (i : ℕ) : ℕ :=
  2047 &&& ((keccakFunction e).getD (i * 2) 0).toNat * 256 +
    ((keccakFunction e).getD (i * 2 + 1) 0).toNat

/-- `BYTE_SIZE - byteLoc - 1`. -/
def byteAt (loc : ℕ) : ℕ := BYTE_SIZE - loc / 8 - 1

/-- `bitvector[i] |= bits`, of which nothing is stored past the end. -/
def orAt (b : Bloom) (i bits : ℕ) : Bloom where
  bitvector := b.bitvector.set i (UInt8.ofNat ((b.bitvector.getD i 0).toNat ||| bits))
  length := by rw [List.length_set, b.length]

/-- `add`. -/
def add (b : Bloom) (e : Bytes) : Bloom :=
  (List.range 3).foldl
    (fun b i => b.orAt (byteAt (loc keccakFunction e i)) (1 <<< (loc keccakFunction e i % 8))) b

/-- `check`. -/
def check (b : Bloom) (e : Bytes) : Bool :=
  (List.range 3).all fun i =>
    (b.bitvector.getD (byteAt (loc keccakFunction e i)) 0).toNat &&&
      (1 <<< (loc keccakFunction e i % 8)) != 0

/-- `or`, which goes one past the end. -/
def or (b bloom : Bloom) : Bloom :=
  (List.range (BYTE_SIZE + 1)).foldl (fun b i => b.orAt i (bloom.bitvector.getD i 0).toNat) b

/-- The bit at a location is set. -/
def Bit (b : Bloom) (loc : ℕ) : Prop := (b.bitvector.getD (byteAt loc) 0).toNat.testBit (loc % 8)

variable {keccakFunction} {b b' : Bloom} {e : Bytes} {i j k l : ℕ}

theorem testBit_orAt (h : l < 2 ^ 8) (hi : i < BYTE_SIZE) :
    ((b.orAt j l).bitvector.getD i 0).toNat.testBit k ↔
      (b.bitvector.getD i 0).toNat.testBit k ∨ i = j ∧ l.testBit k := by
  rw [List.getD_eq_getElem?_getD, orAt, List.getElem?_set]
  by_cases hij : j = i
  · subst hij
    rw [if_pos rfl, if_pos (by rw [b.length]; exact hi), Option.getD_some, UInt8.toNat_ofNat',
      Nat.mod_eq_of_lt (Nat.or_lt_two_pow (UInt8.toNat_lt _) h), Nat.testBit_or, Bool.or_eq_true]
    simp only [true_and]
  · rw [if_neg hij, ← List.getD_eq_getElem?_getD]
    simp only [Ne.symm hij, false_and, or_false]

theorem loc_lt : loc keccakFunction e i < 2048 :=
  lt_of_le_of_lt Nat.and_le_left (by decide)

theorem byteAt_lt : byteAt l < BYTE_SIZE := by
  unfold byteAt BYTE_SIZE
  omega

theorem bit_orAt (hl : l < 2048) (hk : k < 2048) :
    (b.orAt (byteAt l) (1 <<< (l % 8))).Bit k ↔ b.Bit k ∨ k = l := by
  have hlt : 1 <<< (l % 8) < 2 ^ 8 := by
    rw [Nat.one_shiftLeft]
    exact Nat.pow_lt_pow_right (by decide) (Nat.mod_lt _ (by decide))
  unfold Bit
  rw [testBit_orAt hlt byteAt_lt, Nat.one_shiftLeft, Nat.testBit_two_pow, decide_eq_true_iff]
  refine or_congr_right ?_
  unfold byteAt BYTE_SIZE
  omega

theorem bit_add (hk : k < 2048) :
    (b.add keccakFunction e).Bit k ↔ b.Bit k ∨ ∃ i < 3, k = loc keccakFunction e i := by
  have hloop (n : ℕ) : ((List.range n).foldl (fun b i =>
      b.orAt (byteAt (loc keccakFunction e i)) (1 <<< (loc keccakFunction e i % 8))) b).Bit k ↔
        b.Bit k ∨ ∃ i < n, k = loc keccakFunction e i := by
    induction n with
    | zero => simp
    | succ n ih =>
      rw [List.range_succ, List.foldl_concat, bit_orAt loc_lt hk, ih]
      simp only [Nat.lt_succ_iff_lt_or_eq, or_and_right, exists_or, exists_eq_left, or_assoc]
  exact hloop 3

theorem bit_or : (b.or b').Bit k ↔ b.Bit k ∨ b'.Bit k := by
  have hloop (n i : ℕ) (hi : i < BYTE_SIZE) : (((List.range n).foldl (fun b i =>
      b.orAt i (b'.bitvector.getD i 0).toNat) b).bitvector.getD i 0).toNat.testBit (k % 8) ↔
        (b.bitvector.getD i 0).toNat.testBit (k % 8) ∨
          i < n ∧ (b'.bitvector.getD i 0).toNat.testBit (k % 8) := by
    induction n with
    | zero => simp
    | succ n ih =>
      rw [List.range_succ, List.foldl_concat, testBit_orAt (UInt8.toNat_lt _) hi, ih, or_assoc,
        Nat.lt_succ_iff_lt_or_eq, or_and_right]
      by_cases hin : i = n
      · rw [hin]
      · simp only [hin, false_and]
  -- the one turn past the end stores nothing
  have hlt : byteAt k < BYTE_SIZE + 1 := byteAt_lt.trans (Nat.lt_succ_self _)
  unfold or Bit
  rw [hloop _ _ byteAt_lt]
  simp only [hlt, true_and]

theorem check_iff : b.check keccakFunction e = true ↔
    ∀ i < 3, b.Bit (loc keccakFunction e i) := by
  unfold check Bit
  simp [List.all_eq_true, Nat.one_shiftLeft, Nat.and_two_pow]

/-- The bits are all there is. -/
theorem ext_bit (h : ∀ k < 2048, b.Bit k ↔ b'.Bit k) : b = b' := by
  have hbytes : b.bitvector = b'.bitvector := by
    refine List.ext_getElem (b.length.trans b'.length.symm) fun i hi hi' => ?_
    refine UInt8.toNat_inj.1 (Nat.eq_of_testBit_eq fun k => ?_)
    have hlt : i < 256 := hi.trans_eq b.length
    -- byte `i` has the bits from `(255 - i) * 8` on
    rcases Nat.lt_or_ge k 8 with hk | hk
    · have hbit := h ((255 - i) * 8 + k) (by omega)
      have hbyte : byteAt ((255 - i) * 8 + k) = i := by
        unfold byteAt BYTE_SIZE
        omega
      have hmod : ((255 - i) * 8 + k) % 8 = k := by omega
      rw [Bit, Bit, hbyte, hmod, List.getD_eq_getElem?_getD, List.getD_eq_getElem?_getD,
        List.getElem?_eq_getElem hi, List.getElem?_eq_getElem hi'] at hbit
      exact Bool.eq_iff_iff.2 hbit
    · have hbig (x : UInt8) : x.toNat.testBit k = false :=
        Nat.testBit_lt_two_pow ((UInt8.toNat_lt x).trans_le (Nat.pow_le_pow_right (by decide) hk))
      rw [hbig, hbig]
  cases b
  cases b'
  cases hbytes
  rfl

/-- **How a bloom is built.** -/
inductive Building
  | new
  | add (b : Building) (e : Bytes)
  | or (b bloom : Building)

namespace Building

/-- What was added. -/
def elements : Building → List Bytes
  | new => []
  | add b e => e :: b.elements
  | or b bloom => b.elements ++ bloom.elements

/-- The bloom that is built. -/
def bloom (keccakFunction : Bytes → Bytes) : Building → Bloom
  | new => Bloom.new
  | add b e => (b.bloom keccakFunction).add keccakFunction e
  | or b bloom => (b.bloom keccakFunction).or (bloom.bloom keccakFunction)

end Building

variable {t t' : Building}

/-- **The bits of a bloom are those of its elements.** -/
theorem bit_bloom (hk : k < 2048) : (t.bloom keccakFunction).Bit k ↔
    ∃ e ∈ t.elements, ∃ i < 3, k = loc keccakFunction e i := by
  induction t with
  | new =>
    have hzero : (List.replicate BYTE_SIZE (0 : UInt8)).getD (byteAt k) 0 = 0 := by
      rw [List.getD_eq_getElem?_getD, List.getElem?_replicate]
      split <;> rfl
    rw [Building.bloom, Bit, Bloom.new, hzero]
    simp [Building.elements]
  | add t e ih =>
    rw [Building.bloom, bit_add hk, ih, Building.elements, or_comm]
    simp only [List.mem_cons, or_and_right, exists_or, exists_eq_left]
  | or t t' ih ih' =>
    rw [Building.bloom, bit_or, ih, ih', Building.elements]
    simp only [List.mem_append, or_and_right, exists_or]

/-- **What a bloom finds**: what has all its bits among those of the elements,
and so each element; and blooms of the same elements are the same. -/
theorem check_bloom_iff (keccakFunction : Bytes → Bytes) (t : Building) :
    (∀ e, (t.bloom keccakFunction).check keccakFunction e = true ↔ ∀ i < 3,
      ∃ e' ∈ t.elements, ∃ i' < 3, loc keccakFunction e i = loc keccakFunction e' i') ∧
    (∀ e ∈ t.elements, (t.bloom keccakFunction).check keccakFunction e = true) ∧
    ∀ t' : Building, (∀ e, e ∈ t.elements ↔ e ∈ t'.elements) →
      t.bloom keccakFunction = t'.bloom keccakFunction := by
  have hfinds (e : Bytes) : (t.bloom keccakFunction).check keccakFunction e = true ↔ ∀ i < 3,
      ∃ e' ∈ t.elements, ∃ i' < 3, loc keccakFunction e i = loc keccakFunction e' i' :=
    check_iff.trans (forall₂_congr fun i _ => bit_bloom loc_lt)
  refine ⟨hfinds, fun e he => (hfinds e).2 fun i hi => ⟨e, he, i, hi, rfl⟩, fun t' hsame => ?_⟩
  refine ext_bit fun k hk => ?_
  rw [bit_bloom hk, bit_bloom hk]
  exact exists_congr fun e => and_congr_left' (hsame e)

end Bloom

end TsEthereum
