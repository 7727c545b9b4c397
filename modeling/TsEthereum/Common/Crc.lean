import TsEthereum.Common.Bytes

/-!
# CRC-32

The checksum bit by bit (`crcChecksum`), and with a table of a word for each byte: shifting is linear
(`crcShift_xor`), so eight shifts of a word are those of its low byte and its other bytes moved
down (`crcShifts_eight`), and a table of the former is all that is needed
(`crcByte_eq_table`).
-/

namespace TsEthereum

/-- A shift of the remainder, by the reversed polynomial. -/
def crcShift (c : BitVec 32) : BitVec 32 :=
  if c.getLsbD 0 then (c >>> 1) ^^^ 0xedb88320#32 else c >>> 1

/-- Several shifts. -/
def crcShifts : ℕ → BitVec 32 → BitVec 32
  | 0, c => c
  | n + 1, c => crcShift (crcShifts n c)

/-- A byte is taken up. -/
def crcByte (c : BitVec 32) (b : UInt8) : BitVec 32 := crcShifts 8 (c ^^^ BitVec.ofNat 32 b.toNat)

/-- **CRC-32.** -/
def crcChecksum (bytes : Bytes) : BitVec 32 :=
  bytes.foldl crcByte (BitVec.allOnes 32) ^^^ BitVec.allOnes 32

theorem crcShift_xor (a b : BitVec 32) : crcShift (a ^^^ b) = crcShift a ^^^ crcShift b := by
  unfold crcShift
  rw [BitVec.getLsbD_xor, BitVec.ushiftRight_xor_distrib]
  cases a.getLsbD 0 with
  | false => cases b.getLsbD 0 with
    | false => rfl
    | true =>
      simp only [Bool.false_bne, if_true, Bool.false_eq_true, if_false, BitVec.xor_assoc]
  | true => cases b.getLsbD 0 with
    | false =>
      simp only [Bool.bne_false, if_true, Bool.false_eq_true, if_false]
      ac_rfl
    | true =>
      simp only [bne_self_eq_false, if_true, Bool.false_eq_true, if_false]
      rw [BitVec.xor_comm (b >>> 1), BitVec.xor_assoc, ← BitVec.xor_assoc 0xedb88320#32,
        BitVec.xor_self, BitVec.zero_xor]

theorem crcShifts_xor (n : ℕ) (a b : BitVec 32) :
    crcShifts n (a ^^^ b) = crcShifts n a ^^^ crcShifts n b := by
  induction n with
  | zero => rfl
  | succ n ih => simp only [crcShifts, ih, crcShift_xor]

theorem crcShifts_of_low {c : BitVec 32} {n : ℕ} (h : ∀ i < n, c.getLsbD i = false) :
    crcShifts n c = c >>> n := by
  induction n with
  | zero => rw [crcShifts, BitVec.ushiftRight_zero]
  | succ n ih =>
    have hlow : (c >>> n).getLsbD 0 = false := by
      rw [BitVec.getLsbD_ushiftRight, Nat.add_zero]
      exact h n (Nat.lt_succ_self n)
    rw [crcShifts, ih fun i hi => h i (by omega), crcShift, hlow, if_neg (by decide),
      ← BitVec.shiftRight_add]

theorem eq_low_xor_rest (c : BitVec 32) : c = (c &&& 0xff#32) ^^^ (c &&& ~~~0xff#32) := by
  apply BitVec.eq_of_getLsbD_eq
  intro i hi
  simp only [BitVec.getLsbD_xor, BitVec.getLsbD_and, BitVec.getLsbD_not, hi, decide_true,
    Bool.true_and]
  cases c.getLsbD i <;> cases (0xff#32).getLsbD i <;> rfl

theorem getLsbD_low (i : ℕ) : (0xff#32).getLsbD i = decide (i < 8) := by
  rw [BitVec.getLsbD_ofNat, show (255 : ℕ) = 2 ^ 8 - 1 from rfl, Nat.testBit_two_pow_sub_one]
  by_cases h : i < 8
  · simp [h, show i < 32 by omega]
  · simp [h]

theorem crcShifts_eight (c : BitVec 32) :
    crcShifts 8 c = crcShifts 8 (c &&& 0xff#32) ^^^ (c >>> 8) := by
  have hlow : ∀ i < 8, (c &&& ~~~0xff#32).getLsbD i = false := by
    intro i hi
    rw [BitVec.getLsbD_and, BitVec.getLsbD_not, getLsbD_low]
    simp [hi]
  have hrest : (c &&& ~~~0xff#32) >>> 8 = c >>> 8 := by
    apply BitVec.eq_of_getLsbD_eq
    intro i hi
    rw [BitVec.getLsbD_ushiftRight, BitVec.getLsbD_ushiftRight, BitVec.getLsbD_and,
      BitVec.getLsbD_not, getLsbD_low]
    by_cases h : 8 + i < 32
    · simp [h]
    · rw [BitVec.getLsbD_of_ge c (8 + i) (by omega), Bool.false_and]
  conv_lhs => rw [eq_low_xor_rest c]
  rw [crcShifts_xor, crcShifts_of_low hlow, hrest]

theorem crcByte_eq_table {table : ℕ → BitVec 32}
    (htable : ∀ i < 256, table i = crcShifts 8 (BitVec.ofNat 32 i)) (c : BitVec 32) (b : UInt8) :
    crcByte c b = table ((c ^^^ BitVec.ofNat 32 b.toNat) &&& 0xff#32).toNat ^^^ (c >>> 8) := by
  have hlt : ((c ^^^ BitVec.ofNat 32 b.toNat) &&& 0xff#32).toNat < 256 := by
    rw [BitVec.toNat_and]
    exact lt_of_le_of_lt Nat.and_le_right (by decide)
  have hbyte : BitVec.ofNat 32 b.toNat >>> 8 = 0#32 := by
    apply BitVec.eq_of_toNat_eq
    have hb := b.toNat_lt
    rw [BitVec.toNat_ushiftRight, BitVec.toNat_ofNat, Nat.shiftRight_eq_div_pow]
    simp only [BitVec.toNat_ofNat, Nat.zero_mod]
    omega
  rw [crcByte, crcShifts_eight, htable _ hlt, BitVec.ofNat_toNat, BitVec.setWidth_eq,
    BitVec.ushiftRight_xor_distrib, hbyte, BitVec.xor_zero]

end TsEthereum
