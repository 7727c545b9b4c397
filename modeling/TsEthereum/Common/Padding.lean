import TsEthereum.Common.Bytes

/-!
# Byte strings of a set length

`setLengthLeft` makes a byte string as long as it is told to, with zeros in front
or by leaving out what is in front. So of a number's bytes it keeps the number
modulo a power of 256 (`setLengthLeft_bigEndian_eq_iff`), and two numbers that
are equal modulo it cannot be told apart.
-/

namespace TsEthereum

/-- **`setLengthLeft`**: padded with leading zeros, or cut at the front. -/
def setLengthLeft (msg : Bytes) (length : ℕ) : Bytes :=
  if msg.length < length then List.replicate (length - msg.length) 0 ++ msg
  else msg.drop (msg.length - length)

theorem toNat_lt_of_mem_reverse {b : Bytes} : ∀ d ∈ b.reverse.map UInt8.toNat, d < 256 := by
  intro d hd
  obtain ⟨x, -, rfl⟩ := List.mem_map.1 hd
  exact x.toNat_lt

theorem ofBigEndian_replicate_append (n : ℕ) (b : Bytes) :
    ofBigEndian (List.replicate n 0 ++ b) = ofBigEndian b := by
  rw [ofBigEndian, ofBigEndian, List.reverse_append, List.map_append, List.reverse_replicate,
    List.map_replicate, UInt8.toNat_zero, Nat.ofDigits_append_replicate_zero]

theorem eq_of_ofBigEndian_eq {a b : Bytes} (hlen : a.length = b.length)
    (h : ofBigEndian a = ofBigEndian b) : a = b := by
  have hdigits := Nat.ofDigits_inj_of_len_eq (by omega) (by simpa using hlen)
    toNat_lt_of_mem_reverse toNat_lt_of_mem_reverse h
  exact List.reverse_injective (List.map_injective_iff.2 (fun _ _ => UInt8.toNat_inj.1) hdigits)

theorem ofBigEndian_lt (b : Bytes) : ofBigEndian b < 256 ^ b.length := by
  have h := Nat.ofDigits_lt_base_pow_length (by omega) (toNat_lt_of_mem_reverse (b := b))
  rwa [List.length_map, List.length_reverse] at h

@[simp] theorem length_setLengthLeft (b : Bytes) (length : ℕ) :
    (setLengthLeft b length).length = length := by
  unfold setLengthLeft
  split
  · rw [List.length_append, List.length_replicate]
    omega
  · rw [List.length_drop]
    omega

theorem ofBigEndian_setLengthLeft (b : Bytes) (length : ℕ) :
    ofBigEndian (setLengthLeft b length) = ofBigEndian b % 256 ^ length := by
  unfold setLengthLeft
  split
  · rename_i hlt
    rw [ofBigEndian_replicate_append, Nat.mod_eq_of_lt]
    exact (ofBigEndian_lt b).trans_le (Nat.pow_le_pow_right (by omega) hlt.le)
  · rw [ofBigEndian, ofBigEndian, Nat.ofDigits_mod_pow_eq_ofDigits_take _ (by omega) _
      toNat_lt_of_mem_reverse, List.reverse_drop, List.map_take]
    congr 2
    omega

theorem ofBigEndian_setLengthLeft_of_le {b : Bytes} {length : ℕ} (h : b.length ≤ length) :
    ofBigEndian (setLengthLeft b length) = ofBigEndian b := by
  rw [ofBigEndian_setLengthLeft, Nat.mod_eq_of_lt]
  exact (ofBigEndian_lt b).trans_le (Nat.pow_le_pow_right (by omega) h)

/-- **Two numbers' bytes are made the same ones** when the numbers are equal modulo
the power of the length. -/
theorem setLengthLeft_bigEndian_eq_iff {n m length : ℕ} :
    setLengthLeft (bigEndian n) length = setLengthLeft (bigEndian m) length ↔
      n % 256 ^ length = m % 256 ^ length := by
  have hread : ∀ n : ℕ, ofBigEndian (setLengthLeft (bigEndian n) length) = n % 256 ^ length := by
    intro n
    rw [ofBigEndian_setLengthLeft, ofBigEndian_bigEndian]
  rw [← hread n, ← hread m]
  constructor
  · intro h
    rw [h]
  · intro h
    exact eq_of_ofBigEndian_eq (by simp) h

/-- A digest for small examples: the bytes are the digits of a number, whose last 32 are kept. -/
def sampleDigest (msg : Bytes) : { b : Bytes // b.length = 32 } :=
  ⟨setLengthLeft (bigEndian (msg.foldl (fun n b => n * 259 + b.toNat) 1)) 32,
    length_setLengthLeft _ _⟩

end TsEthereum
