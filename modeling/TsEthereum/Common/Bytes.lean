import Mathlib.Data.Nat.Digits.Lemmas

/-!
# Byte strings and big-endian numbers

A `Uint8Array` is a list of bytes. The one arithmetic fact the packages
share is how a number is written as bytes, most significant first and
without leading zeros: `bigEndian` is that form, `ofBigEndian` reads any
byte string back as a number, and the two are inverse exactly on the
strings that do not start with a zero byte.
-/

namespace TsEthereum

/-- A `Uint8Array`. -/
abbrev Bytes := List UInt8

/-- Byte strings are equal when they compare so. -/
instance : LawfulBEq Bytes := inferInstanceAs (LawfulBEq (List UInt8))

/-- JavaScript's `Number.MAX_SAFE_INTEGER + 1`: no array is as long as this. -/
abbrev arrayBound : ℕ := 2 ^ 53

/-- **A number's big-endian bytes**, as few as hold it: what
`hexToBytes(numberToHex(n))` computes for a positive `n`. -/
def bigEndian (n : ℕ) : Bytes :=
  ((Nat.digits 256 n).map UInt8.ofNat).reverse

/-- **The number a byte string writes**: what
`Number.parseInt(bytesToHex(b), 16)` computes. -/
def ofBigEndian (b : Bytes) : ℕ :=
  Nat.ofDigits 256 (b.reverse.map UInt8.toNat)

theorem toNat_ofNat {n : ℕ} (h : n < 256) : (UInt8.ofNat n).toNat = n :=
  UInt8.toNat_ofNat_of_lt' h

theorem map_toNat_map_ofNat {l : List ℕ} (h : ∀ d ∈ l, d < 256) :
    (l.map UInt8.ofNat).map UInt8.toNat = l := by
  induction l with
  | nil => rfl
  | cons d l ih =>
    rw [List.map_cons, List.map_cons, ih (List.forall_mem_cons.1 h).2,
      toNat_ofNat (h d List.mem_cons_self)]

@[simp] theorem ofBigEndian_bigEndian (n : ℕ) : ofBigEndian (bigEndian n) = n := by
  rw [ofBigEndian, bigEndian, List.reverse_reverse,
    map_toNat_map_ofNat fun d hd => Nat.digits_lt_base (by omega) hd, Nat.ofDigits_digits]

/-- **Writing back what was read gives the string**, when it does not start
with a zero byte. -/
theorem bigEndian_ofBigEndian {b : Bytes} (h : b.head? ≠ some 0) :
    bigEndian (ofBigEndian b) = b := by
  have hlt : ∀ d ∈ b.reverse.map UInt8.toNat, d < 256 := by
    intro d hd
    obtain ⟨x, -, rfl⟩ := List.mem_map.1 hd
    exact x.toNat_lt
  have hlast : ∀ hne : b.reverse.map UInt8.toNat ≠ [],
      (b.reverse.map UInt8.toNat).getLast hne ≠ 0 := by
    intro hne hz
    cases b with
    | nil => exact hne rfl
    | cons x b =>
      simp only [List.reverse_cons, List.map_append, List.map_cons, List.map_nil,
        List.getLast_append_singleton] at hz
      exact h (by rw [List.head?_cons, UInt8.toNat_inj.1 (hz.trans UInt8.toNat_zero.symm)])
  rw [bigEndian, ofBigEndian, Nat.digits_ofDigits 256 (by omega) _ hlt hlast, List.map_map]
  simp [Function.comp_def]

theorem head?_bigEndian_ne_zero (n : ℕ) : (bigEndian n).head? ≠ some 0 := by
  intro h
  rw [bigEndian, List.head?_reverse, List.getLast?_map] at h
  obtain ⟨d, hd, hd0⟩ := Option.map_eq_some_iff.1 h
  have hmem : d ∈ Nat.digits 256 n := List.mem_of_getLast? hd
  have hlt : d < 256 := Nat.digits_lt_base (by omega) hmem
  have hn : n ≠ 0 := by
    rintro rfl
    simp at hmem
  refine Nat.getLast_digit_ne_zero 256 hn ?_
  rw [List.getLast?_eq_some_getLast (Nat.digits_ne_nil_iff_ne_zero.2 hn), Option.some.injEq] at hd
  rw [hd, ← toNat_ofNat hlt, hd0, UInt8.toNat_zero]

theorem length_bigEndian_pos {n : ℕ} (h : 0 < n) : 0 < (bigEndian n).length := by
  rw [bigEndian, List.length_reverse, List.length_map, List.length_pos_iff]
  exact Nat.digits_ne_nil_iff_ne_zero.2 (by omega)

theorem length_bigEndian_le {n k : ℕ} (h : n < 256 ^ k) : (bigEndian n).length ≤ k := by
  rw [bigEndian, List.length_reverse, List.length_map]
  exact (Nat.digits_length_le_iff (by omega) n).2 h

end TsEthereum
