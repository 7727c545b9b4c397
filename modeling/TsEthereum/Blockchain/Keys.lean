import TsEthereum.Common.Bytes

/-!
# The keys of the block database

`db/constants.ts`: a record's key is a one-letter prefix, the block number,
the hash, and for two kinds a one-letter suffix. The number is written in as
few bytes as hold it, and that is where two kinds meet: a total difficulty's
key is a header's when the first byte of its hash is read as the last of the
number. `keys_injective_iff` says that no other two records share a key.
-/

namespace TsEthereum.Blockchain

open TsEthereum

/-! ## The keys -/

def HEADS_KEY : String := "heads"

def HEAD_HEADER_KEY : String := "LastHeader"

def HEAD_BLOCK_KEY : String := "LastBlock"

/-- `utf8ToBytes('h')`. -/
def HEADER_PREFIX : Bytes := [0x68]

/-- `utf8ToBytes('t')`. -/
def TD_SUFFIX : Bytes := [0x74]

/-- `utf8ToBytes('n')`. -/
def NUM_SUFFIX : Bytes := [0x6e]

/-- `utf8ToBytes('H')`. -/
def BLOCK_HASH_PREFIX : Bytes := [0x48]

/-- `utf8ToBytes('b')`. -/
def BODY_PREFIX : Bytes := [0x62]

/-- `bigIntToBytes`: the digits of the number in base 16, a zero before them
where they are odd. So zero takes a byte. -/
def bigIntToBytes (num : ℕ) : Bytes := if num = 0 then [0] else bigEndian num

/-- **`bytesBE8`**: of `BigInt.asUintN(64, n)`. -/
def bytesBE8 (n : ℕ) : Bytes := bigIntToBytes (n % 2 ^ 64)

def tdKey (n : ℕ) (hash : Bytes) : Bytes := HEADER_PREFIX ++ bytesBE8 n ++ hash ++ TD_SUFFIX

def headerKey (n : ℕ) (hash : Bytes) : Bytes := HEADER_PREFIX ++ bytesBE8 n ++ hash

def bodyKey (n : ℕ) (hash : Bytes) : Bytes := BODY_PREFIX ++ bytesBE8 n ++ hash

def numberToHashKey (n : ℕ) : Bytes := HEADER_PREFIX ++ bytesBE8 n ++ NUM_SUFFIX

def hashToNumberKey (hash : Bytes) : Bytes := BLOCK_HASH_PREFIX ++ hash

/-- A record of the block database: its kind, and what its key is made of. -/
inductive Record where
  | header (n : ℕ) (hash : Bytes)
  | totalDifficulty (n : ℕ) (hash : Bytes)
  | body (n : ℕ) (hash : Bytes)
  | numberToHash (n : ℕ)
  | hashToNumber (hash : Bytes)
  deriving DecidableEq

namespace Record

/-- The key a `DBOp` gives the record. -/
def key : Record → Bytes
  | .header n hash => headerKey n hash
  | .totalDifficulty n hash => tdKey n hash
  | .body n hash => bodyKey n hash
  | .numberToHash n => numberToHashKey n
  | .hashToNumber hash => hashToNumberKey hash

/-- A number below `2 ^ 64`, and a hash of 32 bytes. -/
def WellFormed : Record → Prop
  | .header n hash | .totalDifficulty n hash | .body n hash => n < 2 ^ 64 ∧ hash.length = 32
  | .numberToHash n => n < 2 ^ 64
  | .hashToNumber hash => hash.length = 32

instance (r : Record) : Decidable r.WellFormed := by
  cases r <;> unfold WellFormed <;> infer_instance

/-- **A total difficulty's key read as a header's**: the first byte of the
hash as the number's last, and the suffix as the hash's. -/
def Misread (n : ℕ) (hash : Bytes) (n' : ℕ) (hash' : Bytes) : Prop :=
  n ≠ 0 ∧ n' = 256 * n + (hash.headD 0).toNat ∧ hash' = hash.tail ++ TD_SUFFIX

/-- One record is a total difficulty and the other the header its key is
misread as. -/
def Crosses : Record → Record → Prop
  | .totalDifficulty n hash, .header n' hash' => Misread n hash n' hash'
  | .header n' hash', .totalDifficulty n hash => Misread n hash n' hash'
  | _, _ => False

end Record

/-! ## The number's bytes -/

theorem ofBigEndian_bigIntToBytes (n : ℕ) : ofBigEndian (bigIntToBytes n) = n := by
  unfold bigIntToBytes
  split
  · next h => rw [h]; rfl
  · exact ofBigEndian_bigEndian n

theorem bytesBE8_injOn {n n' : ℕ} (hn : n < 2 ^ 64) (hn' : n' < 2 ^ 64)
    (h : bytesBE8 n = bytesBE8 n') : n = n' := by
  have hback := congrArg ofBigEndian h
  rwa [bytesBE8, bytesBE8, ofBigEndian_bigIntToBytes, ofBigEndian_bigIntToBytes,
    Nat.mod_eq_of_lt hn, Nat.mod_eq_of_lt hn'] at hback

theorem length_bytesBE8 (n : ℕ) : 1 ≤ (bytesBE8 n).length ∧ (bytesBE8 n).length ≤ 8 := by
  unfold bytesBE8 bigIntToBytes
  split
  · exact ⟨le_refl 1, by decide⟩
  · next h =>
    have hlt : n % 2 ^ 64 < 256 ^ 8 := by omega
    exact ⟨length_bigEndian_pos (by omega), length_bigEndian_le hlt⟩

theorem bigEndian_concat {n : ℕ} (hn : n ≠ 0) (b : UInt8) :
    bigEndian (256 * n + b.toNat) = bigEndian n ++ [b] := by
  have hdigits := Nat.digits_add 256 (by omega) b.toNat n b.toNat_lt (.inr hn)
  rw [bigEndian, Nat.add_comm, hdigits, List.map_cons, List.reverse_cons, bigEndian,
    UInt8.ofNat_toNat]

/-- **One byte more**: the bytes of a number go on with a byte exactly when
the number is not zero and the other has that digit more. -/
theorem bytesBE8_concat_iff {n n' : ℕ} (hn : n < 2 ^ 64) (hn' : n' < 2 ^ 64) (b : UInt8) :
    bytesBE8 n' = bytesBE8 n ++ [b] ↔ n ≠ 0 ∧ n' = 256 * n + b.toNat := by
  constructor
  · intro h
    have hne : n ≠ 0 := by
      rintro rfl
      -- a number of two bytes does not start with a zero
      have hzero : bytesBE8 n' = [0, b] := h
      unfold bytesBE8 bigIntToBytes at hzero
      split at hzero
      · cases hzero
      · exact head?_bigEndian_ne_zero _ (by rw [hzero]; rfl)
    have hback := congrArg ofBigEndian h
    unfold bytesBE8 at hback
    rw [ofBigEndian_bigIntToBytes, Nat.mod_eq_of_lt hn, Nat.mod_eq_of_lt hn', bigIntToBytes,
      if_neg hne, ← bigEndian_concat hne, ofBigEndian_bigEndian] at hback
    exact ⟨hne, hback⟩
  · rintro ⟨hne, rfl⟩
    unfold bytesBE8 bigIntToBytes
    rw [Nat.mod_eq_of_lt hn, Nat.mod_eq_of_lt hn', if_neg hne, if_neg (by omega),
      bigEndian_concat hne]

/-! ## Where two keys agree -/

theorem append_bytesBE8_inj {n n' : ℕ} {r r' : Bytes} (hn : n < 2 ^ 64) (hn' : n' < 2 ^ 64)
    (hlen : r.length = r'.length) (h : bytesBE8 n ++ r = bytesBE8 n' ++ r') : n = n' ∧ r = r' := by
  obtain ⟨hbytes, hr⟩ := List.append_inj' h hlen
  exact ⟨bytesBE8_injOn hn hn' hbytes, hr⟩

theorem tdKey_eq_headerKey_iff {n n' : ℕ} {hash hash' : Bytes} (hn : n < 2 ^ 64)
    (hn' : n' < 2 ^ 64) (hlen : hash.length = 32) (hlen' : hash'.length = 32) :
    tdKey n hash = headerKey n' hash' ↔ Record.Misread n hash n' hash' := by
  obtain ⟨b, rest, rfl⟩ : ∃ b rest, hash = b :: rest := by
    cases hash with
    | nil => cases hlen
    | cons b rest => exact ⟨b, rest, rfl⟩
  have hkeys : tdKey n (b :: rest) = headerKey n' hash' ↔
      bytesBE8 n' ++ hash' = (bytesBE8 n ++ [b]) ++ (rest ++ TD_SUFFIX) := by
    simp only [tdKey, headerKey, List.append_assoc, List.append_cancel_left_eq, List.cons_append,
      List.nil_append]
    exact eq_comm
  have hrest : hash'.length = (rest ++ TD_SUFFIX).length := by
    simpa [TD_SUFFIX, hlen'] using hlen.symm
  rw [hkeys]
  constructor
  · intro h
    obtain ⟨hbytes, hhash⟩ := List.append_inj' h hrest
    obtain ⟨hne, hnum⟩ := (bytesBE8_concat_iff hn hn' b).1 hbytes
    exact ⟨hne, hnum, hhash⟩
  · rintro ⟨hne, hnum, hhash⟩
    rw [(bytesBE8_concat_iff hn hn' b).2 ⟨hne, hnum⟩, hhash]
    rfl

namespace Record

theorem length_key_numberToHash (n : ℕ) : (numberToHash n).key.length ≤ 10 := by
  have hlen := length_bytesBE8 n
  simp only [key, numberToHashKey, HEADER_PREFIX, NUM_SUFFIX, List.length_append,
    List.length_cons, List.length_nil]
  omega

theorem length_key_header {n : ℕ} {hash : Bytes} (h : hash.length = 32) :
    34 ≤ (header n hash).key.length := by
  have hlen := length_bytesBE8 n
  simp only [key, headerKey, HEADER_PREFIX, List.length_append, List.length_cons, List.length_nil]
  omega

theorem length_key_totalDifficulty {n : ℕ} {hash : Bytes} (h : hash.length = 32) :
    35 ≤ (totalDifficulty n hash).key.length := by
  have hlen := length_bytesBE8 n
  simp only [key, tdKey, HEADER_PREFIX, TD_SUFFIX, List.length_append, List.length_cons,
    List.length_nil]
  omega

theorem eq_of_key_eq_of_not_crosses {a b : Record} (ha : a.WellFormed) (hb : b.WellFormed)
    (hcross : ¬ Crosses a b) (h : a.key = b.key) : a = b := by
  have hlen : a.key.length = b.key.length := congrArg List.length h
  cases a with
  | header n hash =>
    cases b with
    | header n' hash' =>
      obtain ⟨rfl, rfl⟩ := append_bytesBE8_inj ha.1 hb.1 (ha.2.trans hb.2.symm)
        (List.cons_injective h)
      rfl
    | totalDifficulty n' hash' =>
      exact absurd ((tdKey_eq_headerKey_iff hb.1 ha.1 hb.2 ha.2).1 h.symm) hcross
    | numberToHash n' =>
      have hshort := length_key_numberToHash n'
      have hlong := length_key_header (n := n) ha.2
      omega
    | body n' hash' => cases h
    | hashToNumber hash' => cases h
  | totalDifficulty n hash =>
    cases b with
    | header n' hash' => exact absurd ((tdKey_eq_headerKey_iff ha.1 hb.1 ha.2 hb.2).1 h) hcross
    | totalDifficulty n' hash' =>
      have h' : bytesBE8 n ++ hash = bytesBE8 n' ++ hash' :=
        List.append_cancel_right (List.cons_injective h)
      obtain ⟨rfl, rfl⟩ := append_bytesBE8_inj ha.1 hb.1 (ha.2.trans hb.2.symm) h'
      rfl
    | numberToHash n' =>
      have hshort := length_key_numberToHash n'
      have hlong := length_key_totalDifficulty (n := n) ha.2
      omega
    | body n' hash' => cases h
    | hashToNumber hash' => cases h
  | body n hash =>
    cases b with
    | body n' hash' =>
      obtain ⟨rfl, rfl⟩ := append_bytesBE8_inj ha.1 hb.1 (ha.2.trans hb.2.symm)
        (List.cons_injective h)
      rfl
    | header n' hash' => cases h
    | totalDifficulty n' hash' => cases h
    | numberToHash n' => cases h
    | hashToNumber hash' => cases h
  | numberToHash n =>
    cases b with
    | numberToHash n' =>
      have h' : bytesBE8 n = bytesBE8 n' := List.append_cancel_right (List.cons_injective h)
      rw [bytesBE8_injOn ha hb h']
    | header n' hash' =>
      have hshort := length_key_numberToHash n
      have hlong := length_key_header (n := n') hb.2
      omega
    | totalDifficulty n' hash' =>
      have hshort := length_key_numberToHash n
      have hlong := length_key_totalDifficulty (n := n') hb.2
      omega
    | body n' hash' => cases h
    | hashToNumber hash' => cases h
  | hashToNumber hash =>
    cases b with
    | hashToNumber hash' =>
      have h' : hash = hash' := List.cons_injective h
      rw [h']
    | header n' hash' => cases h
    | totalDifficulty n' hash' => cases h
    | body n' hash' => cases h
    | numberToHash n' => cases h

/-- **A crossing pair shares its key**, though the records are of two
kinds. -/
theorem key_eq_of_crosses {a b : Record} (ha : a.WellFormed) (hb : b.WellFormed)
    (hcross : Crosses a b) : a.key = b.key ∧ a ≠ b := by
  cases a with
  | header n hash =>
    cases b with
    | totalDifficulty n' hash' =>
      exact ⟨((tdKey_eq_headerKey_iff hb.1 ha.1 hb.2 ha.2).2 hcross).symm, by simp⟩
    | _ => cases hcross
  | totalDifficulty n hash =>
    cases b with
    | header n' hash' =>
      exact ⟨(tdKey_eq_headerKey_iff ha.1 hb.1 ha.2 hb.2).2 hcross, by simp⟩
    | _ => cases hcross
  | _ => cases hcross

end Record

open Record

/-- **Two records share a key exactly when one is the header that the
other, a total difficulty, is misread as.** -/
theorem keys_injective_iff (a b : Record) (ha : a.WellFormed) (hb : b.WellFormed) :
    (a.key = b.key → a = b) ↔ ¬ Crosses a b := by
  constructor
  · intro h hcross
    obtain ⟨hkey, hne⟩ := key_eq_of_crosses ha hb hcross
    exact hne (h hkey)
  · exact eq_of_key_eq_of_not_crosses ha hb

/-- The equivalence for a total difficulty and a header of one block. -/
theorem keys_injective_iff_sameBlock :
    ((totalDifficulty 1 (List.replicate 32 7)).key = (header 1 (List.replicate 32 7)).key →
        totalDifficulty 1 (List.replicate 32 7) = header 1 (List.replicate 32 7)) ↔
      ¬ Crosses (totalDifficulty 1 (List.replicate 32 7)) (header 1 (List.replicate 32 7)) :=
  keys_injective_iff _ _ (by decide) (by decide)

/-- **Two records of two blocks under one key**: the total difficulty of
block 1, of a hash that starts with 2, and the header of block 258. -/
theorem tdKey_is_headerKey :
    ¬ ∀ a b : Record, a.WellFormed → b.WellFormed → a.key = b.key → a = b := by
  intro h
  have hclaim := h (totalDifficulty 1 (2 :: List.replicate 31 0))
    (header 258 (List.replicate 31 0 ++ TD_SUFFIX)) (by decide) (by decide) (by decide +kernel)
  cases hclaim

end TsEthereum.Blockchain
