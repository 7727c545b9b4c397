import TsEthereum.Rlp.RoundTrip

/-!
# RLP — what is decoded was encoded

The converse of `Rlp/RoundTrip.lean`: a byte string the decoder accepts is
the encoding of what it returns. `decodeItem_eq_ok` says it of one call,
form by form — the bounds and minimality checks of each are what rules out
every other prefix for the same item — and `encode_of_decodeItem` carries
it through the nesting, by induction on the budget.
-/

namespace TsEthereum

namespace Rlp

/-! ## The checks -/

theorem safeSlice_eq_ok {input v : Bytes} {start stop : ℕ} (h : safeSlice input start stop = .ok v) :
    stop ≤ input.length ∧ v = (input.take stop).drop start := by
  rw [safeSlice, ite_error_eq_ok] at h
  exact ⟨by omega, (Except.ok.inj h.2).symm⟩

theorem eq_append_of_safeSlice {input v : Bytes} {start stop : ℕ}
    (h : safeSlice input start stop = .ok v) (hle : start ≤ stop) :
    input = input.take start ++ v ++ input.drop stop ∧ v.length = stop - start ∧
      (input.take start).length = start := by
  obtain ⟨hstop, rfl⟩ := safeSlice_eq_ok h
  refine ⟨?_, by simp only [List.length_drop, List.length_take]; omega,
    by rw [List.length_take]; omega⟩
  have htake : input.take start = (input.take stop).take start := by
    rw [List.take_take, min_eq_left hle]
  rw [htake, List.take_append_drop, List.take_append_drop]

theorem decodeLength_eq_ok {v : Bytes} {n : ℕ} (h : decodeLength v = .ok n) : v = bigEndian n := by
  cases v with
  | nil => cases h
  | cons x v =>
    rw [decodeLength, ite_error_eq_ok, Except.ok.injEq] at h
    rw [← h.2, bigEndian_ofBigEndian fun hx => h.1 (by simpa using hx)]

/-- **The prefix byte and the length bytes of a long form** are the ones
`encodeLength` writes. -/
theorem take_eq_encodeLength {first : UInt8} {rest v : Bytes} {k n offset : ℕ}
    (hx : first.toNat = offset + 55 + k) (hk : k ≤ 8) (hoff : offset + 63 < 256)
    (hv : safeSlice (first :: rest) 1 (k + 1) = .ok v) (hn : decodeLength v = .ok n)
    (hlong : 56 ≤ n) : (first :: rest).take (k + 1) = encodeLength n offset := by
  obtain ⟨-, hvk, -⟩ := eq_append_of_safeSlice hv (by omega)
  have hvn := decodeLength_eq_ok hn
  have hlt : n < 256 ^ 8 := by
    rw [← Nat.digits_length_le_iff (by omega : 1 < 256)]
    have : (bigEndian n).length ≤ 8 := by rw [← hvn]; omega
    rwa [bigEndian, List.length_reverse, List.length_map] at this
  have hfirst : UInt8.ofNat (offset + 55 + (bigEndian n).length) = first := by
    rw [← hvn, show offset + 55 + v.length = first.toNat by omega, UInt8.ofNat_toNat]
  rw [encodeLength_long hlong hlt hoff, hfirst, ← hvn, (safeSlice_eq_ok hv).2]
  rfl

theorem encodeLength_of_short {first : UInt8} {n offset : ℕ} (hx : first.toNat = n + offset)
    (hn : n < 56) : encodeLength n offset = [first] := by
  rw [encodeLength_short hn, ← hx, UInt8.ofNat_toNat]

/-! ## One call -/

/-- **What one call of the decoder accepts**: a string's encoding, or a
list's prefix and a payload the loop accepts. -/
theorem decodeItem_eq_ok {budget : ℕ} {input : Bytes} {d : Decoded}
    (h : decodeItem (budget + 1) input = .ok d) :
    (∃ b, d.data = .bytes b ∧ input = encodeBytes b ++ d.remainder) ∨
      ∃ payload xs, decodeItems budget payload = .ok xs ∧ d.data = .list xs ∧
        input = encodeLength payload.length 192 ++ payload ++ d.remainder := by
  cases input with
  | nil => cases h
  | cons first rest =>
    rw [decodeItem] at h
    simp only at h
    have hbound : first.toNat < 256 := first.toNat_lt
    split at h
    · -- one byte below `0x80`
      rename_i hx
      cases h
      refine .inl ⟨[first], rfl, ?_⟩
      rw [encodeBytes, if_pos (by omega)]
      rfl
    split at h
    · -- a short string
      rename_i hlow hx
      obtain ⟨b, hb, h⟩ := bind_eq_ok.1 h
      rw [ite_error_eq_ok] at h
      cases h.2
      have hslice : safeSlice (first :: rest) 1 (first.toNat - 127) = .ok b := by
        split at hb
        · rename_i h80
          cases hb
          rw [h80]
          simp [safeSlice]
        · exact hb
      obtain ⟨hinput, hlen, -⟩ := eq_append_of_safeSlice hslice (by omega)
      refine .inl ⟨b, rfl, ?_⟩
      rw [encodeBytes_eq, encodeLength_of_short (show first.toNat = b.length + 128 by omega) (by omega)]
      · simpa only [List.take_succ_cons, List.take_zero] using hinput
      · rintro x rfl
        simp only [List.length_singleton] at hlen
        have := h.1
        simp only [List.head?_cons, Option.any_some, decide_eq_true_eq, not_and] at this
        have := this (by omega)
        omega
    split at h
    · -- a long string
      rename_i hx
      rw [ite_error_eq_ok] at h
      obtain ⟨v, hv, h⟩ := bind_eq_ok.1 h.2
      obtain ⟨n, hn, h⟩ := bind_eq_ok.1 h
      rw [ite_error_eq_ok] at h
      obtain ⟨b, hb, h'⟩ := bind_eq_ok.1 h.2
      cases h'
      obtain ⟨hinput, hlen, -⟩ := eq_append_of_safeSlice hb (by omega)
      obtain ⟨k, hk⟩ : ∃ k, first.toNat - 182 = k + 1 := ⟨first.toNat - 183, by omega⟩
      rw [hk] at hv hinput hlen
      have htake := take_eq_encodeLength (show first.toNat = 128 + 55 + k by omega) (by omega)
        (by omega) hv hn (by omega)
      refine .inl ⟨b, rfl, ?_⟩
      have hbn : b.length = n := by omega
      rw [encodeBytes_eq, hbn, ← htake, hk]
      · exact hinput
      · rintro x rfl
        simp only [List.length_singleton] at hbn
        omega
    split at h
    · -- a short list
      rename_i hx
      obtain ⟨payload, hp, h⟩ := bind_eq_ok.1 h
      obtain ⟨xs, hxs, h⟩ := bind_eq_ok.1 h
      cases h
      obtain ⟨hinput, hlen, -⟩ := eq_append_of_safeSlice hp (by omega)
      refine .inr ⟨payload, xs, hxs, rfl, ?_⟩
      rw [encodeLength_of_short (show first.toNat = payload.length + 192 by omega) (by omega)]
      simpa only [List.take_succ_cons, List.take_zero] using hinput
    · -- a long list
      rename_i hx
      obtain ⟨v, hv, h⟩ := bind_eq_ok.1 h
      obtain ⟨n, hn, h⟩ := bind_eq_ok.1 h
      rw [ite_error_eq_ok, ite_error_eq_ok] at h
      obtain ⟨payload, hp, h'⟩ := bind_eq_ok.1 h.2.2
      obtain ⟨xs, hxs, h'⟩ := bind_eq_ok.1 h'
      cases h'
      obtain ⟨hinput, hlen, -⟩ := eq_append_of_safeSlice hp (by omega)
      obtain ⟨k, hk⟩ : ∃ k, first.toNat - 246 = k + 1 := ⟨first.toNat - 247, by omega⟩
      rw [hk] at hv hinput hlen
      have htake := take_eq_encodeLength (show first.toNat = 192 + 55 + k by omega) (by omega)
        (by omega) hv hn (by omega)
      refine .inr ⟨payload, xs, hxs, rfl, ?_⟩
      rw [show payload.length = n by omega, ← htake, hk]
      exact hinput

/-! ## Along the nesting -/

/-- **Whatever the decoder accepts is an encoding**: of the item it returns
from one call, and of the items it returns from the loop. The induction is
on the budget, one call or one turn at a time. -/
theorem encode_of_decode_budget (budget : ℕ) :
    (∀ input d, decodeItem budget input = .ok d → input = encode d.data ++ d.remainder) ∧
      ∀ input xs, decodeItems budget input = .ok xs → input = encodeAll xs := by
  induction budget with
  | zero =>
    refine ⟨fun input d h => (nomatch h), fun input xs h => ?_⟩
    cases input with
    | nil => rw [decodeItems] at h; cases h; rfl
    | cons x input => rw [decodeItems] at h; cases h
  | succ budget ih =>
    obtain ⟨ihItem, ihItems⟩ := ih
    refine ⟨fun input d h => ?_, fun input xs h => ?_⟩
    · rcases decodeItem_eq_ok h with ⟨b, hb, hinput⟩ | ⟨payload, xs, hxs, hd, hinput⟩
      · rw [hb, encode, ← hinput]
      · rw [hd, encode, ← ihItems payload xs hxs, ← hinput]
    · cases input with
      | nil => rw [decodeItems] at h; cases h; rfl
      | cons x input =>
        rw [decodeItems] at h
        obtain ⟨d, hd, h⟩ := bind_eq_ok.1 h
        obtain ⟨ys, hys, h⟩ := bind_eq_ok.1 h
        cases h
        rw [encodeAll, ← ihItems d.remainder ys hys, ← ihItem _ d hd]

/-- **RLP canonicity, one direction**: an accepted input is the encoding of
what `decode` returns. -/
theorem encode_of_decode {input : Bytes} (hne : input ≠ []) {r : DecodeResult}
    (h : decode input false = .ok r) : ∃ x, r = .data x ∧ encode x = input := by
  rw [decode, if_neg (by simpa using hne)] at h
  obtain ⟨d, hd, h⟩ := bind_eq_ok.1 h
  rw [if_neg (by decide), ite_error_eq_ok] at h
  cases h.2
  have hinput := (encode_of_decode_budget _).1 input d hd
  rw [List.length_eq_zero_iff.1 (not_not.1 h.1), List.append_nil] at hinput
  exact ⟨d.data, rfl, hinput.symm⟩

/-! ## The budget is enough -/

theorem length_remainder_lt {budget : ℕ} {input : Bytes} {d : Decoded}
    (h : decodeItem budget input = .ok d) : d.remainder.length < input.length := by
  have hinput := (encode_of_decode_budget budget).1 input d h
  have hpos := length_encode_pos d.data
  rw [hinput, List.length_append]
  omega

theorem safeSlice_ne_outOfBudget (input : Bytes) (start stop : ℕ) :
    safeSlice input start stop ≠ .error .outOfBudget := by
  unfold safeSlice
  split <;> simp

theorem decodeLength_ne_outOfBudget (v : Bytes) : decodeLength v ≠ .error .outOfBudget := by
  unfold decodeLength
  split
  · simp
  · split <;> simp

/-- A call that ran out of budget ran out of it in the loop, on a payload
cut out of its input. -/
theorem decodeItem_outOfBudget {budget : ℕ} {input : Bytes}
    (h : decodeItem (budget + 1) input = .error .outOfBudget) :
    ∃ payload : Bytes, payload.length < input.length ∧
      decodeItems budget payload = .error .outOfBudget := by
  have hloop {start stop : ℕ} {f : List NestedUint8Array → Except DecodeError Decoded}
      (hf : ∀ xs, f xs ≠ .error .outOfBudget) (hpos : 0 < start)
      (hs : (safeSlice input start stop >>= fun payload => decodeItems budget payload >>= f) =
        .error .outOfBudget) (hle : start ≤ stop) :
      ∃ payload : Bytes, payload.length < input.length ∧
        decodeItems budget payload = .error .outOfBudget := by
    rcases bind_eq_error.1 hs with hs | ⟨payload, hp, hs⟩
    · exact absurd hs (safeSlice_ne_outOfBudget _ _ _)
    rcases bind_eq_error.1 hs with hs | ⟨xs, -, hs⟩
    · obtain ⟨hstop, -⟩ := safeSlice_eq_ok hp
      obtain ⟨-, hlen, -⟩ := eq_append_of_safeSlice hp hle
      exact ⟨payload, by omega, hs⟩
    · exact absurd hs (hf xs)
  cases input with
  | nil => simp [decodeItem] at h
  | cons first rest =>
    rw [decodeItem] at h
    simp only at h
    split at h
    · simp at h
    split at h
    · rcases bind_eq_error.1 h with h | ⟨b, -, h⟩
      · split at h
        · simp at h
        · exact absurd h (safeSlice_ne_outOfBudget _ _ _)
      · rw [ite_error_eq_error (by decide)] at h
        simp at h
    split at h
    · rw [ite_error_eq_error (by decide)] at h
      rcases bind_eq_error.1 h.2 with h | ⟨v, -, h⟩
      · exact absurd h (safeSlice_ne_outOfBudget _ _ _)
      rcases bind_eq_error.1 h with h | ⟨n, -, h⟩
      · exact absurd h (decodeLength_ne_outOfBudget _)
      rw [ite_error_eq_error (by decide)] at h
      rcases bind_eq_error.1 h.2 with h | ⟨b, -, h⟩
      · exact absurd h (safeSlice_ne_outOfBudget _ _ _)
      · simp at h
    split at h
    · exact hloop (by simp) (by omega) h (by omega)
    · rcases bind_eq_error.1 h with h | ⟨v, -, h⟩
      · exact absurd h (safeSlice_ne_outOfBudget _ _ _)
      rcases bind_eq_error.1 h with h | ⟨n, -, h⟩
      · exact absurd h (decodeLength_ne_outOfBudget _)
      rw [ite_error_eq_error (by decide), ite_error_eq_error (by decide)] at h
      exact hloop (by simp) (by omega) h.2.2 (by omega)

/-- **The decoder does not run out of budget**, so it never loops. A call
needs two units for every byte of its input, and the loop one more. -/
theorem decode_budget_enough (budget : ℕ) :
    (∀ input : Bytes, input ≠ [] → 2 * input.length ≤ budget →
        decodeItem budget input ≠ .error .outOfBudget) ∧
      ∀ input : Bytes, 2 * input.length + 1 ≤ budget →
        decodeItems budget input ≠ .error .outOfBudget := by
  induction budget with
  | zero =>
    refine ⟨fun input hne hb => absurd (List.length_eq_zero_iff.1 (by omega)) hne, ?_⟩
    intro input hb
    omega
  | succ budget ih =>
    obtain ⟨ihItem, ihItems⟩ := ih
    refine ⟨fun input hne hb h => ?_, fun input hb => ?_⟩
    · obtain ⟨payload, hlen, hp⟩ := decodeItem_outOfBudget h
      exact ihItems payload (by omega) hp
    · cases input with
      | nil => simp [decodeItems]
      | cons x input =>
        rw [decodeItems]
        intro h
        rcases bind_eq_error.1 h with h | ⟨d, hd, h⟩
        · exact ihItem _ (List.cons_ne_nil _ _) (by omega) h
        rcases bind_eq_error.1 h with h | ⟨xs, -, h⟩
        · have := length_remainder_lt hd
          exact ihItems d.remainder (by omega) h
        · simp at h

/-- **RLP canonicity.** A non-empty input that `decode` accepts is the
encoding of what it returns; so the accepted inputs are exactly the
encodings, and every other input is refused with an error of the source,
never by running out of budget. -/
theorem rlp_canonical (input : Bytes) (hne : input ≠ []) (hlt : input.length < arrayBound) :
    (∀ r, decode input false = .ok r → ∃ x, r = .data x ∧ encode x = input) ∧
      ((∃ r, decode input false = .ok r) ↔ ∃ x, encode x = input) ∧
      decode input false ≠ .error .outOfBudget := by
  refine ⟨fun r h => encode_of_decode hne h, ⟨?_, ?_⟩, ?_⟩
  · rintro ⟨r, hr⟩
    obtain ⟨x, -, hx⟩ := encode_of_decode hne hr
    exact ⟨x, hx⟩
  · rintro ⟨x, rfl⟩
    exact ⟨_, decode_encode (lt_trans hlt (by decide))⟩
  · have hitem := (decode_budget_enough (decodeBudget input)).1 input hne (by rw [decodeBudget]; omega)
    rw [decode, if_neg (by simpa using hne)]
    intro h
    rcases bind_eq_error.1 h with h | ⟨d, -, h⟩
    · exact hitem h
    · rw [if_neg (by decide), ite_error_eq_error (by decide)] at h
      simp at h

/-- The canonicity of a list of two strings, and of the input cut short. -/
theorem rlp_canonical_list :
    ((∃ r, decode [0xc3, 0x05, 0x81, 0x80] false = .ok r) ↔
      ∃ x, encode x = [0xc3, 0x05, 0x81, 0x80]) ∧
    decode [0xc3, 0x05, 0x81] false ≠ .error .outOfBudget :=
  ⟨(rlp_canonical _ (by decide) (by decide)).2.1, (rlp_canonical _ (by decide) (by decide)).2.2⟩

end Rlp

end TsEthereum
