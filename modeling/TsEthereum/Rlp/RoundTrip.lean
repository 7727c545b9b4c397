import TsEthereum.Rlp.Model

/-!
# RLP — what was encoded is decoded

`encode` writes a prefix and a payload, and the prefix tells the decoder
which of the four length forms follows. `decodeItem_encodeBytes` and
`decodeItem_encodeLength` are the decoder's equations on the two kinds of
item, with any bytes behind it; `decodeItem_encode` assembles them along
the nesting.
-/

namespace TsEthereum

namespace Rlp

/-! ## The prefix -/

theorem bigEndian_of_lt {n : ℕ} (hpos : 0 < n) (hlt : n < 256) : bigEndian n = [UInt8.ofNat n] := by
  rw [bigEndian, Nat.digits_of_lt 256 n (by omega) hlt]
  rfl

theorem encodeLength_short {len offset : ℕ} (h : len < 56) :
    encodeLength len offset = [UInt8.ofNat (len + offset)] :=
  if_pos h

/-- **The long form** is one byte telling how many bytes the length takes,
and the length. -/
theorem encodeLength_long {len offset : ℕ} (h : 56 ≤ len) (hlen : len < 256 ^ 8)
    (hoff : offset + 63 < 256) :
    encodeLength len offset =
      UInt8.ofNat (offset + 55 + (bigEndian len).length) :: bigEndian len := by
  have hle := length_bigEndian_le hlen
  rw [encodeLength, if_neg (by omega)]
  simp only
  rw [bigEndian_of_lt (by omega) (by omega), List.singleton_append]

theorem decodeLength_bigEndian {len : ℕ} (h : 0 < len) : decodeLength (bigEndian len) = .ok len := by
  have hpos := length_bigEndian_pos h
  have hz := head?_bigEndian_ne_zero len
  have hread := ofBigEndian_bigEndian len
  revert hpos hz hread
  cases bigEndian len with
  | nil => intro hpos; exact absurd hpos (by simp)
  | cons x b =>
    intro _ hz hread
    rw [decodeLength, if_neg fun hx => hz (by rw [hx, List.head?_cons]), hread]

theorem safeSlice_append {a b rest : Bytes} {start : ℕ} (h : a.length = start) {stop : ℕ}
    (hstop : a.length + b.length = stop) : safeSlice (a ++ b ++ rest) start stop = .ok b := by
  subst h hstop
  rw [safeSlice, if_neg (by simp), ← List.length_append, List.take_left, List.drop_left]

theorem safeSlice_cons {x : UInt8} {b rest : Bytes} {stop : ℕ} (hstop : 1 + b.length = stop) :
    safeSlice (x :: (b ++ rest)) 1 stop = .ok b :=
  safeSlice_append (show [x].length = 1 from rfl) hstop

theorem drop_append {a b rest : Bytes} {n : ℕ} (h : a.length + b.length = n) :
    (a ++ b ++ rest).drop n = rest := by
  subst h
  rw [← List.length_append, List.drop_left]

/-! ## The two kinds of item -/

theorem decodeItem_single {x : UInt8} (hx : x.toNat ≤ 0x7f) (budget : ℕ) (rest : Bytes) :
    decodeItem (budget + 1) (x :: rest) = .ok ⟨.bytes [x], rest⟩ := by
  rw [decodeItem]
  simp only
  rw [if_pos hx]
  rfl

/-- A string of at most 55 bytes is decoded from the short form, unless it
is one byte that needed no prefix. -/
theorem decodeItem_shortString {b : Bytes} (hb : b.length < 56)
    (hsingle : ∀ x, b = [x] → 128 ≤ x.toNat) (budget : ℕ) (rest : Bytes) :
    decodeItem (budget + 1) (UInt8.ofNat (b.length + 128) :: (b ++ rest)) =
      .ok ⟨.bytes b, rest⟩ := by
  have hx := toNat_ofNat (show b.length + 128 < 256 by omega)
  rw [decodeItem]
  simp only [hx]
  rw [if_neg (by omega), if_pos (by omega)]
  have hdata : (if b.length + 128 = 128 then (.ok [] : Except DecodeError Bytes)
      else safeSlice (UInt8.ofNat (b.length + 128) :: (b ++ rest)) 1 (b.length + 128 - 127)) =
      .ok b := by
    split
    · rw [List.length_eq_zero_iff.1 (by omega : b.length = 0)]
    · exact safeSlice_cons (by omega)
  have hprefixed : ¬ (b.length + 128 - 127 = 2 ∧ (b.head?.any fun x => x.toNat < 0x80) = true) := by
    rintro ⟨hlen, hlow⟩
    obtain ⟨x, rfl⟩ := List.length_eq_one_iff.1 (show b.length = 1 by omega)
    have := hsingle x rfl
    simp only [List.head?_cons, Option.any_some, decide_eq_true_eq] at hlow
    omega
  rw [hdata, ok_bind, if_neg hprefixed, ← List.cons_append, ← List.singleton_append,
    drop_append (by simp only [List.length_singleton]; omega)]

theorem decodeItem_longString {b : Bytes} (hb : 56 ≤ b.length) (hlt : b.length < 256 ^ 8)
    (budget : ℕ) (rest : Bytes) :
    decodeItem (budget + 1)
      (UInt8.ofNat (183 + (bigEndian b.length).length) :: (bigEndian b.length ++ b ++ rest)) =
      .ok ⟨.bytes b, rest⟩ := by
  have hle := length_bigEndian_le hlt
  have hpos := length_bigEndian_pos (show 0 < b.length by omega)
  have hx := toNat_ofNat (show 183 + (bigEndian b.length).length < 256 by omega)
  rw [decodeItem]
  simp only [hx]
  rw [if_neg (by omega), if_neg (by omega), if_pos (by omega),
    if_neg (by simp only [List.length_cons, List.length_append]; omega), List.append_assoc,
    safeSlice_cons (by omega), ok_bind, decodeLength_bigEndian (by omega), ok_bind,
    if_neg (by omega), ← List.append_assoc, ← List.cons_append, ← List.cons_append,
    safeSlice_append (by simp only [List.length_cons]; omega)
      (by simp only [List.length_cons]; omega), ok_bind,
    drop_append (by simp only [List.length_cons]; omega)]

theorem encodeBytes_eq {b : Bytes} (h : ∀ x, b = [x] → 128 ≤ x.toNat) :
    encodeBytes b = encodeLength b.length 128 ++ b := by
  unfold encodeBytes
  split
  · rename_i x
    rw [if_neg (by have := h x rfl; omega)]
  · rfl

theorem decodeItem_encodeBytes {b : Bytes} (hb : b.length < 256 ^ 8) (budget : ℕ) (rest : Bytes) :
    decodeItem (budget + 1) (encodeBytes b ++ rest) = .ok ⟨.bytes b, rest⟩ := by
  by_cases hlow : ∃ x, b = [x] ∧ x.toNat < 128
  · obtain ⟨x, rfl, hx⟩ := hlow
    rw [encodeBytes, if_pos hx]
    exact decodeItem_single (by omega) budget rest
  · have hsingle : ∀ x, b = [x] → 128 ≤ x.toNat := fun x hx => by
      by_contra hlt
      exact hlow ⟨x, hx, by omega⟩
    rw [encodeBytes_eq hsingle]
    rcases Nat.lt_or_ge b.length 56 with hs | hl
    · rw [encodeLength_short hs]
      exact decodeItem_shortString hs hsingle budget rest
    · rw [encodeLength_long hl hb (by omega)]
      exact decodeItem_longString hl hb budget rest

/-- **A list is decoded from its prefix and payload**, given that the loop
decodes the payload. -/
theorem decodeItem_encodeLength {payload : Bytes} {xs : List NestedUint8Array} {budget : ℕ}
    (hp : payload.length < 256 ^ 8) (h : decodeItems budget payload = .ok xs) (rest : Bytes) :
    decodeItem (budget + 1) (encodeLength payload.length 192 ++ payload ++ rest) =
      .ok ⟨.list xs, rest⟩ := by
  rcases Nat.lt_or_ge payload.length 56 with hs | hl
  · have hx := toNat_ofNat (show payload.length + 192 < 256 by omega)
    rw [encodeLength_short hs, List.singleton_append, List.cons_append, decodeItem]
    simp only [hx]
    rw [if_neg (by omega), if_neg (by omega), if_neg (by omega), if_pos (by omega),
      safeSlice_cons (by omega), ok_bind, h, ok_bind, ← List.cons_append,
      ← List.singleton_append, drop_append (by simp only [List.length_singleton]; omega)]
  · have hle := length_bigEndian_le hp
    have hpos := length_bigEndian_pos (show 0 < payload.length by omega)
    have hx := toNat_ofNat (show 192 + 55 + (bigEndian payload.length).length < 256 by omega)
    rw [encodeLength_long hl hp (by omega), List.cons_append, List.cons_append, decodeItem]
    simp only [hx]
    rw [if_neg (by omega), if_neg (by omega), if_neg (by omega), if_neg (by omega),
      List.append_assoc, safeSlice_cons (by omega), ok_bind, decodeLength_bigEndian (by omega),
      ok_bind, if_neg (by omega),
      if_neg (by simp only [List.length_cons, List.length_append]; omega), ← List.append_assoc,
      ← List.cons_append, ← List.cons_append,
      safeSlice_append (by simp only [List.length_cons]; omega)
        (by simp only [List.length_cons]; omega), ok_bind, h, ok_bind,
      drop_append (by simp only [List.length_cons]; omega)]

/-! ## Along the nesting -/

theorem encodeLength_ne_nil (len offset : ℕ) : encodeLength len offset ≠ [] := by
  intro h
  rcases Nat.lt_or_ge len 56 with hs | hl
  · rw [encodeLength_short hs] at h
    cases h
  · rw [encodeLength, if_neg (by omega)] at h
    have hpos := length_bigEndian_pos (show 0 < len by omega)
    rw [(List.append_eq_nil_iff.1 h).2] at hpos
    exact absurd hpos (lt_irrefl 0)

theorem encode_ne_nil (x : NestedUint8Array) : encode x ≠ [] := by
  have happ (len offset : ℕ) (b : Bytes) : encodeLength len offset ++ b ≠ [] := fun h =>
    encodeLength_ne_nil len offset (List.append_eq_nil_iff.1 h).1
  cases x with
  | list xs => exact happ _ _ _
  | bytes b =>
    rw [encode]
    unfold encodeBytes
    split
    · split
      · exact List.cons_ne_nil _ _
      · exact happ _ _ _
    · exact happ _ _ _

theorem length_encode_pos (x : NestedUint8Array) : 0 < (encode x).length :=
  List.length_pos_iff.2 (encode_ne_nil x)

theorem length_le_length_encodeBytes (b : Bytes) : b.length ≤ (encodeBytes b).length := by
  unfold encodeBytes
  split
  · split <;> simp
  · simp

mutual

theorem decodeItem_encode (x : NestedUint8Array) (hx : (encode x).length < 256 ^ 8)
    {budget : ℕ} (hb : 2 * (encode x).length ≤ budget) (rest : Bytes) :
    decodeItem budget (encode x ++ rest) = .ok ⟨x, rest⟩ := by
  have hpos := length_encode_pos x
  obtain ⟨budget, rfl⟩ : ∃ n, budget = n + 1 := ⟨budget - 1, by omega⟩
  match x with
  | .bytes b =>
    rw [encode] at hx ⊢
    exact decodeItem_encodeBytes (by have := length_le_length_encodeBytes b; omega) budget rest
  | .list xs =>
    have hprefix := List.length_pos_iff.2 (encodeLength_ne_nil (encodeAll xs).length 192)
    rw [encode, List.length_append] at hx hb
    rw [encode]
    exact decodeItem_encodeLength (by omega)
      (decodeItems_encodeAll xs (by omega) (by omega)) rest

theorem decodeItems_encodeAll (xs : List NestedUint8Array) (hx : (encodeAll xs).length < 256 ^ 8)
    {budget : ℕ} (hb : 2 * (encodeAll xs).length + 1 ≤ budget) :
    decodeItems budget (encodeAll xs) = .ok xs := by
  match xs with
  | [] => rw [encodeAll, decodeItems]
  | x :: xs =>
    have hpos := length_encode_pos x
    obtain ⟨budget, rfl⟩ : ∃ n, budget = n + 1 := ⟨budget - 1, by omega⟩
    rw [encodeAll, List.length_append] at hx hb
    have hhead := decodeItem_encode x (by omega) (show 2 * (encode x).length ≤ budget by omega)
      (encodeAll xs)
    have htail := decodeItems_encodeAll xs (by omega)
      (show 2 * (encodeAll xs).length + 1 ≤ budget by omega)
    rw [encodeAll]
    revert hhead
    cases hcons : encode x ++ encodeAll xs with
    | nil => exact absurd (List.append_eq_nil_iff.1 hcons).1 (encode_ne_nil x)
    | cons y ys =>
      intro hhead
      rw [decodeItems, hhead, ok_bind, htail, ok_bind]

end

theorem decode_stream_encode {x : NestedUint8Array} (hx : (encode x).length < 256 ^ 8)
    (rest : Bytes) : decode (encode x ++ rest) true = .ok (.stream ⟨x, rest⟩) := by
  have hpos := length_encode_pos x
  rw [decode, if_neg (by rw [List.length_append]; omega), decodeItem_encode x hx
    (by rw [decodeBudget, List.length_append]; omega) rest, ok_bind, if_pos rfl]

theorem decode_encode {x : NestedUint8Array} (hx : (encode x).length < 256 ^ 8) :
    decode (encode x) false = .ok (.data x) := by
  have hpos := length_encode_pos x
  have hitem := decodeItem_encode x hx (show 2 * (encode x).length ≤ decodeBudget (encode x) by
    rw [decodeBudget]; omega) []
  rw [List.append_nil] at hitem
  rw [decode, if_neg (by omega), hitem, ok_bind, if_neg (by decide), if_neg (by simp)]

/-- **No encoding starts another**: what follows one is determined by the
whole. -/
theorem encode_append_inj {x y : NestedUint8Array} (hx : (encode x).length < 256 ^ 8)
    (hy : (encode y).length < 256 ^ 8) {rest rest' : Bytes}
    (h : encode x ++ rest = encode y ++ rest') : x = y ∧ rest = rest' := by
  have hdx := decode_stream_encode hx rest
  rw [h, decode_stream_encode hy rest'] at hdx
  cases hdx
  exact ⟨rfl, rfl⟩

theorem encode_inj {x y : NestedUint8Array} (hx : (encode x).length < 256 ^ 8)
    (h : encode x = encode y) : x = y :=
  (encode_append_inj hx (h ▸ hx) (show encode x ++ [] = encode y ++ [] by rw [h])).1

/-- **RLP round trip.** A value whose encoding fits an array decodes to
itself, streams to itself with exactly the following bytes left over, and
no other value's encoding equals or extends its own. -/
theorem rlp_roundTrip (x : NestedUint8Array) (hx : (encode x).length < arrayBound) :
    decode (encode x) false = .ok (.data x) ∧
      (∀ rest, decode (encode x ++ rest) true = .ok (.stream ⟨x, rest⟩)) ∧
      ∀ y, encode x <+: encode y → (encode y).length < arrayBound → x = y := by
  have hlt {z : NestedUint8Array} (hz : (encode z).length < arrayBound) :
      (encode z).length < 256 ^ 8 := lt_trans hz (by decide)
  refine ⟨decode_encode (hlt hx), decode_stream_encode (hlt hx), fun y hpre hy => ?_⟩
  obtain ⟨rest, hrest⟩ := hpre
  exact (encode_append_inj (hlt hx) (hlt hy) (by rw [hrest, List.append_nil])).1

/-- The round trip of a list holding strings of both length forms. -/
theorem rlp_roundTrip_nested :
    decode (encode (.list [.bytes [0x80], .list [], .bytes (List.replicate 60 3)])) false =
      .ok (.data (.list [.bytes [0x80], .list [], .bytes (List.replicate 60 3)])) :=
  (rlp_roundTrip _ (by decide +kernel)).1

end Rlp

end TsEthereum
