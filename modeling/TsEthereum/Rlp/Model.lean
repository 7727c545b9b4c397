import TsEthereum.Common.Bytes
import TsEthereum.Common.Except

/-!
# RLP — encoding and decoding

`encode` and `decode` of the `rlp` package, on nested lists of byte
strings. A length below 56 goes into the prefix byte, a longer one into
the bytes after it; `decode` undoes both and refuses whatever `encode`
would not have written.

The source recurses on shrinking byte strings and loops over the payload
of a list. Here both are bounded by a budget of calls, `decodeBudget`,
which `Rlp/RoundTrip.lean` and `Rlp/Canonicity.lean` show is never
exhausted.
-/

namespace TsEthereum

/-- A `NestedUint8Array`: a byte string, or a list of such values. -/
inductive NestedUint8Array where
  | bytes (b : Bytes)
  | list (xs : List NestedUint8Array)
  deriving Inhabited

namespace NestedUint8Array

mutual

/-- Equality of nested byte strings is decidable, by recursion on both. -/
def decEq : (x y : NestedUint8Array) → Decidable (x = y)
  | .bytes a, .bytes b =>
    if h : a = b then .isTrue (h ▸ rfl) else .isFalse fun he => h (bytes.inj he)
  | .list xs, .list ys =>
    match decEqAll xs ys with
    | .isTrue h => .isTrue (h ▸ rfl)
    | .isFalse h => .isFalse fun he => h (list.inj he)
  | .bytes _, .list _ => .isFalse fun he => nomatch he
  | .list _, .bytes _ => .isFalse fun he => nomatch he

/-- The same for lists of them. -/
def decEqAll : (xs ys : List NestedUint8Array) → Decidable (xs = ys)
  | [], [] => .isTrue rfl
  | [], _ :: _ => .isFalse fun he => nomatch he
  | _ :: _, [] => .isFalse fun he => nomatch he
  | x :: xs, y :: ys =>
    match decEq x y, decEqAll xs ys with
    | .isTrue h, .isTrue hs => .isTrue (h ▸ hs ▸ rfl)
    | .isFalse h, _ => .isFalse fun he => h (List.cons.inj he).1
    | _, .isFalse hs => .isFalse fun he => hs (List.cons.inj he).2

end

instance : DecidableEq NestedUint8Array := decEq

end NestedUint8Array

namespace Rlp

/-! ## Encoding -/

/-- `encodeLength`: the prefix of a string (`offset` 128) or of a list
(`offset` 192) of `len` bytes. The source writes the long form as the hex
digits of `offset + 55 + lLength` followed by those of `len`. -/
def encodeLength (len offset : ℕ) : Bytes :=
  if len < 56 then [UInt8.ofNat (len + offset)]
  else
    let lengthBytes := bigEndian len
    let lLength := lengthBytes.length
    bigEndian (offset + 55 + lLength) ++ lengthBytes

/-- `encode` on a byte string: one byte below `0x80` is its own encoding. -/
def encodeBytes (b : Bytes) : Bytes :=
  match b with
  | [x] => if x.toNat < 128 then b else encodeLength b.length 128 ++ b
  | _ => encodeLength b.length 128 ++ b

mutual

def encode : NestedUint8Array → Bytes
  | .bytes b => encodeBytes b
  | .list xs => encodeLength (encodeAll xs).length 192 ++ encodeAll xs

/-- The encodings of a list's items, concatenated: its payload. -/
def encodeAll : List NestedUint8Array → Bytes
  | [] => []
  | x :: xs => encode x ++ encodeAll xs

end

/-! ## Decoding -/

/-- What the decoder throws. `outOfBudget` is the model's own: no input
reaches it. -/
inductive DecodeError where
  | remainderNotZero
  | extraZeros
  | invalidByteSequence
  | singleByteNotPrefixed
  | notEnoughBytesForStringLength
  | expectedStringLengthGreaterThan55
  | encodedListTooShort
  | totalLengthLargerThanData
  | sliceOutOfBounds
  | outOfBudget
  deriving DecidableEq

/-- The text of each error. -/
def DecodeError.message : DecodeError → String
  | .remainderNotZero => "invalid RLP: remainder must be zero"
  | .extraZeros => "invalid RLP: extra zeros"
  | .invalidByteSequence => "Invalid byte sequence"
  | .singleByteNotPrefixed =>
    "invalid RLP encoding: invalid prefix, single byte < 0x80 are not prefixed"
  | .notEnoughBytesForStringLength => "invalid RLP: not enough bytes for string length"
  | .expectedStringLengthGreaterThan55 =>
    "invalid RLP: expected string length to be greater than 55"
  | .encodedListTooShort => "invalid RLP: encoded list too short"
  | .totalLengthLargerThanData => "invalid RLP: total length is larger than the data"
  | .sliceOutOfBounds => "invalid RLP (safeSlice): end slice of Uint8Array out-of-bounds"
  | .outOfBudget => ""

/-- A decoded item and the bytes after it. -/
structure Decoded where
  data : NestedUint8Array
  remainder : Bytes
  deriving DecidableEq

/-- `safeSlice`: the bytes from `start` up to `stop`, which must exist. -/
def safeSlice (input : Bytes) (start stop : ℕ) : Except DecodeError Bytes :=
  if input.length < stop then .error .sliceOutOfBounds
  else .ok ((input.take stop).drop start)

/-- `decodeLength`: a length written in big-endian without leading zeros.
`parseInt` rounds a number of `2 ^ 53` or more; it stays out of every
array's bounds, so the exact number is refused by the same checks. -/
def decodeLength (v : Bytes) : Except DecodeError ℕ :=
  match v with
  | [] => .error .invalidByteSequence
  | x :: _ => if x = 0 then .error .extraZeros else .ok (ofBigEndian v)

mutual

/-- `_decode`: the first item of the input, and the rest. -/
def decodeItem : ℕ → Bytes → Except DecodeError Decoded
  | 0, _ => .error .outOfBudget
  | budget + 1, input =>
    match input with
    -- `firstByte` is `undefined`, so the last branch parses an empty length
    | [] => .error .invalidByteSequence
    | first :: _ =>
      let firstByte := first.toNat
      if firstByte ≤ 0x7f then
        .ok ⟨.bytes (input.take 1), input.drop 1⟩
      else if firstByte ≤ 0xb7 then do
        let length := firstByte - 0x7f
        let sliced := if firstByte = 0x80 then .ok [] else safeSlice input 1 length
        let data ← sliced
        if length = 2 ∧ (data.head?.any fun x => x.toNat < 0x80) then
          .error .singleByteNotPrefixed
        else .ok ⟨.bytes data, input.drop length⟩
      else if firstByte ≤ 0xbf then do
        let lLength := firstByte - 0xb6
        if input.length - 1 < lLength then .error .notEnoughBytesForStringLength
        else do
          let length ← decodeLength (← safeSlice input 1 lLength)
          if length ≤ 55 then .error .expectedStringLengthGreaterThan55
          else do
            let data ← safeSlice input lLength (length + lLength)
            .ok ⟨.bytes data, input.drop (length + lLength)⟩
      else if firstByte ≤ 0xf7 then do
        let length := firstByte - 0xbf
        let innerRemainder ← safeSlice input 1 length
        let decoded ← decodeItems budget innerRemainder
        .ok ⟨.list decoded, input.drop length⟩
      else do
        let lLength := firstByte - 0xf6
        let length ← decodeLength (← safeSlice input 1 lLength)
        if length < 56 then .error .encodedListTooShort
        else do
          let totalLength := lLength + length
          if input.length < totalLength then .error .totalLengthLargerThanData
          else do
            let innerRemainder ← safeSlice input lLength totalLength
            let decoded ← decodeItems budget innerRemainder
            .ok ⟨.list decoded, input.drop totalLength⟩

/-- The `while (innerRemainder.length)` loop over a list's payload. -/
def decodeItems : ℕ → Bytes → Except DecodeError (List NestedUint8Array)
  | _, [] => .ok []
  | 0, _ :: _ => .error .outOfBudget
  | budget + 1, innerRemainder@(_ :: _) => do
    let d ← decodeItem budget innerRemainder
    let rest ← decodeItems budget d.remainder
    .ok (d.data :: rest)

end

/-- Every call of `_decode` takes a byte, and every turn of the loop makes
one. -/
def decodeBudget (input : Bytes) : ℕ := 2 * input.length + 1

/-- What `decode` returns: the item alone, or with its remainder when it
streams. The empty input gives the empty string either way. -/
inductive DecodeResult where
  | data (data : NestedUint8Array)
  | stream (decoded : Decoded)
  deriving DecidableEq

/-- `RLP.decode`; `stream` is `false` when the caller leaves it out. -/
def decode (input : Bytes) (stream : Bool) : Except DecodeError DecodeResult :=
  if input.length = 0 then .ok (.data (.bytes []))
  else do
    let decoded ← decodeItem (decodeBudget input) input
    if stream then .ok (.stream decoded)
    else if decoded.remainder.length ≠ 0 then .error .remainderNotZero
    else .ok (.data decoded.data)

/-- A list of lists of strings, nested and long enough for both length
forms, comes back. -/
example : decode (encode (.list [.list [], .bytes [7], .bytes (List.replicate 56 1)])) false =
    .ok (.data (.list [.list [], .bytes [7], .bytes (List.replicate 56 1)])) := by
  decide +kernel

end Rlp

end TsEthereum
