import TsEthereum.Common.Bytes
import TsEthereum.Evm.Memory

/-!
# The bytes of memory

`Memory` keeps its bytes in an array that grows by containers, and reads past
its end as zeros. Over every sequence of calls it is a map from addresses to
bytes that is zero where nothing was written (`memory_refines`); a write only
throws when its value has another size than it says.
-/

namespace TsEthereum.Evm

/-- `ceil`. -/
def ceil (value ceiling : ℕ) : ℕ :=
  let r := value % ceiling
  if r = 0 then value else value + ceiling - r

/-- `CONTAINER_SIZE`. -/
def CONTAINER_SIZE : ℕ := 8192

/-- **`Memory`.** -/
structure Memory where
  _store : Bytes

/-- A call on memory. -/
inductive MemoryCall
  | extend (offset size : ℕ)
  | write (offset size : ℕ) (value : Bytes)
  | read (offset size : ℕ) (avoidCopy : Bool)

namespace Memory

/-- `new Memory()`. -/
def new : Memory := ⟨List.replicate CONTAINER_SIZE 0⟩

/-- `extend`. -/
def extend (m : Memory) (offset size : ℕ) : Memory :=
  if size = 0 then m
  else
    let newSize := ceil (offset + size) 32
    if m._store.length < newSize then
      let expandBy := divCeil (newSize - m._store.length) CONTAINER_SIZE * CONTAINER_SIZE
      ⟨m._store ++ List.replicate expandBy 0⟩
    else m

/-- `write`. -/
def write (m : Memory) (offset size : ℕ) (value : Bytes) : Except String Bytes × Memory :=
  if size = 0 then (.ok [], m)
  else
    let m := m.extend offset size
    if value.length ≠ size then (.error "Invalid value size", m)
    else if m._store.length < offset + size then (.error "Value exceeds memory capacity", m)
    else (.ok [], ⟨m._store.take offset ++ value ++ m._store.drop (offset + size)⟩)

/-- `read`: with `avoidCopy` the part of the store itself, without a copy it
would be filled up in. -/
def read (m : Memory) (offset size : ℕ) (avoidCopy : Bool) : Except String Bytes × Memory :=
  let m := m.extend offset size
  let loaded := (m._store.drop offset).take size
  (.ok (if avoidCopy then loaded else loaded ++ List.replicate (size - loaded.length) 0), m)

/-- One call, with what it returns. -/
def step (m : Memory) : MemoryCall → Except String Bytes × Memory
  | .extend offset size => (.ok [], m.extend offset size)
  | .write offset size value => m.write offset size value
  | .read offset size avoidCopy => m.read offset size avoidCopy

/-- The memory after a call. -/
def after (m : Memory) (call : MemoryCall) : Memory := (m.step call).2

/-- What is at an address. -/
def content (m : Memory) (i : ℕ) : UInt8 := m._store.getD i 0

end Memory

/-! ## Memory as a map -/

/-- **A call on a map** from addresses to bytes. -/
def mapStep (f : ℕ → UInt8) : MemoryCall → Except String Bytes × (ℕ → UInt8)
  | .extend _ _ => (.ok [], f)
  | .write offset size value =>
    if size = 0 then (.ok [], f)
    else if value.length ≠ size then (.error "Invalid value size", f)
    else
      (.ok [], fun i =>
        if offset ≤ i ∧ i < offset + size then value.getD (i - offset) 0 else f i)
  | .read offset size _ => (.ok ((List.range size).map fun i => f (offset + i)), f)

/-- The map after a call. -/
def mapAfter (f : ℕ → UInt8) (call : MemoryCall) : ℕ → UInt8 := (mapStep f call).2

variable {m : Memory} {offset size : ℕ}

theorem le_ceil (value : ℕ) {ceiling : ℕ} (h : 0 < ceiling) : value ≤ ceil value ceiling := by
  have := Nat.mod_lt value h
  unfold ceil
  dsimp only
  split <;> omega

theorem divCeil_mul (a : ℕ) {b : ℕ} (h : 0 < b) :
    a ≤ divCeil a b * b ∧ divCeil a b * b < a + b := by
  have hdiv := Nat.div_add_mod' a b
  have hlt := Nat.mod_lt a h
  unfold divCeil
  dsimp only
  split
  · omega
  · rw [Nat.succ_mul]
    omega

theorem content_extend : (m.extend offset size).content = m.content := by
  unfold Memory.extend
  split
  · rfl
  · dsimp only
    split
    · funext i
      simp only [Memory.content, List.getD_eq_getElem?_getD]
      rcases Nat.lt_or_ge i m._store.length with hlt | hle
      · rw [List.getElem?_append_left hlt]
      · rw [List.getElem?_append_right hle, List.getElem?_eq_none hle, List.getElem?_replicate]
        split <;> rfl
    · rfl

theorem le_length_extend (hsize : size ≠ 0) :
    offset + size ≤ (m.extend offset size)._store.length := by
  have hceil : offset + size ≤ ceil (offset + size) 32 := le_ceil _ (by decide)
  unfold Memory.extend
  rw [if_neg hsize]
  dsimp only
  split
  · have hdiv := divCeil_mul (ceil (offset + size) 32 - m._store.length)
      (b := CONTAINER_SIZE) (by decide)
    rw [List.length_append, List.length_replicate]
    omega
  · omega

theorem content_set {value : Bytes} (hvalue : value.length = size)
    (hle : offset + size ≤ m._store.length) (i : ℕ) :
    (⟨m._store.take offset ++ value ++ m._store.drop (offset + size)⟩ : Memory).content i =
      if offset ≤ i ∧ i < offset + size then value.getD (i - offset) 0 else m.content i := by
  have htake : (m._store.take offset).length = offset := by
    rw [List.length_take]
    omega
  simp only [Memory.content, List.getD_eq_getElem?_getD]
  rcases Nat.lt_or_ge i offset with hbefore | hfrom
  · rw [if_neg (by omega), List.append_assoc, List.getElem?_append_left (by omega),
      List.getElem?_take_of_lt hbefore]
  · rcases Nat.lt_or_ge i (offset + size) with hin | hafter
    · rw [if_pos ⟨hfrom, hin⟩, List.append_assoc, List.getElem?_append_right (by omega), htake,
        List.getElem?_append_left (by omega)]
    · rw [if_neg (by omega), List.getElem?_append_right (by rw [List.length_append]; omega),
        List.getElem?_drop, List.length_append, htake, hvalue]
      congr 2
      omega

theorem take_drop_store (h : size ≠ 0 → offset + size ≤ m._store.length) :
    (m._store.drop offset).take size = (List.range size).map fun i => m.content (offset + i) := by
  rcases Nat.eq_zero_or_pos size with rfl | hpos
  · rfl
  · have hle := h hpos.ne'
    refine List.ext_getElem (by simp; omega) fun i hi hi' => ?_
    rw [List.length_map, List.length_range] at hi'
    rw [List.getElem_take, List.getElem_drop, List.getElem_map, List.getElem_range, Memory.content,
      List.getD_eq_getElem?_getD, List.getElem?_eq_getElem (by omega), Option.getD_some]

/-- **A call on memory is one on its content.** -/
theorem step_content (call : MemoryCall) :
    (m.step call).1 = (mapStep m.content call).1 ∧
      (m.after call).content = mapAfter m.content call := by
  cases call with
  | extend offset size => exact ⟨rfl, content_extend⟩
  | write offset size value =>
    unfold Memory.after mapAfter Memory.step mapStep Memory.write
    dsimp only
    by_cases hsize : size = 0
    · rw [if_pos hsize, if_pos hsize]
      exact ⟨rfl, rfl⟩
    · rw [if_neg hsize, if_neg hsize]
      by_cases hvalue : value.length = size
      · have hle : offset + size ≤ (m.extend offset size)._store.length := le_length_extend hsize
        rw [if_neg (not_not.2 hvalue), if_neg (not_not.2 hvalue), if_neg hle.not_gt]
        refine ⟨rfl, funext fun i => ?_⟩
        rw [content_set hvalue hle, content_extend]
      · rw [if_pos hvalue, if_pos hvalue]
        exact ⟨rfl, content_extend⟩
  | read offset size avoidCopy =>
    have hloaded : ((m.extend offset size)._store.drop offset).take size =
        (List.range size).map fun i => (m.extend offset size).content (offset + i) :=
      take_drop_store le_length_extend
    -- nothing is left to fill up after `extend`
    have hresult : (m.step (.read offset size avoidCopy)).1 =
        .ok ((List.range size).map fun i => m.content (offset + i)) := by
      unfold Memory.step Memory.read
      dsimp only
      rw [hloaded, content_extend, List.length_map, List.length_range, Nat.sub_self]
      cases avoidCopy with
      | false => exact congrArg Except.ok (List.append_nil _)
      | true => rfl
    exact ⟨hresult, content_extend⟩

/-- **Memory is a map that is zero where nothing was written**: after every
sequence of calls, each call returns what it returns on the map. -/
theorem memory_refines (calls : List MemoryCall) (call : MemoryCall) :
    ((calls.foldl Memory.after .new).step call).1 =
      (mapStep (calls.foldl mapAfter fun _ => 0) call).1 := by
  have hcontent : (calls.foldl Memory.after .new).content = calls.foldl mapAfter fun _ => 0 := by
    induction calls using List.reverseRecOn with
    | nil =>
      funext i
      rw [List.foldl_nil, List.foldl_nil, Memory.content, Memory.new, List.getD_eq_getElem?_getD,
        List.getElem?_replicate]
      split <;> rfl
    | append_singleton calls call ih =>
      rw [List.foldl_concat, List.foldl_concat, ← ih]
      exact (step_content call).2
  rw [← hcontent]
  exact (step_content call).1

/-! ## How much is allocated -/

/-- What a call reaches of memory, and is charged for. -/
def MemoryCall.access : MemoryCall → MemoryAccess
  | .extend offset size | .write offset size _ | .read offset size _ => ⟨offset, size⟩

theorem length_after (call : MemoryCall) : (m.after call)._store.length =
    (m.extend call.access.offset call.access.length)._store.length := by
  cases call with
  | extend offset size => rfl
  | read offset size avoidCopy => rfl
  | write offset size value =>
    unfold Memory.after Memory.step Memory.write MemoryCall.access
    dsimp only
    split
    · next hsize => rw [Memory.extend, if_pos hsize]
    · next hsize =>
      have hle : offset + size ≤ (m.extend offset size)._store.length := le_length_extend hsize
      split
      · rfl
      · next hvalue =>
        rw [if_neg hle.not_gt]
        simp only [List.length_append, List.length_take, List.length_drop]
        omega

/-- **The containers that hold so many words**, and at least one. -/
structure Holds (length words : ℕ) : Prop where
  containers : CONTAINER_SIZE ∣ length
  le : 32 * words ≤ length
  lt : length = CONTAINER_SIZE ∨ length < 32 * words + CONTAINER_SIZE

theorem Holds.extend {s : MemoryUsage} (h : Holds m._store.length s.memoryWordCount)
    (access : MemoryAccess) : Holds (m.extend access.offset access.length)._store.length
      (s.subMemUsage access).2.memoryWordCount := by
  have hwords : ceil (access.offset + access.length) 32 = 32 * MemoryUsage.words access := by
    unfold ceil MemoryUsage.words divCeil
    dsimp only
    split <;> omega
  have hle := h.le
  have hlt := h.lt
  unfold Memory.extend MemoryUsage.subMemUsage
  split
  · exact h
  · dsimp only
    rw [hwords]
    generalize MemoryUsage.words access = words
    -- the words count also where the price does not rise
    have hcount : ∀ s' : ℕ × MemoryUsage, s' = (if words ≤ s.memoryWordCount then (0, s) else
        if s.highestMemCost < MemoryUsage.cost words then
          (MemoryUsage.cost words - s.highestMemCost, ⟨words, MemoryUsage.cost words⟩)
        else (MemoryUsage.cost words, { s with memoryWordCount := words })) →
        s'.2.memoryWordCount = max s.memoryWordCount words := by
      rintro s' rfl
      split
      · next hfits => exact (max_eq_left hfits).symm
      · next hgrows =>
        rw [max_eq_right (not_le.1 hgrows).le]
        split <;> rfl
    rw [hcount _ rfl]
    split
    · have hdiv := divCeil_mul (32 * words - m._store.length) (b := CONTAINER_SIZE) (by decide)
      rw [List.length_append, List.length_replicate]
      exact ⟨dvd_add h.containers (dvd_mul_left _ _), by omega, by omega⟩
    · exact ⟨h.containers, by omega, by omega⟩

/-- **Memory is paid for**: over every sequence of calls, each of them charged
with `subMemUsage`, what is allocated are the fewest containers that hold the
words charged. -/
theorem store_holds_charged (calls : List MemoryCall) :
    Holds (calls.foldl Memory.after .new)._store.length
      (calls.foldl (fun s call => (MemoryUsage.subMemUsage s call.access).2)
        MemoryUsage.new).memoryWordCount := by
  induction calls using List.reverseRecOn with
  | nil => exact ⟨⟨1, List.length_replicate⟩, Nat.zero_le _, .inl List.length_replicate⟩
  | append_singleton calls call ih =>
    rw [List.foldl_concat, List.foldl_concat, length_after]
    exact ih.extend call.access

end TsEthereum.Evm
