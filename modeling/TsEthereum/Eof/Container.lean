import TsEthereum.Common.Bytes
import TsEthereum.Common.Except

/-!
# EOF containers

A container is a header and a body, both read from a stream. The header gives the sizes of the
sections; the body has the types of the code sections, the code sections, the containers within
and the data. `getCodePosition` is where a code section begins in the whole container.
-/

namespace TsEthereum

namespace Eof

/-- `EOFErrorMessage`, as far as it is thrown, and what JavaScript throws of itself. -/
inductive EOFError where
  | OUT_OF_BOUNDS
  | VERIFY_UINT
  | MAX_SIZE
  | MIN_SIZE
  | MAX_CODE_SECTIONS
  | KIND_DATA
  | INVALID_TYPE_SIZE
  | MIN_CODE_SECTIONS
  | TYPE_SECTIONS
  | CODE_SECTION_SIZE
  | CONTAINER_SECTION_SIZE
  | CONTAINER_SECTION_MIN
  | CODE0_INPUTS
  | CODE0_OUTPUTS
  | MAX_INPUTS
  | MAX_OUTPUTS
  | MAX_STACK_HEIGHT_LIMIT
  | DANGLING_BYTES
  | UNREACHABLE_CODE
  | STACK_UNDERFLOW
  | STACK_OVERFLOW
  | INVALID_RETURNING_SECTION
  | INVALID_OPCODE
  | INVALID_RJUMP
  | OPCODE_INTERMEDIATES_OOB
  | INVALID_CALL_TARGET
  | INVALID_CALLF_RETURNING
  | INVALID_JUMPF
  | INVALID_STACK_HEIGHT
  | INVALID_EOF_CREATE_TARGET
  | INVALID_RETURN_CONTRACT_TARGET
  | CONTAINER_DOUBLE_TYPE
  | CONTAINER_TYPE_ERROR
  | DATALOADN_OOB
  | UNSTABLE_STACK
  | INVALID_TERMINATOR
  | MAX_STACK_HEIGHT_VIOLATION
  | RETURNING_NO_RETURN
  | UNREACHABLE_CODE_SECTIONS
  | UNREACHABLE_CONTAINER_SECTIONS
  /-- What `DataView` throws of a read out of bounds. -/
  | rangeError
  /-- What reading a property of `undefined` throws. -/
  | typeError
  deriving DecidableEq

/-- A throw under a condition. -/
def throwIf (p : Prop) [Decidable p] (e : EOFError) : Except EOFError Unit :=
  if p then .error e else .ok ()

@[simp] theorem throwIf_eq_ok {p : Prop} [Decidable p] {e : EOFError} :
    throwIf p e = .ok () ↔ ¬ p := by
  rw [throwIf]
  split
  · next h => simp [h]
  · next h => simp [h]

/-! ## Streams -/

/-- **`StreamReader`**. -/
structure StreamReader where
  data : Bytes
  ptr : ℕ

namespace StreamReader

def readBytes (stream : StreamReader) (amount : ℕ) : Except EOFError (Bytes × StreamReader) :=
  if stream.data.length < stream.ptr + amount then .error .OUT_OF_BOUNDS
  else .ok ((stream.data.drop stream.ptr).take amount, { stream with ptr := stream.ptr + amount })

def readUint (stream : StreamReader) : Except EOFError (ℕ × StreamReader) :=
  (stream.readBytes 1).map fun read => (ofBigEndian read.1, read.2)

def readUint16 (stream : StreamReader) : Except EOFError (ℕ × StreamReader) :=
  (stream.readBytes 2).map fun read => (ofBigEndian read.1, read.2)

def verifyUint (stream : StreamReader) (expect : ℕ) : Except EOFError StreamReader := do
  let (value, stream) ← stream.readUint
  throwIf (value ≠ expect) .VERIFY_UINT
  return stream

/-- Sizes in a row, none too small. -/
def readSizes (least : ℕ) (e : EOFError) : ℕ → StreamReader →
    Except EOFError (List ℕ × StreamReader)
  | 0, stream => .ok ([], stream)
  | count + 1, stream => do
    let (size, stream) ← stream.readUint16
    throwIf (size < least) e
    let (sizes, stream) ← readSizes least e count stream
    return (size :: sizes, stream)

/-- Sections in a row, of these sizes. -/
def readSections : List ℕ → StreamReader → Except EOFError (List Bytes × StreamReader)
  | [], stream => .ok ([], stream)
  | size :: sizes, stream => do
    let (code, stream) ← stream.readBytes size
    let (codes, stream) ← readSections sizes stream
    return (code :: codes, stream)

end StreamReader

/-! ## The header -/

/-- **`EOFHeader`**. -/
structure EOFHeader where
  typeSize : ℕ
  codeSizes : List ℕ
  containerSizes : List ℕ
  dataSize : ℕ
  buffer : Bytes

/-- The containers' sizes, when the section is there, and the kind of the next. -/
def readContainerSizes (stream : StreamReader) (nextSection : ℕ) :
    Except EOFError (List ℕ × ℕ × StreamReader) :=
  if nextSection = 0x03 then do
    let (containerSectionSize, stream) ← stream.readUint16
    throwIf (containerSectionSize < 0x0001) .CONTAINER_SECTION_SIZE
    throwIf (0x0100 < containerSectionSize) .CONTAINER_SECTION_SIZE
    let (containerSizes, stream) ←
      StreamReader.readSizes 1 .CONTAINER_SECTION_MIN containerSectionSize stream
    let (nextSection, stream) ← stream.readUint
    return (containerSizes, nextSection, stream)
  else .ok ([], nextSection, stream)

/-- **The constructor of `EOFHeader`**. -/
def EOFHeader.ofBytes (input : Bytes) : Except EOFError EOFHeader := do
  throwIf (49152 < input.length) .MAX_SIZE
  let stream ← (StreamReader.mk input 0).verifyUint 0xef
  let stream ← stream.verifyUint 0x00
  let stream ← stream.verifyUint 0x01
  throwIf (input.length < 15) .MIN_SIZE
  let stream ← stream.verifyUint 0x01
  let (typeSize, stream) ← stream.readUint16
  throwIf (typeSize < 0x0004) .INVALID_TYPE_SIZE
  throwIf (typeSize % 4 ≠ 0) .INVALID_TYPE_SIZE
  throwIf (0x1000 < typeSize) .MAX_CODE_SECTIONS
  let stream ← stream.verifyUint 0x02
  let (codeSize, stream) ← stream.readUint16
  throwIf (codeSize < 0x0001) .MIN_CODE_SECTIONS
  throwIf (codeSize ≠ typeSize / 4) .TYPE_SECTIONS
  let (codeSizes, stream) ← StreamReader.readSizes 1 .CODE_SECTION_SIZE codeSize stream
  let (nextSection, stream) ← stream.readUint
  let (containerSizes, nextSection, stream) ← readContainerSizes stream nextSection
  throwIf (nextSection ≠ 0x04) .KIND_DATA
  let (dataSize, stream) ← stream.readUint16
  let stream ← stream.verifyUint 0x00
  return { typeSize, codeSizes, containerSizes, dataSize, buffer := input.take stream.ptr }

/-- **`getCodePosition`**: where a code section begins. -/
def EOFHeader.getCodePosition (header : EOFHeader) (codeSection : ℕ) : ℕ :=
  header.buffer.length + header.typeSize + (header.codeSizes.take codeSection).sum

/-! ## The body -/

structure TypeSection where
  inputs : ℕ
  outputs : ℕ
  maxStackHeight : ℕ

/-- The type sections, from the one numbered `i` on. -/
def readTypeSections : ℕ → ℕ → StreamReader → Except EOFError (List TypeSection × StreamReader)
  | _, 0, stream => .ok ([], stream)
  | i, count + 1, stream => do
    let (inputs, stream) ← stream.readUint
    let (outputs, stream) ← stream.readUint
    let (maxStackHeight, stream) ← stream.readUint16
    throwIf (i = 0 ∧ inputs ≠ 0) .CODE0_INPUTS
    throwIf (i = 0 ∧ outputs ≠ 0x80) .CODE0_OUTPUTS
    throwIf (0x7f < inputs) .MAX_INPUTS
    throwIf (0x80 < outputs) .MAX_OUTPUTS
    throwIf (0x03ff < maxStackHeight) .MAX_STACK_HEIGHT_LIMIT
    let (typeSections, stream) ← readTypeSections (i + 1) count stream
    return (⟨inputs, outputs, maxStackHeight⟩ :: typeSections, stream)

inductive EOFContainerMode where
  | default
  | initMode
  | txInitMode
  deriving DecidableEq

/-- **`EOFBody`**. -/
structure EOFBody where
  typeSections : List TypeSection
  codeSections : List Bytes
  containerSections : List Bytes
  dataSection : Bytes
  txCallData : Option Bytes

/-- The data section, and what is left over as call data. -/
def readDataSection (stream : StreamReader) (dataSize : ℕ) (eofMode : EOFContainerMode)
    (dataSectionAllowedSmaller : Bool) : Except EOFError (Bytes × Option Bytes) :=
  if eofMode ≠ .initMode ∧ dataSectionAllowedSmaller = false then do
    let (dataSection, stream) ← stream.readBytes dataSize
    if eofMode = .default then do
      throwIf (stream.ptr ≠ stream.data.length) .DANGLING_BYTES
      return (dataSection, none)
    else return (dataSection, some (stream.data.drop stream.ptr))
  else do
    let dataSection := stream.data.drop stream.ptr
    throwIf (dataSize < dataSection.length) .DANGLING_BYTES
    return (dataSection, none)

/-- **The constructor of `EOFBody`**. -/
def EOFBody.ofBytes (buf : Bytes) (header : EOFHeader) (eofMode : EOFContainerMode)
    (dataSectionAllowedSmaller : Bool) : Except EOFError EOFBody := do
  let (typeSections, stream) ← readTypeSections 0 (header.typeSize / 4) ⟨buf, 0⟩
  let (codeSections, stream) ← StreamReader.readSections header.codeSizes stream
  let (containerSections, stream) ← StreamReader.readSections header.containerSizes stream
  let (dataSection, txCallData) ←
    readDataSection stream header.dataSize eofMode dataSectionAllowedSmaller
  return { typeSections, codeSections, containerSections, dataSection, txCallData }

/-- **`EOFContainer`**. -/
structure EOFContainer where
  header : EOFHeader
  body : EOFBody
  buffer : Bytes

/-- **The constructor of `EOFContainer`**. -/
def EOFContainer.ofBytes (buf : Bytes) (eofMode : EOFContainerMode)
    (dataSectionAllowedSmaller : Bool) : Except EOFError EOFContainer := do
  let header ← EOFHeader.ofBytes buf
  let body ← EOFBody.ofBytes (buf.drop header.buffer.length) header eofMode
    dataSectionAllowedSmaller
  return { header, body, buffer := buf }

/-! ## What a container is like -/

theorem readBytes_eq_ok {stream stream' : StreamReader} {amount : ℕ} {bytes : Bytes} :
    stream.readBytes amount = .ok (bytes, stream') ↔
      stream.ptr + amount ≤ stream.data.length ∧
        bytes = (stream.data.drop stream.ptr).take amount ∧
        stream' = { stream with ptr := stream.ptr + amount } := by
  rw [StreamReader.readBytes]
  split
  · next h =>
    constructor
    · rintro ⟨⟩
    · rintro ⟨hle, -⟩
      omega
  · next h =>
    constructor
    · intro heq
      obtain ⟨rfl, rfl⟩ := Prod.mk.inj (Except.ok.inj heq)
      exact ⟨by omega, rfl, rfl⟩
    · rintro ⟨-, rfl, rfl⟩
      rfl

theorem readUint_stream {stream stream' : StreamReader} {value : ℕ}
    (h : stream.readUint = .ok (value, stream')) :
    stream' = { stream with ptr := stream.ptr + 1 } := by
  obtain ⟨⟨bytes, stream''⟩, hread, heq⟩ := map_eq_ok h
  obtain ⟨-, rfl⟩ := Prod.mk.inj heq
  exact (readBytes_eq_ok.1 hread).2.2

theorem readUint16_stream {stream stream' : StreamReader} {value : ℕ}
    (h : stream.readUint16 = .ok (value, stream')) :
    stream' = { stream with ptr := stream.ptr + 2 } := by
  obtain ⟨⟨bytes, stream''⟩, hread, heq⟩ := map_eq_ok h
  obtain ⟨-, rfl⟩ := Prod.mk.inj heq
  exact (readBytes_eq_ok.1 hread).2.2

theorem readSizes_spec {least : ℕ} {e : EOFError} {count : ℕ} {stream stream' : StreamReader}
    {sizes : List ℕ} (h : StreamReader.readSizes least e count stream = .ok (sizes, stream')) :
    sizes.length = count ∧ ∀ size ∈ sizes, least ≤ size := by
  induction count generalizing stream sizes with
  | zero =>
    obtain ⟨rfl, -⟩ := Prod.mk.inj (Except.ok.inj h)
    refine ⟨rfl, ?_⟩
    intro size hmem
    cases hmem
  | succ count ih =>
    obtain ⟨⟨size, stream₁⟩, -, h⟩ := bind_eq_ok.1 h
    obtain ⟨hleast, h⟩ := check_bind_eq_ok.1 h
    obtain ⟨⟨sizes', stream₂⟩, hrest, h⟩ := bind_eq_ok.1 h
    obtain ⟨rfl, rfl⟩ := Prod.mk.inj (Except.ok.inj h)
    obtain ⟨hlen, hsizes⟩ := ih hrest
    refine ⟨congrArg (· + 1) hlen, ?_⟩
    intro size' hmem
    rcases List.mem_cons.1 hmem with rfl | hmem
    · have := throwIf_eq_ok.1 hleast
      omega
    · exact hsizes size' hmem

theorem readSections_spec {sizes : List ℕ} {stream stream' : StreamReader} {codes : List Bytes}
    (h : StreamReader.readSections sizes stream = .ok (codes, stream')) :
    codes.map List.length = sizes ∧
      ∀ i code, codes[i]? = some code → ∀ k, k < code.length →
        stream.data[stream.ptr + (sizes.take i).sum + k]? = code[k]? := by
  induction sizes generalizing stream codes with
  | nil =>
    obtain ⟨rfl, -⟩ := Prod.mk.inj (Except.ok.inj h)
    refine ⟨rfl, ?_⟩
    intro i code hcode
    cases hcode
  | cons size sizes ih =>
    obtain ⟨⟨first, stream₁⟩, hread, h⟩ := bind_eq_ok.1 h
    obtain ⟨⟨rest, stream₂⟩, hrest, h⟩ := bind_eq_ok.1 h
    obtain ⟨rfl, rfl⟩ := Prod.mk.inj (Except.ok.inj h)
    obtain ⟨hle, rfl, rfl⟩ := readBytes_eq_ok.1 hread
    obtain ⟨hlengths, hbytes⟩ := ih hrest
    constructor
    · rw [List.map_cons, hlengths, List.length_take, List.length_drop]
      congr 1
      omega
    · intro i code hcode k hk
      cases i with
      | zero =>
        obtain rfl := Option.some.inj hcode
        rw [List.length_take] at hk
        rw [List.getElem?_take_of_lt (by omega), List.getElem?_drop, List.take_zero, List.sum_nil]
        rfl
      | succ i =>
        rw [← hbytes i code hcode k hk, List.take_succ_cons, List.sum_cons]
        congr 1
        dsimp only
        omega

/-- **What the type sections are**: the first has no inputs and does not return, none is too high,
and four bytes are read for each. -/
theorem readTypeSections_spec {i count : ℕ} {stream stream' : StreamReader}
    {typeSections : List TypeSection}
    (h : readTypeSections i count stream = .ok (typeSections, stream')) :
    stream' = { stream with ptr := stream.ptr + 4 * count } ∧
      (∀ typeSection ∈ typeSections, typeSection.maxStackHeight ≤ 1023) ∧
      (i = 0 → ∀ typeSection, typeSections[0]? = some typeSection →
        typeSection.inputs = 0 ∧ typeSection.outputs = 0x80) := by
  induction count generalizing i stream typeSections with
  | zero =>
    obtain ⟨rfl, rfl⟩ := Prod.mk.inj (Except.ok.inj h)
    refine ⟨rfl, ?_, ?_⟩
    · intro typeSection hmem
      cases hmem
    · intro _ typeSection hget
      cases hget
  | succ count ih =>
    obtain ⟨⟨inputs, stream₁⟩, hinputs, h⟩ := bind_eq_ok.1 h
    obtain ⟨⟨outputs, stream₂⟩, houtputs, h⟩ := bind_eq_ok.1 h
    obtain ⟨⟨maxStackHeight, stream₃⟩, hheight, h⟩ := bind_eq_ok.1 h
    simp only [check_bind_eq_ok, throwIf_eq_ok] at h
    -- the two checks in the middle are of the bounds of inputs and outputs
    obtain ⟨hzeroInputs, hzeroOutputs, -, -, hlimit, h⟩ := h
    obtain ⟨⟨rest, stream₄⟩, hrest, h⟩ := bind_eq_ok.1 h
    obtain ⟨rfl, rfl⟩ := Prod.mk.inj (Except.ok.inj h)
    obtain rfl := readUint_stream hinputs
    obtain rfl := readUint_stream houtputs
    obtain rfl := readUint16_stream hheight
    obtain ⟨hstream, hheights, -⟩ := ih hrest
    refine ⟨?_, ?_, ?_⟩
    · rw [hstream]
      congr 1
      dsimp only
      omega
    · intro typeSection hmem
      rcases List.mem_cons.1 hmem with rfl | hmem
      · dsimp only
        omega
      · exact hheights typeSection hmem
    · intro hzero typeSection hget
      obtain rfl := Option.some.inj hget
      dsimp only
      omega

/-- **What a container that is read is like**, as far as its code goes. -/
structure EOFContainer.WellFormed (container : EOFContainer) : Prop where
  /-- A code section is there in the whole container, from its position on. -/
  bytes : ∀ (i : ℕ) (code : Bytes), container.body.codeSections[i]? = some code →
    ∀ k, k < code.length →
    container.buffer[container.header.getCodePosition i + k]? = code[k]?
  /-- It has the size that the header gives, and is not empty. -/
  nonempty : ∀ (i : ℕ) (code : Bytes), container.body.codeSections[i]? = some code → 0 < code.length
  codeSections : container.body.codeSections.length = container.header.codeSizes.length
  sections : 0 < container.header.codeSizes.length
  maxStackHeight : ∀ typeSection ∈ container.body.typeSections, typeSection.maxStackHeight ≤ 1023
  first : ∀ typeSection, container.body.typeSections[0]? = some typeSection →
    typeSection.inputs = 0 ∧ typeSection.outputs = 0x80

theorem ofBytes_header {input : Bytes} {header : EOFHeader}
    (h : EOFHeader.ofBytes input = .ok header) :
    header.typeSize % 4 = 0 ∧ 0 < header.codeSizes.length ∧
      ∀ size ∈ header.codeSizes, 1 ≤ size := by
  rw [EOFHeader.ofBytes] at h
  obtain ⟨_, -, h⟩ := bind_eq_ok.1 h
  obtain ⟨_, -, h⟩ := bind_eq_ok.1 h
  obtain ⟨_, -, h⟩ := bind_eq_ok.1 h
  obtain ⟨_, -, h⟩ := bind_eq_ok.1 h
  obtain ⟨_, -, h⟩ := bind_eq_ok.1 h
  obtain ⟨_, -, h⟩ := bind_eq_ok.1 h
  obtain ⟨⟨typeSize, _⟩, -, h⟩ := bind_eq_ok.1 h
  obtain ⟨_, -, h⟩ := bind_eq_ok.1 h
  obtain ⟨_, hfour, h⟩ := bind_eq_ok.1 h
  obtain ⟨_, -, h⟩ := bind_eq_ok.1 h
  obtain ⟨_, -, h⟩ := bind_eq_ok.1 h
  obtain ⟨⟨codeSize, _⟩, -, h⟩ := bind_eq_ok.1 h
  obtain ⟨_, hleast, h⟩ := bind_eq_ok.1 h
  obtain ⟨_, -, h⟩ := bind_eq_ok.1 h
  obtain ⟨⟨codeSizes, _⟩, hsizes, h⟩ := bind_eq_ok.1 h
  obtain ⟨⟨nextSection, _⟩, -, h⟩ := bind_eq_ok.1 h
  obtain ⟨⟨containerSizes, _, _⟩, -, h⟩ := bind_eq_ok.1 h
  obtain ⟨_, -, h⟩ := bind_eq_ok.1 h
  obtain ⟨⟨dataSize, _⟩, -, h⟩ := bind_eq_ok.1 h
  obtain ⟨_, -, h⟩ := bind_eq_ok.1 h
  obtain rfl := Except.ok.inj h
  obtain ⟨hlen, hsizes⟩ := readSizes_spec hsizes
  have hleast := throwIf_eq_ok.1 hleast
  refine ⟨not_not.1 (throwIf_eq_ok.1 hfour), ?_, hsizes⟩
  dsimp only
  omega

theorem wellFormed_ofBytes {buf : Bytes} {eofMode : EOFContainerMode} {smaller : Bool}
    {container : EOFContainer} (h : EOFContainer.ofBytes buf eofMode smaller = .ok container) :
    container.WellFormed := by
  rw [EOFContainer.ofBytes] at h
  obtain ⟨header, hheader, h⟩ := bind_eq_ok.1 h
  obtain ⟨body, hbody, h⟩ := bind_eq_ok.1 h
  obtain rfl := Except.ok.inj h
  obtain ⟨hfour, hsections, hsizes⟩ := ofBytes_header hheader
  rw [EOFBody.ofBytes] at hbody
  obtain ⟨⟨typeSections, stream₁⟩, htypes, hbody⟩ := bind_eq_ok.1 hbody
  obtain ⟨⟨codeSections, stream₂⟩, hcodes, hbody⟩ := bind_eq_ok.1 hbody
  obtain ⟨⟨containerSections, stream₃⟩, -, hbody⟩ := bind_eq_ok.1 hbody
  obtain ⟨⟨dataSection, txCallData⟩, -, hbody⟩ := bind_eq_ok.1 hbody
  obtain rfl := Except.ok.inj hbody
  obtain ⟨rfl, hheights, hfirst⟩ := readTypeSections_spec htypes
  obtain ⟨hlengths, hbytes⟩ := readSections_spec hcodes
  refine ⟨?_, ?_, ?_, hsections, hheights, hfirst rfl⟩
  · intro i code hcode k hk
    rw [← hbytes i code hcode k hk, List.getElem?_drop, EOFHeader.getCodePosition]
    congr 1
    dsimp only
    omega
  · intro i code hcode
    have hmem : code.length ∈ codeSections.map List.length :=
      List.mem_map_of_mem (List.mem_of_getElem? hcode)
    rw [hlengths] at hmem
    exact hsizes _ hmem
  · exact (List.length_map List.length).symm.trans (congrArg List.length hlengths)

end Eof

end TsEthereum
