import Mathlib.Logic.Function.Basic
import TsEthereum.Common.JsMap
import TsEthereum.Eof.Container
import TsEthereum.Eof.Opcodes

/-!
# The validation of EOF code

`validateOpcodes` goes once over every code section. It keeps the least and the greatest height that
the stack may have before an instruction: a jump forward widens them, a jump backward has to find
them as they are. It marks the bytes that are immediates and those that are jumped to, and no byte
may be both.
-/

namespace TsEthereum

namespace Eof

inductive ContainerSectionType where
  | initCode
  | deploymentCode
  | runtimeCode
  deriving DecidableEq

/-- What is there, or a throw. -/
def orThrow {α : Type} (value : Option α) (e : EOFError) : Except EOFError α :=
  match value with
  | some value => .ok value
  | none => .error e

@[simp] theorem orThrow_eq_ok {α : Type} {value : Option α} {e : EOFError} {a : α} :
    orThrow value e = .ok a ↔ value = some a := by
  cases value with
  | some value => simp [orThrow]
  | none => simp [orThrow]

/-- `getUint16`. -/
def readUint16 (code : Bytes) (start : ℕ) : Option ℕ :=
  match code[start]?, code[start + 1]? with
  | some high, some low => some (256 * high.toNat + low.toNat)
  | _, _ => none

/-- `getInt16`. -/
def readInt16 (code : Bytes) (start : ℕ) : Option ℤ :=
  (readUint16 code start).map fun value => if value < 0x8000 then value else value - 0x10000

/-! ## Bytes that are jumped to -/

/-- A call of `addJump` or of `addIntermediate`. -/
inductive Mark where
  | jump (location : ℕ)
  | intermediate (location : ℕ)

/-- `intermediateBytes` and `jumpLocations`. -/
structure Marks where
  intermediateBytes : List ℕ
  jumpLocations : List ℕ

/-- **`addJump`** and **`addIntermediate`**. -/
def Marks.add (marks : Marks) : Mark → Except EOFError Marks
  | .jump location => do
    throwIf (location ∈ marks.intermediateBytes) .INVALID_RJUMP
    return { marks with jumpLocations := location :: marks.jumpLocations }
  | .intermediate location => do
    throwIf (location ∈ marks.jumpLocations) .INVALID_RJUMP
    return { marks with intermediateBytes := location :: marks.intermediateBytes }

/-- What an instruction's immediates say of jumps: where to, what is marked, and how far the pointer
is moved over a table. -/
structure Jumps where
  targets : List ℕ
  marks : List Mark
  skipped : ℕ

/-- A target within the code. -/
def checkTarget (code : Bytes) (target : ℤ) (e : EOFError) : Except EOFError ℕ := do
  throwIf (target < 0 ∨ (code.length : ℤ) ≤ target) e
  return target.toNat

/-- An entry of a jump table. -/
def tableTarget (code : Bytes) (ptr newPc i : ℕ) : Except EOFError ℕ := do
  let offset ← orThrow (readInt16 code (ptr + 2 + i * 2)) .rangeError
  checkTarget code (offset + newPc) .OPCODE_INTERMEDIATES_OOB

/-- What is marked of an entry. -/
def tableMarks (ptr : ℕ) (entry : ℕ × ℕ) : List Mark :=
  [.intermediate (ptr + 2 + entry.1 * 2), .intermediate (ptr + 2 + entry.1 * 2 + 1), .jump entry.2]

/-- **The jumps of an instruction**: RJUMP and RJUMPI, or RJUMPV. -/
def readJumps (code : Bytes) (ptr opcode : ℕ) : Except EOFError Jumps :=
  if opcode = 0xe0 ∨ opcode = 0xe1 then do
    let offset ← orThrow (readInt16 code (ptr + 1)) .rangeError
    let target ← checkTarget code (offset + ptr + 3) .INVALID_RJUMP
    return ⟨[target], [.jump target], 0⟩
  else if opcode = 0xe2 then
    match code[ptr + 1]? with
    -- without a table's size the pointer is no number, and the loop ends with this opcode
    | none => .error .INVALID_TERMINATOR
    | some size => do
      let tableSize := size.toNat + 1
      throwIf (code.length ≤ ptr + tableSize * 2 + 2) .OPCODE_INTERMEDIATES_OOB
      let newPc := ptr + 2 + tableSize * 2
      let targets ← (List.range tableSize).mapM (tableTarget code ptr newPc)
      return ⟨targets, ((List.range tableSize).zip targets).flatMap (tableMarks ptr) ++
        [.intermediate (ptr + 1)], 2 * tableSize + 1⟩
  else return ⟨[], [], 0⟩

/-! ## What an opcode checks -/

/-- The heights after an instruction, whether it returns, and the sections that it goes to. -/
structure Checked where
  minStackNext : ℕ
  maxStackNext : ℕ
  returning : Bool
  reached : List ℕ

/-- **CALLF**. -/
def checkCallf (container : EOFContainer) (code : Bytes) (ptr minStack maxStack : ℕ) :
    Except EOFError Checked := do
  let target ← orThrow (readUint16 code (ptr + 1)) .rangeError
  throwIf (container.header.codeSizes.length ≤ target) .INVALID_CALL_TARGET
  let typeSection ← orThrow container.body.typeSections[target]? .typeError
  throwIf (typeSection.outputs = 0x80) .INVALID_CALLF_RETURNING
  throwIf (minStack < typeSection.inputs) .STACK_UNDERFLOW
  throwIf (1024 < maxStack + typeSection.maxStackHeight - typeSection.inputs) .STACK_OVERFLOW
  return ⟨minStack + typeSection.outputs - typeSection.inputs,
    maxStack + typeSection.outputs - typeSection.inputs, false, [target]⟩

/-- **JUMPF**, out of a section of this type. -/
def checkJumpf (container : EOFContainer) (current : TypeSection) (code : Bytes)
    (ptr minStack maxStack : ℕ) : Except EOFError Checked := do
  let target ← orThrow (readUint16 code (ptr + 1)) .rangeError
  throwIf (container.header.codeSizes.length ≤ target) .INVALID_CALL_TARGET
  let typeSection ← orThrow container.body.typeSections[target]? .typeError
  throwIf (current.outputs < typeSection.outputs ∧ typeSection.outputs ≠ 0x80) .INVALID_JUMPF
  throwIf (current.outputs = 0x80 ∧ typeSection.outputs ≤ 0x7f) .INVALID_RETURNING_SECTION
  if typeSection.outputs = 0x80 then throwIf (minStack < typeSection.inputs) .STACK_UNDERFLOW
  else
    throwIf (¬ (minStack = maxStack ∧
      maxStack = current.outputs + typeSection.inputs - typeSection.outputs)) .INVALID_STACK_HEIGHT
  throwIf (1024 < maxStack + typeSection.maxStackHeight - typeSection.inputs) .STACK_OVERFLOW
  return ⟨minStack, maxStack, decide (typeSection.outputs ≠ 0x80), [target]⟩

/-- **RETF**. -/
def checkRetf (current : TypeSection) (minStack maxStack : ℕ) : Except EOFError Checked := do
  throwIf (¬ (minStack = maxStack ∧ maxStack = current.outputs)) .INVALID_STACK_HEIGHT
  return ⟨minStack, maxStack, true, []⟩

/-- **DUPN**, **SWAPN** and **EXCHANGE** look this deep, when their immediate is there. -/
def immediateDepth (code : Bytes) (ptr opcode : ℕ) : ℕ :=
  match opcode, code[ptr + 1]? with
  | 0xe6, some toDup => toDup.toNat + 1
  | 0xe7, some toSwap => toSwap.toNat + 2
  | 0xe8, exchangeRaw =>
    let exchange := (exchangeRaw.map UInt8.toNat).getD 0
    (exchange / 16 + 1) + (exchange % 16 + 1) + 1
  | _, _ => 0

/-- **What an opcode checks**, of the heights before it and after it. -/
def checkOpcode (container : EOFContainer) (mode : ContainerSectionType) (current : TypeSection)
    (code : Bytes) (ptr opcode minStack maxStack minStackNext maxStackNext : ℕ) :
    Except EOFError Checked :=
  if opcode = 0xe3 then checkCallf container code ptr minStack maxStack
  else if opcode = 0xe5 then checkJumpf container current code ptr minStack maxStack
  else if opcode = 0xe4 then checkRetf current minStack maxStack
  else do
    throwIf (minStack < immediateDepth code ptr opcode) .STACK_UNDERFLOW
    if opcode = 0xd1 then do
      let dataTarget ← orThrow (readUint16 code (ptr + 1)) .rangeError
      throwIf (container.header.dataSize < dataTarget + 32) .DATALOADN_OOB
    else throwIf ((opcode = 0x00 ∨ opcode = 0xf3) ∧ mode = .initCode) .CONTAINER_TYPE_ERROR
    return ⟨minStackNext, maxStackNext, false, []⟩

/-- A container is of one type. -/
def markContainer (containerTypeMap : JsMap ℕ ContainerSectionType) (target : ℕ)
    (sectionType : ContainerSectionType) :
    Except EOFError (JsMap ℕ ContainerSectionType) := do
  throwIf (∃ known, containerTypeMap.get target = some known ∧ known ≠ sectionType)
    .CONTAINER_DOUBLE_TYPE
  return containerTypeMap.set target sectionType

/-- **EOFCREATE** and **RETURNCONTRACT** say what a container is. -/
def checkContainer (container : EOFContainer) (mode : ContainerSectionType) (code : Bytes)
    (ptr opcode : ℕ) (containerTypeMap : JsMap ℕ ContainerSectionType) :
    Except EOFError (JsMap ℕ ContainerSectionType) :=
  if opcode = 0xec then
    match code[ptr + 1]? with
    -- the immediate is out of bounds, and this is found further down
    | none => .ok containerTypeMap
    | some target => do
      throwIf (container.header.containerSizes.length ≤ target.toNat) .INVALID_EOF_CREATE_TARGET
      markContainer containerTypeMap target.toNat .initCode
  else if opcode = 0xee then do
    throwIf (mode ≠ .initCode) .CONTAINER_TYPE_ERROR
    match code[ptr + 1]? with
    | none => .ok containerTypeMap
    | some target => do
      throwIf (container.header.containerSizes.length ≤ target.toNat)
        .INVALID_RETURN_CONTRACT_TARGET
      markContainer containerTypeMap target.toNat .deploymentCode
  else .ok containerTypeMap

/-! ## A code section -/

/-- `stackHeightMin` and `stackHeightMax`: there are both or none. -/
abbrev StackHeights : Type := ℕ → Option (ℕ × ℕ)

/-- What the pass over a code section keeps. -/
structure SectionState where
  ptr : ℕ
  lastOpcode : ℕ
  sectionHasReturningOpcode : Bool
  marks : Marks
  reachableOpcodes : List ℕ
  stackHeights : StackHeights
  maxStackHeight : ℕ
  containerTypeMap : JsMap ℕ ContainerSectionType
  reachableSections : List ℕ

/-- **A successor**: reached backwards it has these heights; forwards its heights are widened. -/
def joinSuccessor (next minStackNext maxStackNext : ℕ) (heights : StackHeights) (successor : ℕ) :
    Except EOFError StackHeights := do
  throwIf (successor < next ∧ heights successor ≠ some (minStackNext, maxStackNext)) .UNSTABLE_STACK
  match heights successor with
  | none => return Function.update heights successor (some (minStackNext, maxStackNext))
  | some (least, greatest) =>
    return Function.update heights successor
      (some (min least minStackNext, max greatest maxStackNext))

/-- The instructions after this one, as far as the stack goes. -/
def successorsOf (targets : List ℕ) (terminating : Bool) (opcode next : ℕ) : List ℕ :=
  targets ++ if terminating = false ∧ opcode ≠ 0xe0 then [next] else []

/-- **One instruction.** -/
def validateInstruction (container : EOFContainer) (mode : ContainerSectionType)
    (opcodeNumbers : ℕ → Bool) (current : TypeSection) (code : Bytes) (st : SectionState) :
    Except EOFError SectionState := do
  throwIf (st.ptr ∉ st.reachableOpcodes) .UNREACHABLE_CODE
  let (minStack, maxStack) ← orThrow (st.stackHeights st.ptr) .UNREACHABLE_CODE
  let opcode ← orThrow (code[st.ptr]?.map UInt8.toNat) .typeError
  let delta ← orThrow (stackDelta opcode) .typeError
  throwIf (minStack < delta.inputs) .STACK_UNDERFLOW
  throwIf (1024 < maxStack - delta.inputs + delta.outputs) .STACK_OVERFLOW
  throwIf (current.outputs = 0x80 ∧ opcode = 0xe4) .INVALID_RETURNING_SECTION
  throwIf (opcodeNumbers opcode = false) .INVALID_OPCODE
  let jumps ← readJumps code st.ptr opcode
  throwIf (opcode = 0xe0 ∧ st.ptr + 3 ∉ jumps.targets ++ st.reachableOpcodes ∧
    st.ptr + 3 < code.length) .UNREACHABLE_CODE
  let checked ← checkOpcode container mode current code st.ptr opcode minStack maxStack
    (minStack - delta.inputs + delta.outputs) (maxStack - delta.inputs + delta.outputs)
  let containerTypeMap ← checkContainer container mode code st.ptr opcode st.containerTypeMap
  let last := st.ptr + jumps.skipped + delta.intermediates
  let marks ← (jumps.marks ++ (List.range delta.intermediates).map fun i =>
    Mark.intermediate (st.ptr + jumps.skipped + (i + 1))).foldlM Marks.add st.marks
  throwIf (code.length ≤ last) .OPCODE_INTERMEDIATES_OOB
  let stackHeights ← (successorsOf jumps.targets delta.terminating opcode (last + 1)).foldlM
    (joinSuccessor (last + 1) checked.minStackNext checked.maxStackNext) st.stackHeights
  return {
    ptr := last + 1
    lastOpcode := opcode
    sectionHasReturningOpcode := st.sectionHasReturningOpcode || checked.returning
    marks
    reachableOpcodes := (if delta.terminating then [] else [last + 1]) ++ jumps.targets ++
      st.reachableOpcodes
    stackHeights
    maxStackHeight := max checked.maxStackNext st.maxStackHeight
    containerTypeMap
    reachableSections := checked.reached ++ st.reachableSections }

/-- **The loop over a code section**: every turn goes on by a byte at least. -/
def validateInstructions (container : EOFContainer) (mode : ContainerSectionType)
    (opcodeNumbers : ℕ → Bool) (current : TypeSection) (code : Bytes) :
    ℕ → SectionState → Except EOFError SectionState
  | fuel, st =>
    if st.ptr < code.length then
      match fuel with
      | 0 => .error .rangeError
      | fuel + 1 => do
        let st ← validateInstruction container mode opcodeNumbers current code st
        validateInstructions container mode opcodeNumbers current code fuel st
    else .ok st

/-- What the pass begins with. -/
def SectionState.initial (current : TypeSection)
    (containerTypeMap : JsMap ℕ ContainerSectionType) : SectionState where
  ptr := 0
  lastOpcode := 0
  sectionHasReturningOpcode := false
  marks := ⟨[], []⟩
  reachableOpcodes := [0]
  stackHeights := Function.update (fun _ => none) 0 (some (current.inputs, current.inputs))
  maxStackHeight := current.inputs
  containerTypeMap
  reachableSections := []

def terminatingOpcodes : List ℕ := [0x00, 0xf3, 0xfd, 0xfe, 0xee, 0xe4, 0xe5, 0xe0]

/-- **A code section.** -/
def validateSection (container : EOFContainer) (mode : ContainerSectionType)
    (opcodeNumbers : ℕ → Bool) (containerTypeMap : JsMap ℕ ContainerSectionType)
    (codeSection : ℕ) (code : Bytes) : Except EOFError SectionState := do
  let current ← orThrow container.body.typeSections[codeSection]? .typeError
  let st ← validateInstructions container mode opcodeNumbers current code code.length
    (SectionState.initial current containerTypeMap)
  throwIf (st.lastOpcode ∉ terminatingOpcodes.filter opcodeNumbers) .INVALID_TERMINATOR
  throwIf (current.maxStackHeight ≠ st.maxStackHeight) .MAX_STACK_HEIGHT_VIOLATION
  throwIf (1024 < st.maxStackHeight) .MAX_STACK_HEIGHT_LIMIT
  throwIf (st.sectionHasReturningOpcode = false ∧ current.outputs ≠ 0x80) .RETURNING_NO_RETURN
  return st

/-! ## A container -/

/-- **`opcodeNumbers`**: the active opcodes and INVALID, without those that EOF code may not
have. -/
def opcodeNumbers (activeOpcodes : ℕ → Bool) (opcode : ℕ) : Bool :=
  (activeOpcodes opcode || opcode == 0xfe) &&
    decide (opcode ∉ [0x38, 0x39, 0x5a, 0x3b, 0x3c, 0x3f, 0xf2, 0xff, 0x56, 0x57, 0x58, 0xf0, 0xf5])

/-- The code sections, from the one numbered `codeSection` on: what containers are, and the
sections that each goes to. -/
def validateSections (container : EOFContainer) (mode : ContainerSectionType)
    (opcodeNumbers : ℕ → Bool) : ℕ → List Bytes → JsMap ℕ ContainerSectionType →
      Except EOFError (JsMap ℕ ContainerSectionType × List (List ℕ))
  | _, [], containerTypeMap => .ok (containerTypeMap, [])
  | codeSection, code :: codes, containerTypeMap => do
    let st ← validateSection container mode opcodeNumbers containerTypeMap codeSection code
    let (containerTypeMap, reachableSections) ←
      validateSections container mode opcodeNumbers (codeSection + 1) codes st.containerTypeMap
    return (containerTypeMap, st.reachableSections :: reachableSections)

/-- The sections that are reached, of those that are still to be checked. -/
def reachSections (reachableSections : List (List ℕ)) : ℕ → List ℕ → List ℕ → List ℕ
  | 0, _, sectionAccumulator => sectionAccumulator
  | _, [], sectionAccumulator => sectionAccumulator
  | fuel + 1, checked :: toCheck, sectionAccumulator =>
    let found := ((reachableSections[checked]?).getD []).dedup.filter
      fun checkSection => checkSection ∉ sectionAccumulator
    reachSections reachableSections fuel (found ++ toCheck) (found ++ sectionAccumulator)

/-- **`validateOpcodes`**. -/
def validateOpcodes (container : EOFContainer) (activeOpcodes : ℕ → Bool)
    (mode : ContainerSectionType) : Except EOFError (JsMap ℕ ContainerSectionType) := do
  let (containerTypeMap, reachableSections) ← validateSections container mode
    (opcodeNumbers activeOpcodes) 0 container.body.codeSections JsMap.empty
  let sectionAccumulator :=
    reachSections reachableSections (container.header.codeSizes.length + 1) [0] [0]
  throwIf (sectionAccumulator.length ≠ container.header.codeSizes.length) .UNREACHABLE_CODE_SECTIONS
  throwIf (containerTypeMap.keys.length ≠ container.header.containerSizes.length)
    .UNREACHABLE_CONTAINER_SECTIONS
  return containerTypeMap

/-- **`validateEOF`**, of containers that are nested no deeper than this. -/
def validateEOF (activeOpcodes : ℕ → Bool) : ℕ → Bytes → ContainerSectionType → EOFContainerMode →
    Except EOFError EOFContainer
  | 0, _, _, _ => .error .rangeError
  | depth + 1, input, containerMode, eofMode => do
    let container ← EOFContainer.ofBytes input eofMode (containerMode = .deploymentCode)
    let containerMap ← validateOpcodes container activeOpcodes containerMode
    let _ ← container.body.containerSections.zipIdx.mapM fun subContainer =>
      validateEOF activeOpcodes depth subContainer.1
        ((containerMap.get subContainer.2).getD .runtimeCode) .default
    return container

end Eof

end TsEthereum
