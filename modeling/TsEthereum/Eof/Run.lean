import TsEthereum.Eof.Verify

/-!
# Runs of EOF code

A run goes on by the handler of the opcode at its program counter, which counts in the whole
container. It keeps the stack, the return stack and, for the proofs alone, the sections that it is
in with the height each was entered at, less its inputs. A step takes what a handler pushes as it
comes, and ends where the code ends the run or throws.
-/

namespace TsEthereum

namespace Eof

/-- A code section that is run: above `base` are its inputs and what it has pushed. -/
structure CallFrame where
  codeSection : ℕ
  base : ℕ

/-- **The state of a run**: the top of the stack is the first item, and the current section the
first frame. -/
structure RunState where
  programCounter : ℕ
  stack : List ℕ
  returnStack : List ℕ
  frames : List CallFrame

namespace RunState

def push (s : RunState) (value : ℕ) : Option RunState :=
  if 1024 ≤ s.stack.length then none else some { s with stack := value :: s.stack }

def dup (s : RunState) (position : ℕ) : Option RunState :=
  if s.stack.length < position then none
  else if 1024 ≤ s.stack.length then none
  else some { s with stack := s.stack.getD (position - 1) 0 :: s.stack }

/-- `stack.exchange`, of positions from the top. -/
def exchange (s : RunState) (swap1 swap2 : ℕ) : Option RunState :=
  if s.stack.length ≤ swap1 ∨ s.stack.length ≤ swap2 then none
  else some { s with
    stack := (s.stack.set swap1 (s.stack.getD swap2 0)).set swap2 (s.stack.getD swap1 0) }

def swap (s : RunState) (position : ℕ) : Option RunState := s.exchange 0 position

/-- The program counter is moved on. -/
def skip (s : RunState) (bytes : ℕ) : RunState :=
  { s with programCounter := s.programCounter + bytes }

end RunState

/-- The check before a section is gone to. -/
def enterable (typeSection : TypeSection) (stackItems : ℕ) : Bool :=
  decide (stackItems ≤ 1024 - typeSection.maxStackHeight + typeSection.inputs)

/-- A section, as it is entered. -/
def entered (typeSection : TypeSection) (codeSection stackItems : ℕ) : CallFrame :=
  ⟨codeSection, stackItems - typeSection.inputs⟩

/-- **What a handler does**, once the program counter has been moved over the opcode. -/
def runHandler (container : EOFContainer) (pushed : ℕ) (s : RunState) : Handler → Option RunState
  | .values popped pushes immediates =>
    if s.stack.length < popped then none
    else
      let s := { s.skip immediates with stack := s.stack.drop popped }
      if pushes then s.push pushed else some s
  | .dup position => s.dup position
  | .swap position => s.swap position
  | .halt _ _ => none
  | .rjump => do
    let rjumpDest ← readInt16 container.buffer s.programCounter
    return { s with programCounter := ((s.programCounter : ℤ) + 2 + rjumpDest).toNat }
  | .rjumpi =>
    match s.stack with
    | [] => none
    | cond :: stack =>
      if 0 < cond then do
        let rjumpDest ← readInt16 container.buffer s.programCounter
        return { s with
          stack
          programCounter := ((s.programCounter : ℤ) + rjumpDest + 2).toNat }
      else some { s.skip 2 with stack }
  | .rjumpv =>
    match container.buffer[s.programCounter]?, s.stack with
    | some jumptableEntries, jumptableCase :: stack =>
      let jumptableSize := (jumptableEntries.toNat + 1) * 2
      if jumptableCase ≤ jumptableEntries.toNat then do
        let rjumpDest ← readInt16 container.buffer (s.programCounter + 1 + jumptableCase * 2)
        return { s with
          stack
          programCounter := ((s.programCounter : ℤ) + 1 + jumptableSize + rjumpDest).toNat }
      else some { s.skip (1 + jumptableSize) with stack }
    | _, _ => none
  | .callf => do
    let sectionTarget ← readUint16 container.buffer s.programCounter
    let typeSection ← container.body.typeSections[sectionTarget]?
    if enterable typeSection s.stack.length = false then none
    else if 1024 ≤ s.returnStack.length then none
    else some { s with
      programCounter := container.header.getCodePosition sectionTarget
      returnStack := (s.programCounter + 2) :: s.returnStack
      frames := entered typeSection sectionTarget s.stack.length :: s.frames }
  | .retf =>
    match s.returnStack with
    | [] => none
    | newPc :: returnStack =>
      some { s with programCounter := newPc, returnStack, frames := s.frames.tail }
  | .jumpf => do
    let sectionTarget ← readUint16 container.buffer s.programCounter
    let typeSection ← container.body.typeSections[sectionTarget]?
    if enterable typeSection s.stack.length = false then none
    else some { s with
      programCounter := container.header.getCodePosition sectionTarget
      frames := entered typeSection sectionTarget s.stack.length :: s.frames.tail }
  | .dupn => do
    let toDup ← container.buffer[s.programCounter]?
    (s.skip 1).dup (toDup.toNat + 1)
  | .swapn => do
    let toSwap ← container.buffer[s.programCounter]?
    (s.skip 1).swap (toSwap.toNat + 1)
  | .exchange => do
    let toExchange ← container.buffer[s.programCounter]?
    let n := toExchange.toNat / 16 + 1
    let m := toExchange.toNat % 16 + 1
    (s.skip 1).exchange n (n + m)

/-- **A step**, of an opcode that is active. -/
def step (container : EOFContainer) (activeOpcodes : ℕ → Bool) (pushed : ℕ) (s : RunState) :
    Option RunState := do
  let byte ← container.buffer[s.programCounter]?
  if activeOpcodes byte.toNat = false then none
  else
    let handler ← handler byte.toNat
    runHandler container pushed (s.skip 1) handler

/-- How a run starts: in section 0, with nothing on the stack. -/
def RunState.start (container : EOFContainer) : RunState :=
  ⟨container.header.getCodePosition 0, [], [], [⟨0, 0⟩]⟩

/-- **The states of a run**, whatever its handlers push. -/
inductive Reachable (container : EOFContainer) (activeOpcodes : ℕ → Bool) : RunState → Prop
  | start : Reachable container activeOpcodes (RunState.start container)
  | step {s s' : RunState} {pushed : ℕ} : Reachable container activeOpcodes s →
    step container activeOpcodes pushed s = some s' → Reachable container activeOpcodes s'

/-! ## Safety -/

/-- How far the opcode and its immediates go. -/
def Handler.size (code : Bytes) (k : ℕ) : Handler → Option ℕ
  | .values _ _ immediates => some (1 + immediates)
  | .dup _ | .swap _ | .retf => some 1
  | .halt _ immediates => some (1 + immediates)
  | .rjump | .rjumpi | .callf | .jumpf => some 3
  | .rjumpv => code[k + 1]?.map fun size => 2 + (size.toNat + 1) * 2
  | .dupn | .swapn | .exchange => some 2

/-- **An instruction starts here**: the code is read one instruction after the other. -/
inductive IsInstruction (code : Bytes) : ℕ → Prop
  | first : IsInstruction code 0
  | next {k size : ℕ} {byte : UInt8} {handler' : Handler} : IsInstruction code k →
    code[k]? = some byte → handler byte.toNat = some handler' → handler'.size code k = some size →
    IsInstruction code (k + size)

/-- How many items from the top a handler looks at, or hands over as inputs. -/
def Handler.reads (container : EOFContainer) (code : Bytes) (k : ℕ) : Handler → ℕ
  | .values popped _ _ => popped
  | .dup position => position
  | .swap position => position + 1
  | .halt popped _ => popped
  | .rjump | .retf => 0
  | .rjumpi | .rjumpv => 1
  | .callf | .jumpf => (((readUint16 code (k + 1)).bind fun target =>
      container.body.typeSections[target]?).map TypeSection.inputs).getD 0
  | .dupn => immediateDepth code k 0xe6
  | .swapn => immediateDepth code k 0xe7
  | .exchange => immediateDepth code k 0xe8

/-- How many it takes off, and how many it puts on. -/
def Handler.delta : Handler → ℕ × ℕ
  | .values popped pushes _ => (popped, pushes.toNat)
  | .dup _ | .dupn => (0, 1)
  | .halt popped _ => (popped, 0)
  | .rjumpi | .rjumpv => (1, 0)
  | .swap _ | .rjump | .callf | .retf | .jumpf | .swapn | .exchange => (0, 0)

/-- **A state is safe**: it is at an instruction of the current section, which does not look below
the section's base and does not push past 1024 items; and it returns to somewhere, and with the
section's outputs. -/
def Safe (container : EOFContainer) (s : RunState) : Prop :=
  ∃ (frame : CallFrame) (rest : List CallFrame) (code : Bytes) (typeSection : TypeSection) (k : ℕ)
    (byte : UInt8) (handler' : Handler),
    s.frames = frame :: rest ∧ container.body.codeSections[frame.codeSection]? = some code ∧
    container.body.typeSections[frame.codeSection]? = some typeSection ∧
    s.programCounter = container.header.getCodePosition frame.codeSection + k ∧
    IsInstruction code k ∧ container.buffer[s.programCounter]? = some byte ∧ code[k]? = some byte ∧
    handler byte.toNat = some handler' ∧
    frame.base + handler'.reads container code k ≤ s.stack.length ∧
    s.stack.length + handler'.delta.2 ≤ 1024 + handler'.delta.1 ∧
    (handler' = .retf →
      s.returnStack ≠ [] ∧ s.stack.length = frame.base + typeSection.outputs)

end Eof

end TsEthereum
