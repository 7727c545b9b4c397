import TsEthereum.Eof.Certificate

/-!
# Validated code is safe

A run of a container whose sections have certified heights stays where they are right: in every
section it is in, the items above the section's base are between the two heights of the instruction
that it is at or that it returns to (`RunInv`). So no instruction looks below the base, the stack
has room for what a section may come to, and a section that returns does so with its outputs.
-/

namespace TsEthereum

namespace Eof

section

variable {container : EOFContainer} {mode : ContainerSectionType} {activeOpcodes : ℕ → Bool}

/-! ## Immediates -/

variable {i : ℕ} {code : Bytes} {k : ℕ}

theorem readUint16_buffer (hwf : container.WellFormed)
    (hcode : container.body.codeSections[i]? = some code) (hk : k + 1 < code.length) :
    readUint16 container.buffer (container.header.getCodePosition i + k) = readUint16 code k := by
  rw [readUint16, readUint16, hwf.bytes i code hcode k (by omega), Nat.add_assoc,
    hwf.bytes i code hcode (k + 1) hk]

theorem readInt16_buffer (hwf : container.WellFormed)
    (hcode : container.body.codeSections[i]? = some code) (hk : k + 1 < code.length) :
    readInt16 container.buffer (container.header.getCodePosition i + k) = readInt16 code k := by
  rw [readInt16, readInt16, readUint16_buffer hwf hcode hk]

/-! ## What a turn has checked -/

section

variable {current : TypeSection} {heights : StackHeights} {turn : Turn}

theorem Turn.Right.plain (h : turn.Right container mode current code heights k)
    (hopcode : turn.opcode < 0xe3 ∨ 0xe5 < turn.opcode) :
    immediateDepth code k turn.opcode ≤ turn.minStack ∧
      turn.checked.minStackNext = turn.minStack - turn.delta.inputs + turn.delta.outputs ∧
      turn.checked.maxStackNext = turn.maxStack - turn.delta.inputs + turn.delta.outputs := by
  have hchecked := h.checked
  rw [checkOpcode, if_neg (by omega), if_neg (by omega), if_neg (by omega)] at hchecked
  obtain ⟨hdepth, hchecked⟩ := check_bind_eq_ok.1 hchecked
  have hdepth := not_lt.1 (throwIf_eq_ok.1 hdepth)
  dsimp only at hchecked
  split at hchecked
  · obtain ⟨dataTarget, -, hchecked⟩ := bind_eq_ok.1 hchecked
    obtain ⟨-, hchecked⟩ := check_bind_eq_ok.1 hchecked
    rw [← Except.ok.inj hchecked]
    exact ⟨hdepth, rfl, rfl⟩
  · obtain ⟨-, hchecked⟩ := check_bind_eq_ok.1 hchecked
    rw [← Except.ok.inj hchecked]
    exact ⟨hdepth, rfl, rfl⟩

theorem Turn.Right.retf (h : turn.Right container mode current code heights k)
    (hopcode : turn.opcode = 0xe4) :
    current.outputs ≠ 0x80 ∧ turn.minStack = current.outputs ∧ turn.maxStack = current.outputs := by
  have hchecked := h.checked
  rw [checkOpcode, if_neg (by omega), if_neg (by omega), if_pos hopcode] at hchecked
  obtain ⟨hheight, -⟩ := check_bind_eq_ok.1 hchecked
  obtain ⟨hsame, houtputs⟩ := not_not.1 (throwIf_eq_ok.1 hheight)
  exact ⟨fun hno => h.returning ⟨hno, hopcode⟩, hsame.trans houtputs, houtputs⟩

theorem Turn.Right.callf (h : turn.Right container mode current code heights k)
    (hopcode : turn.opcode = 0xe3) :
    ∃ target typeSection, readUint16 code (k + 1) = some target ∧
      target < container.header.codeSizes.length ∧
      container.body.typeSections[target]? = some typeSection ∧ typeSection.outputs ≠ 0x80 ∧
      typeSection.inputs ≤ turn.minStack ∧
      turn.checked.minStackNext = turn.minStack + typeSection.outputs - typeSection.inputs ∧
      turn.checked.maxStackNext = turn.maxStack + typeSection.outputs - typeSection.inputs := by
  have hchecked := h.checked
  rw [checkOpcode, if_pos hopcode, checkCallf] at hchecked
  obtain ⟨target, htarget, hchecked⟩ := bind_eq_ok.1 hchecked
  obtain ⟨hinside, hchecked⟩ := check_bind_eq_ok.1 hchecked
  obtain ⟨typeSection, htype, hchecked⟩ := bind_eq_ok.1 hchecked
  obtain ⟨hreturns, hchecked⟩ := check_bind_eq_ok.1 hchecked
  obtain ⟨hinputs, hchecked⟩ := check_bind_eq_ok.1 hchecked
  obtain ⟨-, hchecked⟩ := check_bind_eq_ok.1 hchecked
  rw [← Except.ok.inj hchecked]
  exact ⟨target, typeSection, orThrow_eq_ok.1 htarget, not_le.1 (throwIf_eq_ok.1 hinside),
    orThrow_eq_ok.1 htype, throwIf_eq_ok.1 hreturns, not_lt.1 (throwIf_eq_ok.1 hinputs), rfl, rfl⟩

/-- What is checked of JUMPF: the section that is gone to does not return, or it returns what this
one has to. -/
theorem Turn.Right.jumpf (h : turn.Right container mode current code heights k)
    (hopcode : turn.opcode = 0xe5) :
    ∃ target typeSection, readUint16 code (k + 1) = some target ∧
      target < container.header.codeSizes.length ∧
      container.body.typeSections[target]? = some typeSection ∧
      typeSection.inputs ≤ turn.minStack ∧
      (typeSection.outputs = 0x80 ∨ current.outputs ≠ 0x80 ∧
        turn.minStack = turn.maxStack ∧
        turn.maxStack + typeSection.outputs = current.outputs + typeSection.inputs) := by
  have hchecked := h.checked
  rw [checkOpcode, if_neg (by omega), if_pos hopcode, checkJumpf] at hchecked
  obtain ⟨target, htarget, hchecked⟩ := bind_eq_ok.1 hchecked
  obtain ⟨hinside, hchecked⟩ := check_bind_eq_ok.1 hchecked
  obtain ⟨typeSection, htype, hchecked⟩ := bind_eq_ok.1 hchecked
  obtain ⟨houtputs, hchecked⟩ := check_bind_eq_ok.1 hchecked
  obtain ⟨hreturning, hchecked⟩ := check_bind_eq_ok.1 hchecked
  have houtputs := throwIf_eq_ok.1 houtputs
  have hreturning := throwIf_eq_ok.1 hreturning
  refine ⟨target, typeSection, orThrow_eq_ok.1 htarget, not_le.1 (throwIf_eq_ok.1 hinside),
    orThrow_eq_ok.1 htype, ?_⟩
  dsimp only at hchecked
  split at hchecked
  · next hno =>
    obtain ⟨hheight, -⟩ := check_bind_eq_ok.1 hchecked
    exact ⟨not_lt.1 (throwIf_eq_ok.1 hheight), .inl hno⟩
  · next hreturns =>
    obtain ⟨hheight, -⟩ := check_bind_eq_ok.1 hchecked
    obtain ⟨hsame, hexpected⟩ := not_not.1 (throwIf_eq_ok.1 hheight)
    have hle : typeSection.outputs ≤ current.outputs := by
      by_contra hlt
      exact houtputs ⟨not_le.1 hlt, hreturns⟩
    have hcurrent : current.outputs ≠ 0x80 := by
      intro hno
      exact hreturning ⟨hno, by omega⟩
    exact ⟨by omega, .inr ⟨hcurrent, hsame, by omega⟩⟩

end

/-! ## The invariant of a run -/

/-- **A place in a section that heights are right about**, for this many items. -/
def At (container : EOFContainer) (mode : ContainerSectionType) (frame : CallFrame) (pc len : ℕ) :
    Prop :=
  ∃ (code : Bytes) (current : TypeSection) (starts : ℕ → Prop) (heights : StackHeights) (k a b : ℕ),
    container.body.codeSections[frame.codeSection]? = some code ∧
    container.body.typeSections[frame.codeSection]? = some current ∧
    Certified container mode current code starts heights ∧ starts k ∧
    pc = container.header.getCodePosition frame.codeSection + k ∧ heights k = some (a, b) ∧
    frame.base + a ≤ len ∧ len ≤ frame.base + b ∧ frame.base + current.maxStackHeight ≤ 1024

/-- **The sections that are run**: the outermost does not return; one that was called and returns
does so to a place that is right for what it leaves. -/
inductive Frames (container : EOFContainer) (mode : ContainerSectionType) :
    List CallFrame → List ℕ → Prop
  | outermost {frame : CallFrame} {typeSection : TypeSection} :
    container.body.typeSections[frame.codeSection]? = some typeSection →
    typeSection.outputs = 0x80 → Frames container mode [frame] []
  | called {frame parent : CallFrame} {rest : List CallFrame} {pc : ℕ} {pcs : List ℕ}
      {typeSection : TypeSection} :
    container.body.typeSections[frame.codeSection]? = some typeSection →
    (typeSection.outputs ≠ 0x80 → At container mode parent pc (frame.base + typeSection.outputs)) →
    Frames container mode (parent :: rest) pcs →
    Frames container mode (frame :: parent :: rest) (pc :: pcs)

/-- **The invariant of a run.** -/
structure RunInv (container : EOFContainer) (mode : ContainerSectionType) (s : RunState) :
    Prop where
  current : ∃ frame rest, s.frames = frame :: rest ∧
    At container mode frame s.programCounter s.stack.length
  frames : Frames container mode s.frames s.returnStack

/-- The sections have certified heights. -/
def AllCertified (container : EOFContainer) (mode : ContainerSectionType) : Prop :=
  ∀ (i : ℕ) (code : Bytes), container.body.codeSections[i]? = some code →
    ∃ current starts heights, container.body.typeSections[i]? = some current ∧
      Certified container mode current code starts heights

theorem at_entered (hwf : container.WellFormed) (hall : AllCertified container mode)
    {typeSection : TypeSection} {len : ℕ} (htarget : i < container.header.codeSizes.length)
    (htype : container.body.typeSections[i]? = some typeSection)
    (hinputs : typeSection.inputs ≤ len) (hfits : enterable typeSection len = true) :
    At container mode (entered typeSection i len) (container.header.getCodePosition i) len := by
  obtain ⟨code, hcode⟩ : ∃ code, container.body.codeSections[i]? = some code :=
    ⟨_, List.getElem?_eq_getElem (by rw [hwf.codeSections]; exact htarget)⟩
  obtain ⟨current, starts, heights, hcurrent, hcertified⟩ := hall i code hcode
  obtain rfl := Option.some.inj (htype.symm.trans hcurrent)
  obtain ⟨hstart, a, b, hheights, hleast, hgreatest⟩ := hcertified.first
  have hlimit := hwf.maxStackHeight typeSection (List.mem_of_getElem? htype)
  have hfits := of_decide_eq_true hfits
  refine ⟨code, typeSection, starts, heights, 0, a, b, hcode, hcurrent, hcertified, hstart, rfl,
    hheights, ?_, ?_, ?_⟩ <;>
  · rw [entered]
    dsimp only
    omega

theorem runInv_start (hwf : container.WellFormed) (hall : AllCertified container mode)
    {typeSection : TypeSection} (htype : container.body.typeSections[0]? = some typeSection)
    (hcode : container.body.codeSections[0]? = some code) :
    RunInv container mode (RunState.start container) := by
  obtain ⟨hinputs, houtputs⟩ := hwf.first typeSection htype
  have hlimit := hwf.maxStackHeight typeSection (List.mem_of_getElem? htype)
  have hlt : 0 < container.header.codeSizes.length := by
    rw [← hwf.codeSections]
    exact (List.getElem?_eq_some_iff.1 hcode).1
  have hfits : enterable typeSection 0 = true := decide_eq_true (Nat.zero_le _)
  have hat : At container mode (entered typeSection 0 0) (container.header.getCodePosition 0) 0 :=
    at_entered hwf hall hlt htype (by omega) hfits
  refine ⟨⟨⟨0, 0⟩, [], rfl, ?_⟩, .outermost htype houtputs⟩
  rw [entered, Nat.zero_sub] at hat
  exact hat

/-! ## A step -/

/-- **Where a run is**: its section with certified heights, the instruction that it is at, and what
the table says of the handler. -/
structure Here (container : EOFContainer) (mode : ContainerSectionType) (s : RunState)
    (frame : CallFrame) (code : Bytes) (current : TypeSection) (starts : ℕ → Prop)
    (heights : StackHeights) (k : ℕ) (turn : Turn) (byte : UInt8) (handler' : Handler) : Prop where
  codeAt : container.body.codeSections[frame.codeSection]? = some code
  typeAt : container.body.typeSections[frame.codeSection]? = some current
  certified : Certified container mode current code starts heights
  instruction : IsInstruction code k
  certifiedAt : CertifiedAt container mode current code starts heights k turn
  pc : s.programCounter = container.header.getCodePosition frame.codeSection + k
  least : frame.base + turn.minStack ≤ s.stack.length
  greatest : s.stack.length ≤ frame.base + turn.maxStack
  fits : frame.base + current.maxStackHeight ≤ 1024
  byteAt : code[k]? = some byte
  opcode : byte.toNat = turn.opcode
  handlerAt : handler byte.toNat = some handler'
  agrees : turn.delta.Agrees turn.opcode handler'

theorem RunInv.here {s : RunState} (h : RunInv container mode s) :
    ∃ frame rest code current starts heights k turn byte handler', s.frames = frame :: rest ∧
      Here container mode s frame code current starts heights k turn byte handler' := by
  obtain ⟨⟨frame, rest, hframes, code, current, starts, heights, k, a, b, hcode, hcurrent,
    hcertified, hstart, hpc, hheights, hleast, hgreatest, hfits⟩, -⟩ := h
  obtain ⟨hinstruction, turn, hturn⟩ := hcertified.instruction k hstart
  obtain ⟨byte, handler', hbyte, hopcode, hhandler, hagrees⟩ := hturn.right.handler
  obtain ⟨rfl, rfl⟩ :=
    Prod.mk.inj (Option.some.inj (hheights.symm.trans hturn.right.heights))
  exact ⟨frame, rest, code, current, starts, heights, k, turn, byte, handler', hframes, hcode,
    hcurrent, hcertified, hinstruction, hturn, hpc, hleast, hgreatest, hfits, hbyte, hopcode,
    hhandler, hagrees⟩

section

variable {s s' : RunState} {frame : CallFrame} {rest : List CallFrame} {current : TypeSection}
variable {starts : ℕ → Prop} {heights : StackHeights} {turn : Turn} {byte : UInt8}
variable {handler' : Handler}

theorem Here.room (h : Here container mode s frame code current starts heights k turn byte handler')
    {q : ℕ} (hq : q ∈ turn.successors k) :
    frame.base + turn.checked.maxStackNext ≤ 1024 := by
  obtain ⟨-, a, b, hheights, -, hgreatest⟩ := h.certifiedAt.room q hq
  have hbounded := h.certified.bounded q a b hheights
  have hfits := h.fits
  omega

theorem Here.at_successor
    (h : Here container mode s frame code current starts heights k turn byte handler') {q len : ℕ}
    (hq : q ∈ turn.successors k) (hleast : frame.base + turn.checked.minStackNext ≤ len)
    (hgreatest : len ≤ frame.base + turn.checked.maxStackNext) :
    At container mode frame (container.header.getCodePosition frame.codeSection + q) len := by
  obtain ⟨hstart, a, b, hheights, ha, hb⟩ := h.certifiedAt.room q hq
  exact ⟨code, current, starts, heights, q, a, b, h.codeAt, h.typeAt, h.certified, hstart, rfl,
    hheights, by omega, by omega, h.fits⟩

theorem RunInv.goesOn (hinv : RunInv container mode s) (hframes : s.frames = frame :: rest)
    (h : Here container mode s frame code current starts heights k turn byte handler') {q : ℕ}
    (hq : q ∈ turn.successors k)
    (hpc : s'.programCounter = container.header.getCodePosition frame.codeSection + q)
    (hframes' : s'.frames = s.frames) (hreturns : s'.returnStack = s.returnStack)
    (hleast : frame.base + turn.checked.minStackNext ≤ s'.stack.length)
    (hgreatest : s'.stack.length ≤ frame.base + turn.checked.maxStackNext) :
    RunInv container mode s' := by
  refine ⟨⟨frame, rest, hframes'.trans hframes, ?_⟩, ?_⟩
  · rw [hpc]
    exact h.at_successor hq hleast hgreatest
  · rw [hframes', hreturns]
    exact hinv.frames

theorem next_mem (hgoes : turn.delta.terminating = false) (hopcode : turn.opcode ≠ 0xe0) :
    turn.next k ∈ turn.successors k := by
  rw [Turn.successors, successorsOf, if_pos ⟨hgoes, hopcode⟩]
  exact List.mem_append_right _ List.mem_cons_self

theorem target_mem {t : ℕ} (ht : t ∈ turn.jumps.targets) : t ∈ turn.successors k :=
  List.mem_append_left _ ht

theorem Turn.Right.skipped (h : turn.Right container mode current code heights k)
    (hopcode : turn.opcode < 0xe0 ∨ 0xe2 < turn.opcode) : turn.jumps = ⟨[], [], 0⟩ := by
  rcases readJumps_cases h.jumps with ⟨hjump, -⟩ | ⟨hjump, -⟩ | ⟨-, hjumps⟩
  · omega
  · omega
  · exact hjumps

/-! ## The handlers -/

theorem push_eq_some {value : ℕ} (h : s.push value = some s') :
    s' = { s with stack := value :: s.stack } := by
  rw [RunState.push] at h
  split at h
  · cases h
  · exact (Option.some.inj h).symm

theorem dup_eq_some {position : ℕ} (h : s.dup position = some s') :
    ∃ value, s' = { s with stack := value :: s.stack } := by
  rw [RunState.dup] at h
  split at h
  · cases h
  · split at h
    · cases h
    · exact ⟨_, (Option.some.inj h).symm⟩

theorem exchange_eq_some {swap1 swap2 : ℕ} (h : s.exchange swap1 swap2 = some s') :
    ∃ stack, s' = { s with stack } ∧ stack.length = s.stack.length := by
  rw [RunState.exchange] at h
  split at h
  · cases h
  · refine ⟨_, (Option.some.inj h).symm, ?_⟩
    rw [List.length_set, List.length_set]

theorem RunInv.plain (hinv : RunInv container mode s) (hframes : s.frames = frame :: rest)
    (h : Here container mode s frame code current starts heights k turn byte handler')
    (hopcode : turn.opcode < 0xe0 ∨ 0xe5 < turn.opcode) (hgoes : turn.delta.terminating = false)
    (hpc : s'.programCounter = s.programCounter + 1 + turn.delta.intermediates)
    (hframes' : s'.frames = s.frames) (hreturns : s'.returnStack = s.returnStack)
    (hlen : s'.stack.length = s.stack.length - turn.delta.inputs + turn.delta.outputs) :
    RunInv container mode s' := by
  obtain ⟨-, hmin, hmax⟩ := h.certifiedAt.right.plain (by omega)
  have hskipped := h.certifiedAt.right.skipped (by omega)
  have hinputs := h.certifiedAt.right.inputs
  have hleast := h.least
  have hgreatest := h.greatest
  have hposition := h.pc
  refine hinv.goesOn hframes h (next_mem hgoes (by omega)) ?_ hframes' hreturns (by omega)
    (by omega)
  rw [Turn.next, hskipped]
  dsimp only
  omega

theorem RunInv.values {popped : ℕ} {pushes : Bool} {immediates pushed : ℕ}
    (hinv : RunInv container mode s) (hframes : s.frames = frame :: rest)
    (h : Here container mode s frame code current starts heights k turn byte
      (.values popped pushes immediates))
    (hrun : runHandler container pushed (s.skip 1) (.values popped pushes immediates) = some s') :
    RunInv container mode s' := by
  obtain ⟨hdelta, hopcode⟩ := h.agrees
  rw [runHandler] at hrun
  split at hrun
  · cases hrun
  · dsimp only at hrun
    refine hinv.plain hframes h (by omega) (by rw [hdelta]) ?_ ?_ ?_ ?_ <;>
    · cases pushes with
      | true =>
        obtain rfl := push_eq_some hrun
        simp [hdelta, RunState.skip]
      | false =>
        obtain rfl := Option.some.inj hrun
        simp [hdelta, RunState.skip]

theorem RunInv.stackOps {pushed : ℕ} (hinv : RunInv container mode s)
    (hframes : s.frames = frame :: rest)
    (h : Here container mode s frame code current starts heights k turn byte handler')
    (hop : (∃ position, handler' = .dup position ∨ handler' = .swap position) ∨ handler' = .dupn ∨
      handler' = .swapn ∨ handler' = .exchange)
    (hrun : runHandler container pushed (s.skip 1) handler' = some s') :
    RunInv container mode s' := by
  have hagrees := h.agrees
  -- DUP and SWAP say their depth in the opcode, the others in an immediate
  rcases hop with ⟨position, rfl | rfl⟩ | rfl | rfl | rfl
  · obtain ⟨hdelta, hopcode⟩ := hagrees
    obtain ⟨value, rfl⟩ := dup_eq_some hrun
    refine hinv.plain hframes h (by omega) (by rw [hdelta]) ?_ rfl rfl ?_
    · rw [hdelta]
      rfl
    · have hinputs := h.certifiedAt.right.inputs
      have hleast := h.least
      rw [hdelta] at hinputs ⊢
      simp only [List.length_cons, RunState.skip]
      dsimp only at hinputs
      omega
  · obtain ⟨hdelta, hopcode⟩ := hagrees
    obtain ⟨stack, rfl, hlen⟩ := exchange_eq_some hrun
    refine hinv.plain hframes h (by omega) (by rw [hdelta]) ?_ rfl rfl ?_
    · rw [hdelta]
      rfl
    · have hinputs := h.certifiedAt.right.inputs
      have hleast := h.least
      rw [hdelta] at hinputs ⊢
      rw [RunState.skip] at hlen
      dsimp only at hinputs hlen ⊢
      omega
  · obtain ⟨hopcode, hdelta⟩ := hagrees
    obtain ⟨toDup, -, hrun⟩ := Option.bind_eq_some_iff.1 hrun
    obtain ⟨value, rfl⟩ := dup_eq_some hrun
    refine hinv.plain hframes h (by omega) (by rw [hdelta]) ?_ rfl rfl ?_
    · rw [hdelta]
      rfl
    · rw [hdelta]
      rfl
  · obtain ⟨hopcode, hdelta⟩ := hagrees
    obtain ⟨toSwap, -, hrun⟩ := Option.bind_eq_some_iff.1 hrun
    obtain ⟨stack, rfl, hlen⟩ := exchange_eq_some hrun
    refine hinv.plain hframes h (by omega) (by rw [hdelta]) ?_ rfl rfl ?_
    · rw [hdelta]
      rfl
    · rw [hdelta]
      exact hlen
  · obtain ⟨hopcode, hdelta⟩ := hagrees
    obtain ⟨toExchange, -, hrun⟩ := Option.bind_eq_some_iff.1 hrun
    obtain ⟨stack, rfl, hlen⟩ := exchange_eq_some hrun
    refine hinv.plain hframes h (by omega) (by rw [hdelta]) ?_ rfl rfl ?_
    · rw [hdelta]
      rfl
    · rw [hdelta]
      exact hlen

theorem Here.readInt16 (hwf : container.WellFormed)
    (h : Here container mode s frame code current starts heights k turn byte handler') {j : ℕ}
    (hj : k + j + 1 < code.length) :
    Eof.readInt16 container.buffer (s.programCounter + j) = Eof.readInt16 code (k + j) := by
  rw [h.pc, Nat.add_assoc]
  exact readInt16_buffer hwf h.codeAt hj

theorem Here.readUint16 (hwf : container.WellFormed)
    (h : Here container mode s frame code current starts heights k turn byte handler') {j : ℕ}
    (hj : k + j + 1 < code.length) :
    Eof.readUint16 container.buffer (s.programCounter + j) = Eof.readUint16 code (k + j) := by
  rw [h.pc, Nat.add_assoc]
  exact readUint16_buffer hwf h.codeAt hj

theorem Turn.Right.oneTarget (h : turn.Right container mode current code heights k)
    (hopcode : turn.opcode = 0xe0 ∨ turn.opcode = 0xe1) :
    ∃ (offset : ℤ) (t : ℕ), Eof.readInt16 code (k + 1) = some offset ∧ (t : ℤ) = offset + k + 3 ∧
      t ∈ turn.jumps.targets ∧ turn.jumps.skipped = 0 := by
  rcases readJumps_cases h.jumps with ⟨-, offset, t, hoffset, ht, -, hjumps⟩ | ⟨hno, -⟩ | ⟨hno, -⟩
  · rw [hjumps]
    exact ⟨offset, t, hoffset, ht, List.mem_cons_self, rfl⟩
  · omega
  · omega

theorem RunInv.rjump {pushed : ℕ} (hwf : container.WellFormed) (hinv : RunInv container mode s)
    (hframes : s.frames = frame :: rest)
    (h : Here container mode s frame code current starts heights k turn byte .rjump)
    (hrun : runHandler container pushed (s.skip 1) .rjump = some s') :
    RunInv container mode s' := by
  obtain ⟨hopcode, hdelta⟩ := h.agrees
  have hright := h.certifiedAt.right
  obtain ⟨-, hmin, hmax⟩ := hright.plain (by omega)
  obtain ⟨offset, t, hoffset, ht, hmem, hskipped⟩ := hright.oneTarget (.inl hopcode)
  have hinside := hright.inside
  rw [Turn.next, hdelta, hskipped] at hinside
  dsimp only at hinside
  obtain ⟨rjumpDest, hread, hrun⟩ := Option.bind_eq_some_iff.1 hrun
  obtain rfl := Option.some.inj hrun
  have hread : Eof.readInt16 container.buffer (s.programCounter + 1) = some rjumpDest := hread
  rw [h.readInt16 hwf (by omega), hoffset] at hread
  obtain rfl := Option.some.inj hread
  have hposition := h.pc
  have hleast := h.least
  have hgreatest := h.greatest
  rw [hdelta] at hmin hmax
  dsimp only at hmin hmax
  refine hinv.goesOn hframes h (target_mem hmem) ?_ rfl rfl ?_ ?_ <;>
  · rw [RunState.skip]
    dsimp only
    omega

theorem RunInv.rjumpi {pushed : ℕ} (hwf : container.WellFormed) (hinv : RunInv container mode s)
    (hframes : s.frames = frame :: rest)
    (h : Here container mode s frame code current starts heights k turn byte .rjumpi)
    (hrun : runHandler container pushed (s.skip 1) .rjumpi = some s') :
    RunInv container mode s' := by
  obtain ⟨hopcode, hdelta⟩ := h.agrees
  have hright := h.certifiedAt.right
  obtain ⟨-, hmin, hmax⟩ := hright.plain (by omega)
  obtain ⟨offset, t, hoffset, ht, hmem, hskipped⟩ := hright.oneTarget (.inr hopcode)
  have hinside := hright.inside
  have hnext : turn.next k ∈ turn.successors k := next_mem (by rw [hdelta]) (by omega)
  rw [Turn.next, hdelta, hskipped] at hinside hnext
  dsimp only at hinside hnext
  have hinputs := hright.inputs
  rw [hdelta] at hinputs hmin hmax
  dsimp only at hinputs hmin hmax
  have hposition := h.pc
  have hleast := h.least
  have hgreatest := h.greatest
  rw [runHandler] at hrun
  split at hrun
  · cases hrun
  · next cond stack hstack =>
    have hlen : s.stack.length = stack.length + 1 := by
      have hstack : s.stack = cond :: stack := hstack
      rw [hstack, List.length_cons]
    split at hrun
    · obtain ⟨rjumpDest, hread, hrun⟩ := Option.bind_eq_some_iff.1 hrun
      obtain rfl := Option.some.inj hrun
      have hread : Eof.readInt16 container.buffer (s.programCounter + 1) = some rjumpDest := hread
      rw [h.readInt16 hwf (by omega), hoffset] at hread
      obtain rfl := Option.some.inj hread
      refine hinv.goesOn hframes h (target_mem hmem) ?_ rfl rfl ?_ ?_ <;>
      · rw [RunState.skip]
        dsimp only
        omega
    -- the condition is zero
    · obtain rfl := Option.some.inj hrun
      refine hinv.goesOn hframes h hnext ?_ rfl rfl ?_ ?_ <;>
      · rw [RunState.skip, RunState.skip]
        dsimp only
        omega

theorem RunInv.rjumpv {pushed : ℕ} (hwf : container.WellFormed) (hinv : RunInv container mode s)
    (hframes : s.frames = frame :: rest)
    (h : Here container mode s frame code current starts heights k turn byte .rjumpv)
    (hrun : runHandler container pushed (s.skip 1) .rjumpv = some s') :
    RunInv container mode s' := by
  obtain ⟨hopcode, hdelta⟩ := h.agrees
  have hright := h.certifiedAt.right
  obtain ⟨-, hmin, hmax⟩ := hright.plain (by omega)
  obtain ⟨size, targets, hsays, hjumps⟩ : ∃ size targets, TableSays code k size targets ∧
      turn.jumps = ⟨targets, ((List.range (size.toNat + 1)).zip targets).flatMap (tableMarks k) ++
        [.intermediate (k + 1)], 2 * (size.toNat + 1) + 1⟩ := by
    rcases readJumps_cases hright.jumps with ⟨hno, -⟩ | ⟨-, hsays⟩ | ⟨hno, -⟩
    · omega
    · exact hsays
    · omega
  have hnext : turn.next k ∈ turn.successors k := next_mem (by rw [hdelta]) (by omega)
  rw [Turn.next, hdelta, hjumps] at hnext
  dsimp only at hnext
  have hinputs := hright.inputs
  rw [hdelta] at hinputs hmin hmax
  dsimp only at hinputs hmin hmax
  have hinside := hsays.inside
  have hposition := h.pc
  have hleast := h.least
  have hgreatest := h.greatest
  -- the byte that the run reads is the one that the validation read
  have hsize : container.buffer[s.programCounter + 1]? = some size := by
    rw [h.pc, Nat.add_assoc, hwf.bytes _ code h.codeAt (k + 1) (by omega)]
    exact hsays.sizeByte
  rw [runHandler] at hrun
  split at hrun
  · next jumptableEntries jumptableCase stack hentries hstack =>
    obtain rfl := Option.some.inj (hsize.symm.trans hentries)
    have hlen : s.stack.length = stack.length + 1 := by
      have hstack : s.stack = jumptableCase :: stack := hstack
      rw [hstack, List.length_cons]
    dsimp only at hrun
    split at hrun
    · next hcase =>
      obtain ⟨rjumpDest, hread, hrun⟩ := Option.bind_eq_some_iff.1 hrun
      obtain rfl := Option.some.inj hrun
      obtain ⟨offset, t, hoffset, ht, hmem⟩ := hsays.read jumptableCase hcase
      have hread : Eof.readInt16 container.buffer (s.programCounter + (2 + jumptableCase * 2)) =
          some rjumpDest := by
        rw [← hread, RunState.skip]
        congr 1
        dsimp only
        omega
      rw [h.readInt16 hwf (by omega), ← Nat.add_assoc, hoffset] at hread
      obtain rfl := Option.some.inj hread
      have hmem : t ∈ turn.jumps.targets := by
        rw [hjumps]
        exact hmem
      refine hinv.goesOn hframes h (target_mem hmem) ?_ rfl rfl ?_ ?_ <;>
      · rw [RunState.skip]
        dsimp only
        omega
    -- a case past the table goes on behind it
    · obtain rfl := Option.some.inj hrun
      refine hinv.goesOn hframes h hnext ?_ rfl rfl ?_ ?_ <;>
      · rw [RunState.skip, RunState.skip]
        dsimp only
        omega
  · cases hrun

theorem RunInv.callf {pushed : ℕ} (hwf : container.WellFormed) (hall : AllCertified container mode)
    (hinv : RunInv container mode s) (hframes : s.frames = frame :: rest)
    (h : Here container mode s frame code current starts heights k turn byte .callf)
    (hrun : runHandler container pushed (s.skip 1) .callf = some s') :
    RunInv container mode s' := by
  obtain ⟨hopcode, hdelta⟩ := h.agrees
  have hright := h.certifiedAt.right
  obtain ⟨target, typeSection, htarget, hlt, htype, houtputs, hinputs, hmin, hmax⟩ :=
    hright.callf hopcode
  have hskipped := hright.skipped (by omega)
  have hinside := hright.inside
  have hnext : turn.next k ∈ turn.successors k := next_mem (by rw [hdelta]) (by omega)
  rw [Turn.next, hdelta, hskipped] at hinside hnext
  dsimp only at hinside hnext
  have hposition := h.pc
  have hleast := h.least
  have hgreatest := h.greatest
  obtain ⟨sectionTarget, hread, hrun⟩ := Option.bind_eq_some_iff.1 hrun
  have hread : Eof.readUint16 container.buffer (s.programCounter + 1) = some sectionTarget := hread
  rw [h.readUint16 hwf (by omega), htarget] at hread
  obtain rfl := Option.some.inj hread
  obtain ⟨typeSection', htype', hrun⟩ := Option.bind_eq_some_iff.1 hrun
  obtain rfl := Option.some.inj (htype.symm.trans htype')
  split at hrun
  · cases hrun
  · next hfits =>
    split at hrun
    · cases hrun
    · obtain rfl := Option.some.inj hrun
      have hfits : enterable typeSection s.stack.length = true :=
        Bool.eq_true_of_not_eq_false hfits
      have hitems : typeSection.inputs ≤ s.stack.length := by omega
      refine ⟨⟨_, _, rfl, at_entered hwf hall hlt htype hitems hfits⟩, ?_⟩
      have hframes' : (s.skip 1).frames = frame :: rest := hframes
      dsimp only
      rw [hframes']
      -- the caller's place is right once the section has left its outputs
      refine .called htype (fun _ => ?_) ?_
      · have hat : At container mode frame
            (container.header.getCodePosition frame.codeSection + (k + 0 + 2 + 1))
            (s.stack.length - typeSection.inputs + typeSection.outputs) :=
          h.at_successor hnext (by omega) (by omega)
        have hpc : (s.skip 1).programCounter + 2 =
            container.header.getCodePosition frame.codeSection + (k + 0 + 2 + 1) := by
          rw [RunState.skip]
          dsimp only
          omega
        rw [hpc]
        exact hat
      · have hold := hinv.frames
        rw [hframes] at hold
        exact hold

theorem RunInv.retf {pushed : ℕ} (hinv : RunInv container mode s)
    (hframes : s.frames = frame :: rest)
    (h : Here container mode s frame code current starts heights k turn byte .retf)
    (hrun : runHandler container pushed (s.skip 1) .retf = some s') : RunInv container mode s' := by
  obtain ⟨hopcode, -⟩ := h.agrees
  obtain ⟨houtputs, hmin, hmax⟩ := h.certifiedAt.right.retf hopcode
  have hleast := h.least
  have hgreatest := h.greatest
  have hold := hinv.frames
  rw [hframes] at hold
  rw [runHandler] at hrun
  split at hrun
  · cases hrun
  · next newPc returnStack hreturn =>
    obtain rfl := Option.some.inj hrun
    have hreturn : s.returnStack = newPc :: returnStack := hreturn
    rw [hreturn] at hold
    cases hold with
    | @called _ parent parents _ _ _ htype hat hparents =>
      obtain rfl := Option.some.inj (h.typeAt.symm.trans htype)
      have hframes' : (s.skip 1).frames = frame :: parent :: parents := hframes
      have hplace := hat houtputs
      -- the bounds of RETF meet: the height is exact
      have hlen : s.stack.length = frame.base + current.outputs := by omega
      rw [← hlen] at hplace
      refine ⟨⟨parent, parents, ?_, hplace⟩, ?_⟩
      · dsimp only
        rw [hframes', List.tail_cons]
      · dsimp only
        rw [hframes', List.tail_cons]
        exact hparents

theorem RunInv.jumpf {pushed : ℕ} (hwf : container.WellFormed) (hall : AllCertified container mode)
    (hinv : RunInv container mode s) (hframes : s.frames = frame :: rest)
    (h : Here container mode s frame code current starts heights k turn byte .jumpf)
    (hrun : runHandler container pushed (s.skip 1) .jumpf = some s') :
    RunInv container mode s' := by
  obtain ⟨hopcode, hdelta⟩ := h.agrees
  have hright := h.certifiedAt.right
  obtain ⟨target, typeSection, htarget, hlt, htype, hinputs, hreturns⟩ := hright.jumpf hopcode
  have hskipped := hright.skipped (by omega)
  have hinside := hright.inside
  rw [Turn.next, hdelta, hskipped] at hinside
  dsimp only at hinside
  have hleast := h.least
  have hgreatest := h.greatest
  have hold := hinv.frames
  rw [hframes] at hold
  obtain ⟨sectionTarget, hread, hrun⟩ := Option.bind_eq_some_iff.1 hrun
  have hread : Eof.readUint16 container.buffer (s.programCounter + 1) = some sectionTarget := hread
  rw [h.readUint16 hwf (by omega), htarget] at hread
  obtain rfl := Option.some.inj hread
  obtain ⟨typeSection', htype', hrun⟩ := Option.bind_eq_some_iff.1 hrun
  obtain rfl := Option.some.inj (htype.symm.trans htype')
  split at hrun
  · cases hrun
  · next hfits =>
    obtain rfl := Option.some.inj hrun
    have hfits : enterable typeSection s.stack.length = true :=
      Bool.eq_true_of_not_eq_false hfits
    have hitems : typeSection.inputs ≤ s.stack.length := by omega
    refine ⟨⟨_, _, rfl, at_entered hwf hall hlt htype hitems hfits⟩, ?_⟩
    have hframes' : (s.skip 1).frames = frame :: rest := hframes
    have hreturnStack : (s.skip 1).returnStack = s.returnStack := rfl
    dsimp only
    rw [hframes', List.tail_cons, hreturnStack]
    generalize s.returnStack = returnStack at hold
    cases hold with
    -- the outermost frame does not return, nor may the section that it jumps to
    | outermost htype₀ hno =>
      obtain rfl := Option.some.inj (h.typeAt.symm.trans htype₀)
      rcases hreturns with hno' | ⟨hyes, -⟩
      · exact .outermost htype hno'
      · exact absurd hno hyes
    | called htype₀ hat hparents =>
      obtain rfl := Option.some.inj (h.typeAt.symm.trans htype₀)
      refine .called htype (fun hyes => ?_) hparents
      rcases hreturns with hno' | ⟨houtputs, hsame, hheight⟩
      · exact absurd hno' hyes
      · have hplace := hat houtputs
        -- it leaves for the caller what this section would have left
        have hleaves : (entered typeSection target s.stack.length).base + typeSection.outputs =
            frame.base + current.outputs := by
          rw [entered]
          dsimp only
          omega
        have hleaves' : (entered typeSection target (s.skip 1).stack.length).base +
            typeSection.outputs = frame.base + current.outputs := hleaves
        rw [hleaves']
        exact hplace

end

theorem step_cases {pushed : ℕ} {s s' : RunState}
    (h : step container activeOpcodes pushed s = some s') :
    ∃ (byte : UInt8) (handler' : Handler), container.buffer[s.programCounter]? = some byte ∧
      handler byte.toNat = some handler' ∧
      runHandler container pushed (s.skip 1) handler' = some s' := by
  obtain ⟨byte, hbyte, h⟩ := Option.bind_eq_some_iff.1 h
  split at h
  · cases h
  · obtain ⟨handler', hhandler, hrun⟩ := Option.bind_eq_some_iff.1 h
    exact ⟨byte, handler', hbyte, hhandler, hrun⟩

theorem RunInv.step {pushed : ℕ} {s s' : RunState} (hwf : container.WellFormed)
    (hall : AllCertified container mode) (hinv : RunInv container mode s)
    (h : Eof.step container activeOpcodes pushed s = some s') : RunInv container mode s' := by
  obtain ⟨frame, rest, code, current, starts, heights, k, turn, byte, handler', hframes, here⟩ :=
    hinv.here
  obtain ⟨byte', handler'', hbyte, hhandler, hrun⟩ := step_cases h
  have hlt : k < code.length := (List.getElem?_eq_some_iff.1 here.byteAt).1
  rw [here.pc, hwf.bytes _ code here.codeAt k hlt, here.byteAt] at hbyte
  obtain rfl := Option.some.inj hbyte
  obtain rfl := Option.some.inj (here.handlerAt.symm.trans hhandler)
  cases handler' with
  | values popped pushes immediates => exact hinv.values hframes here hrun
  | dup position => exact hinv.stackOps hframes here (.inl ⟨position, .inl rfl⟩) hrun
  | swap position => exact hinv.stackOps hframes here (.inl ⟨position, .inr rfl⟩) hrun
  | halt popped immediates => cases hrun
  | rjump => exact hinv.rjump hwf hframes here hrun
  | rjumpi => exact hinv.rjumpi hwf hframes here hrun
  | rjumpv => exact hinv.rjumpv hwf hframes here hrun
  | callf => exact hinv.callf hwf hall hframes here hrun
  | retf => exact hinv.retf hframes here hrun
  | jumpf => exact hinv.jumpf hwf hall hframes here hrun
  | dupn => exact hinv.stackOps hframes here (.inr (.inl rfl)) hrun
  | swapn => exact hinv.stackOps hframes here (.inr (.inr (.inl rfl))) hrun
  | exchange => exact hinv.stackOps hframes here (.inr (.inr (.inr rfl))) hrun

/-! ## Safety -/

section

variable {s : RunState} {frame : CallFrame} {rest : List CallFrame} {current : TypeSection}
variable {starts : ℕ → Prop} {heights : StackHeights} {turn : Turn} {byte : UInt8}
variable {handler' : Handler}

theorem Here.reads_le
    (h : Here container mode s frame code current starts heights k turn byte handler') :
    handler'.reads container code k ≤ turn.minStack := by
  have hright := h.certifiedAt.right
  have hinputs := hright.inputs
  have hagrees := h.agrees
  cases handler' with
  | values popped pushes immediates =>
    rw [hagrees.1] at hinputs
    exact hinputs
  | dup position =>
    rw [hagrees.1] at hinputs
    exact hinputs
  | swap position =>
    rw [hagrees.1] at hinputs
    exact hinputs
  | halt popped immediates =>
    rw [hagrees.1] at hinputs
    exact hinputs
  | rjump => exact Nat.zero_le _
  | retf => exact Nat.zero_le _
  | rjumpi =>
    rw [hagrees.2] at hinputs
    exact hinputs
  | rjumpv =>
    rw [hagrees.2] at hinputs
    exact hinputs
  | callf =>
    obtain ⟨target, typeSection, htarget, -, htype, -, hle, -⟩ := hright.callf hagrees.1
    rw [Handler.reads, htarget, Option.bind_some, htype]
    exact hle
  | jumpf =>
    obtain ⟨target, typeSection, htarget, -, htype, hle, -⟩ := hright.jumpf hagrees.1
    rw [Handler.reads, htarget, Option.bind_some, htype]
    exact hle
  | dupn =>
    rw [Handler.reads, ← hagrees.1]
    exact (hright.plain (by have := hagrees.1; omega)).1
  | swapn =>
    rw [Handler.reads, ← hagrees.1]
    exact (hright.plain (by have := hagrees.1; omega)).1
  | exchange =>
    rw [Handler.reads, ← hagrees.1]
    exact (hright.plain (by have := hagrees.1; omega)).1

theorem Here.length_le
    (h : Here container mode s frame code current starts heights k turn byte handler') :
    s.stack.length ≤ 1024 := by
  have hbounded := h.certified.bounded k _ _ h.certifiedAt.right.heights
  have hgreatest := h.greatest
  have hfits := h.fits
  omega

theorem Here.push_le
    (h : Here container mode s frame code current starts heights k turn byte handler')
    (hopcode : turn.opcode < 0xe0 ∨ 0xe5 < turn.opcode)
    (hgoes : turn.delta.terminating = false) :
    s.stack.length + turn.delta.outputs ≤ 1024 + turn.delta.inputs := by
  obtain ⟨-, -, hmax⟩ := h.certifiedAt.right.plain (by omega)
  have hroom := h.room (next_mem hgoes (by omega))
  have hinputs := h.certifiedAt.right.inputs
  have hleast := h.least
  have hgreatest := h.greatest
  omega

theorem Here.delta_le
    (h : Here container mode s frame code current starts heights k turn byte handler') :
    s.stack.length + handler'.delta.2 ≤ 1024 + handler'.delta.1 := by
  have hlength := h.length_le
  have hagrees := h.agrees
  cases handler' with
  | values popped pushes immediates =>
    have hroom := h.push_le (by have := hagrees.2; omega) (by rw [hagrees.1])
    rw [hagrees.1] at hroom
    exact hroom
  | dup position =>
    have hroom := h.push_le (by have := hagrees.2; omega) (by rw [hagrees.1])
    rw [hagrees.1] at hroom
    dsimp only at hroom
    rw [Handler.delta]
    dsimp only
    omega
  | dupn =>
    have hroom := h.push_le (by have := hagrees.1; omega) (by rw [hagrees.2])
    rw [hagrees.2] at hroom
    exact hroom
  | swap position => exact hlength
  | halt popped immediates => exact hlength.trans (Nat.le_add_right _ _)
  | rjump => exact hlength
  | rjumpi => exact hlength.trans (Nat.le_add_right _ _)
  | rjumpv => exact hlength.trans (Nat.le_add_right _ _)
  | callf => exact hlength
  | retf => exact hlength
  | jumpf => exact hlength
  | swapn => exact hlength
  | exchange => exact hlength

end

theorem RunInv.safe {s : RunState} (hwf : container.WellFormed) (hinv : RunInv container mode s) :
    Safe container s := by
  obtain ⟨frame, rest, code, current, starts, heights, k, turn, byte, handler', hframes, here⟩ :=
    hinv.here
  have hlt : k < code.length := (List.getElem?_eq_some_iff.1 here.byteAt).1
  have hreads := here.reads_le
  have hleast := here.least
  refine ⟨frame, rest, code, current, k, byte, handler', hframes, here.codeAt, here.typeAt, here.pc,
    here.instruction, ?_, here.byteAt, here.handlerAt, by omega, here.delta_le, ?_⟩
  · rw [here.pc, hwf.bytes _ code here.codeAt k hlt, here.byteAt]
  · rintro rfl
    obtain ⟨houtputs, hmin, hmax⟩ := here.certifiedAt.right.retf here.agrees.1
    have hgreatest := here.greatest
    refine ⟨?_, by omega⟩
    intro hempty
    have hold := hinv.frames
    rw [hframes, hempty] at hold
    cases hold with
    | outermost htype hno =>
      obtain rfl := Option.some.inj (here.typeAt.symm.trans htype)
      exact houtputs hno

theorem runInv_of_reachable {s : RunState} (hwf : container.WellFormed)
    (hall : AllCertified container mode) (hstart : RunInv container mode (RunState.start container))
    (hreach : Reachable container activeOpcodes s) : RunInv container mode s := by
  induction hreach with
  | start => exact hstart
  | step _ hstep ih => exact ih.step hwf hall hstep

/-! ## Validation -/

theorem certified_of_validateSections {opcodes : ℕ → Bool} {first : ℕ} {codes : List Bytes}
    {containerTypeMap : JsMap ℕ ContainerSectionType}
    {result : JsMap ℕ ContainerSectionType × List (List ℕ)}
    (hnonempty : ∀ code ∈ codes, 0 < code.length)
    (h : validateSections container mode opcodes first codes containerTypeMap = .ok result) :
    ∀ (i : ℕ) (code : Bytes), codes[i]? = some code →
      ∃ current starts heights, container.body.typeSections[first + i]? = some current ∧
        Certified container mode current code starts heights := by
  induction codes generalizing first containerTypeMap result with
  | nil =>
    intro i code hcode
    cases hcode
  | cons code codes ih =>
    obtain ⟨st, hsection, h⟩ := bind_eq_ok.1 h
    obtain ⟨⟨containerTypeMap', reachableSections⟩, hrest, -⟩ := bind_eq_ok.1 h
    intro i code' hcode
    cases i with
    | zero =>
      obtain rfl := Option.some.inj hcode
      exact certified_of_validateSection (hnonempty code List.mem_cons_self) hsection
    | succ i =>
      obtain ⟨current, starts, heights, hcurrent, hcertified⟩ :=
        ih (List.forall_mem_cons.1 hnonempty).2 hrest i code' hcode
      refine ⟨current, starts, heights, ?_, hcertified⟩
      rw [← hcurrent]
      congr 1
      omega

theorem allCertified_of_validateOpcodes {containerMap : JsMap ℕ ContainerSectionType}
    (hwf : container.WellFormed)
    (h : validateOpcodes container activeOpcodes mode = .ok containerMap) :
    AllCertified container mode := by
  obtain ⟨⟨containerTypeMap, reachableSections⟩, hsections, -⟩ := bind_eq_ok.1 h
  have hall := certified_of_validateSections (fun code hmem => by
    obtain ⟨i, hi⟩ := List.getElem?_of_mem hmem
    exact hwf.nonempty i code hi) hsections
  intro i code hcode
  obtain ⟨current, starts, heights, hcurrent, hcertified⟩ := hall i code hcode
  rw [Nat.zero_add] at hcurrent
  exact ⟨current, starts, heights, hcurrent, hcertified⟩

end

/-- **Validated code is safe**: in every run of a container that is accepted, every state is at an
instruction of its section, looks no deeper than the section's base, pushes no more than 1024 items,
and returns, to somewhere, with exactly the section's outputs. -/
theorem safe_of_validateEOF (activeOpcodes : ℕ → Bool) (depth : ℕ) (input : Bytes)
    (containerMode : ContainerSectionType) (eofMode : EOFContainerMode) (container : EOFContainer)
    (hvalid : validateEOF activeOpcodes depth input containerMode eofMode = .ok container)
    (s : RunState) (hreach : Reachable container activeOpcodes s) : Safe container s := by
  cases depth with
  | zero => cases hvalid
  | succ depth =>
    obtain ⟨container', hcontainer, hvalid⟩ := bind_eq_ok.1 hvalid
    obtain ⟨containerMap, hopcodes, hvalid⟩ := bind_eq_ok.1 hvalid
    obtain ⟨-, -, hvalid⟩ := bind_eq_ok.1 hvalid
    obtain rfl := Except.ok.inj hvalid
    have hwf := wellFormed_ofBytes hcontainer
    have hall := allCertified_of_validateOpcodes hwf hopcodes
    obtain ⟨code, hcode⟩ : ∃ code, container'.body.codeSections[0]? = some code :=
      ⟨_, List.getElem?_eq_getElem (by rw [hwf.codeSections]; exact hwf.sections)⟩
    obtain ⟨current, -, -, hcurrent, -⟩ := hall 0 code hcode
    exact (runInv_of_reachable hwf hall (runInv_start hwf hall hcurrent hcode) hreach).safe hwf

/-! ## A container -/

/-- A container of two sections: the first pushes an item, calls the second and drops what it
returns, which is its input. -/
def sampleContainer : Bytes :=
  [0xef, 0x00, 0x01, 0x01, 0x00, 0x08, 0x02, 0x00, 0x02, 0x00, 0x06, 0x00, 0x01, 0x04, 0x00, 0x00,
    0x00, 0x00, 0x80, 0x00, 0x01, 0x01, 0x01, 0x00, 0x01, 0x5f, 0xe3, 0x00, 0x01, 0x50, 0x00, 0xe4]

/-- The sample container is accepted, and its runs are safe. -/
theorem safe_of_validateEOF_sampleContainer :
    ∃ container, validateEOF (fun _ => true) 1 sampleContainer .runtimeCode .default =
        .ok container ∧ Safe container (RunState.start container) := by
  have haccepted : (validateEOF (fun _ => true) 1 sampleContainer .runtimeCode .default).isOk =
      true := by
    decide +kernel
  obtain ⟨container, hvalid⟩ := exists_ok_of_isOk haccepted
  exact ⟨container, hvalid, safe_of_validateEOF (fun _ => true) 1 sampleContainer .runtimeCode
    .default container hvalid _ .start⟩

end Eof

end TsEthereum
