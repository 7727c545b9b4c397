import TsEthereum.Common.Except
import TsEthereum.Evm.Bytecode
import Mathlib.Logic.Function.Basic

/-!
# The loop of the interpreter

`interpreter.ts`: `run` takes opcodes one by one. At the first jump it sweeps
the code (`_getValidJumpDestinations`) and from then on takes opcodes and the
values of pushes from what the sweep left. `plainStep` reads all of it in the
code; every run takes the same steps (`fastPath_agrees`).

The code is legacy code. The handlers of the jumps and pushes are the source's;
what the others do to the stack and to the rest of the state, and what is
charged, comes with the table: none of them moves the program counter there.
-/

namespace TsEthereum.Evm

/-- What is thrown; `error` is what the handlers throw. -/
inductive EvmError (ε : Type) where
  | stackUnderflow
  | stackOverflow
  | invalidJump (programCounter : ℕ)
  /-- A property of `undefined` is read, or `undefined` is pushed. -/
  | undefined
  | thrown (error : ε)
  deriving DecidableEq

/-- An operation of the jump table: what is charged before the program counter
advances, and what its handler does, if it is no jump and no push. -/
structure Operation (ρ ε : Type) where
  opcode : UInt8
  charge : ℕ → List ℕ → ρ → Except (EvmError ε) ρ
  execute : ℕ → List ℕ → ρ → Except (EvmError ε) (List ℕ × ρ)

/-- A `JumpTable`. -/
abbrev JumpTable (ρ ε : Type) : Type := UInt8 → Operation ρ ε

/-- The last loop of `buildJumpTable`: each operation is given its opcode. -/
def populate {ρ ε : Type} (table : JumpTable ρ ε) : JumpTable ρ ε :=
  fun opcode => { table opcode with opcode := opcode }

/-- What the sweep finds: the valid destinations, the values pushed and the
operations. -/
structure JumpAnalysis (ρ ε : Type) where
  jumps : ℕ → Bool
  pushes : ℕ → Option ℕ
  opcodesCached : ℕ → Option (Operation ρ ε)

/-- **The `RunState`**, the top of the stack first. `rest` is what jumps and pushes
do not touch. -/
structure RunState (ρ : Type) where
  programCounter : ℕ
  opCode : UInt8
  stack : List ℕ
  validJumps : ℕ → Bool
  cachedPushes : ℕ → Option ℕ
  shouldDoJumpAnalysis : Bool
  rest : ρ

/-- The state of the loop of `run`. -/
structure RunLoop (ρ ε : Type) extends RunState ρ where
  doJumpAnalysis : Bool
  cachedOpcodes : ℕ → Option (Operation ρ ε)

/-- The height of the stack. -/
def maxHeight : ℕ := 1024

def push {ε : Type} (value : ℕ) (stack : List ℕ) : Except (EvmError ε) (List ℕ) :=
  if maxHeight ≤ stack.length then .error .stackOverflow else .ok (value :: stack)

section

variable {ρ ε : Type} (table : JumpTable ρ ε) (code : Bytes)

/-! ## The sweep -/

/-- The loop of `_getValidJumpDestinations`, of at most `turns` turns. -/
def sweep : ℕ → ℕ → JumpAnalysis ρ ε → JumpAnalysis ρ ε
  | 0, _, found => found
  | turns + 1, i, found =>
    match code[i]? with
    | none => found
    | some opcode =>
      let found := { found with
        opcodesCached := Function.update found.opcodesCached i (some (table opcode)) }
      if opcode ≤ 0x7f then
        if 0x60 ≤ opcode then
          let bytesToPush := opcode.toNat - 0x5f
          let pushBytes := subarray code (i + 1) (i + opcode.toNat - 0x5e)
          let pushBytes := if pushBytes.length < bytesToPush then setLengthRight pushBytes bytesToPush
            else pushBytes
          sweep turns (i + bytesToPush + 1) { found with
            pushes := Function.update found.pushes (i + 1) (some (ofBigEndian pushBytes)) }
        else if opcode = 0x5b then
          sweep turns (i + 1) { found with jumps := Function.update found.jumps i true }
        else sweep turns (i + 1) found
      else sweep turns (i + 1) found

/-- **`_getValidJumpDestinations`.** -/
def _getValidJumpDestinations : JumpAnalysis ρ ε :=
  sweep table code code.length 0 ⟨fun _ => false, fun _ => none, fun _ => none⟩

/-! ## The handlers of jumps and pushes -/

def jumpIsValid (s : RunState ρ) (dest : ℕ) : Bool := s.validJumps dest

/-- The program counter goes to a valid destination. -/
def jumpTo (s : RunState ρ) (dest : ℕ) (stack : List ℕ) : Except (EvmError ε) (RunState ρ) :=
  if code.length < dest then .error (.invalidJump (s.programCounter - 1))
  else if !jumpIsValid s dest then .error (.invalidJump (s.programCounter - 1))
  else .ok { s with programCounter := dest, stack := stack }

/-- **`opJump`.** -/
def opJump (s : RunState ρ) : Except (EvmError ε) (RunState ρ) :=
  match s.stack with
  | [] => .error .stackUnderflow
  | dest :: stack => jumpTo code s dest stack

/-- **`opJumpi`.** -/
def opJumpi (s : RunState ρ) : Except (EvmError ε) (RunState ρ) :=
  match s.stack with
  | dest :: cond :: stack =>
    if cond ≠ 0 then jumpTo code s dest stack else .ok { s with stack := stack }
  | _ => .error .stackUnderflow

/-- **`opPush`.** -/
def opPush (s : RunState ρ) : Except (EvmError ε) (RunState ρ) :=
  let numToPush := s.opCode.toNat - 0x5f
  if !s.shouldDoJumpAnalysis then
    match s.cachedPushes s.programCounter with
    | none => .error .undefined
    | some value => do
      let stack ← push value s.stack
      .ok { s with stack := stack, programCounter := s.programCounter + numToPush }
  else
    let loadedBytes := subarray code s.programCounter (s.programCounter + numToPush)
    let loadedBytes := if loadedBytes.length < numToPush then setLengthRight loadedBytes numToPush
      else loadedBytes
    do
      let stack ← push (ofBigEndian loadedBytes) s.stack
      .ok { s with stack := stack, programCounter := s.programCounter + numToPush }

/-! ## The loop -/

/-- **`runStep`.** -/
def runStep (s : RunState ρ) : Except (EvmError ε) (RunState ρ) := do
  let operation := table s.opCode
  let rest ← operation.charge s.programCounter s.stack s.rest
  let s := { s with rest := rest, programCounter := s.programCounter + 1 }
  if s.opCode = 0x56 then opJump code s
  else if s.opCode = 0x57 then opJumpi code s
  else if 0x60 ≤ s.opCode ∧ s.opCode ≤ 0x7f then opPush code s
  else
    let (stack, rest) ← operation.execute s.programCounter s.stack s.rest
    .ok { s with stack := stack, rest := rest }

/-- The opcode of a turn; at the first jump the code is swept. -/
def fetch (s : RunLoop ρ ε) : Option UInt8 × RunLoop ρ ε :=
  if s.doJumpAnalysis then
    match code[s.programCounter]? with
    | none => (none, s)
    | some opCode =>
      if opCode = 0x56 ∨ opCode = 0x57 ∨ opCode = 0x5e then
        let analysis := _getValidJumpDestinations table code
        (some opCode, { s with
          validJumps := analysis.jumps
          cachedPushes := analysis.pushes
          shouldDoJumpAnalysis := false
          cachedOpcodes := analysis.opcodesCached
          doJumpAnalysis := false })
      else (some opCode, s)
  else ((s.cachedOpcodes s.programCounter).map (·.opcode), s)

/-- **A turn of the loop of `run`.** -/
def turn (s : RunLoop ρ ε) : Except (EvmError ε) (RunLoop ρ ε) :=
  match fetch table code s with
  | (none, _) => .error .undefined
  | (some opCode, s) => do
    let run ← runStep table code { s.toRunState with opCode := opCode }
    .ok { s with toRunState := run }

/-- The state of a new interpreter, at program counter 0. -/
def start (rest : ρ) : RunLoop ρ ε where
  programCounter := 0
  opCode := 0xfe
  stack := []
  validJumps := fun _ => false
  cachedPushes := fun _ => none
  shouldDoJumpAnalysis := true
  rest := rest
  doJumpAnalysis := true
  cachedOpcodes := fun _ => none

/-- **The states the loop is in**: it goes on while the program counter is in the
code. -/
inductive Reached (rest : ρ) : RunLoop ρ ε → Prop
  | start : Reached rest (start rest)
  | turn {s s' : RunLoop ρ ε} (h : Reached rest s) (hpc : s.programCounter < code.length)
      (hturn : turn table code s = .ok s') : Reached rest s'

/-! ## Plain execution -/

/-- What plain execution changes. -/
structure Plain (ρ : Type) where
  programCounter : ℕ
  stack : List ℕ
  rest : ρ

/-- The state without what is cached. -/
def RunState.plain (s : RunState ρ) : Plain ρ := ⟨s.programCounter, s.stack, s.rest⟩

/-- **A destination to jump to**: an instruction starts there, with opcode 0x5b. -/
def IsJumpdest (dest : ℕ) : Prop := IsBoundary code dest ∧ code[dest]? = some 0x5b

instance : DecidablePred (IsJumpdest code) := fun dest =>
  inferInstanceAs (Decidable (IsBoundary code dest ∧ code[dest]? = some 0x5b))

/-- The value that the PUSH at a program counter pushes: the bytes after it, zeros
where the code has ended. -/
def pushedValue (programCounter numToPush : ℕ) : ℕ :=
  ofBigEndian (((code.drop (programCounter + 1)) ++ List.replicate numToPush 0).take numToPush)

/-- The program counter goes to a destination to jump to. -/
def plainJump (s : Plain ρ) (rest : ρ) (dest : ℕ) (stack : List ℕ) :
    Except (EvmError ε) (Plain ρ) :=
  if IsJumpdest code dest then .ok ⟨dest, stack, rest⟩
  else .error (.invalidJump s.programCounter)

/-- **A step of plain execution**: all is read in the code. -/
def plainStep (s : Plain ρ) : Except (EvmError ε) (Plain ρ) :=
  match code[s.programCounter]? with
  | none => .error .undefined
  | some opCode => do
    let rest ← (table opCode).charge s.programCounter s.stack s.rest
    if opCode = 0x56 then
      match s.stack with
      | [] => .error .stackUnderflow
      | dest :: stack => plainJump code s rest dest stack
    else if opCode = 0x57 then
      match s.stack with
      | dest :: cond :: stack =>
        if cond ≠ 0 then plainJump code s rest dest stack
        else .ok ⟨s.programCounter + 1, stack, rest⟩
      | _ => .error .stackUnderflow
    else if 0x60 ≤ opCode ∧ opCode ≤ 0x7f then do
      let stack ← push (pushedValue code s.programCounter (pushSize opCode)) s.stack
      .ok ⟨s.programCounter + 1 + pushSize opCode, stack, rest⟩
    else do
      let (stack, rest) ← (table opCode).execute (s.programCounter + 1) s.stack rest
      .ok ⟨s.programCounter + 1, stack, rest⟩

/-! ## What the sweep finds -/

variable {table code} {i j turns : ℕ} {opcode : UInt8} {found : JumpAnalysis ρ ε}

theorem lt_length_of_getElem? (h : code[i]? = some opcode) : i < code.length := by
  obtain ⟨hlt, -⟩ := List.getElem?_eq_some_iff.1 h
  exact hlt

theorem padded_eq (code : Bytes) (start n : ℕ) :
    (if (subarray code start (start + n)).length < n then
        setLengthRight (subarray code start (start + n)) n
      else subarray code start (start + n)) =
      (code.drop start ++ List.replicate n 0).take n := by
  have hsub : subarray code start (start + n) = (code.drop start).take n := by
    rw [subarray, Nat.add_sub_cancel_left]
  rw [hsub]
  generalize code.drop start = bytes
  rcases Nat.lt_or_ge bytes.length n with hlt | hge
  · have htake : bytes.take n = bytes := List.take_of_length_le (by omega)
    rw [htake, if_pos hlt, setLengthRight, if_pos hlt, List.take_append, htake,
      List.take_replicate, Nat.min_eq_left (by omega)]
  · rw [if_neg (by rw [List.length_take]; omega), List.take_append_of_le_length hge]

theorem pushSize_eq (hlow : 0x60 ≤ opcode) (hhigh : opcode ≤ 0x7f) :
    pushSize opcode = opcode.toNat - 0x5f := if_pos ⟨hlow, hhigh⟩

theorem pushSize_eq_zero (h : ¬ (0x60 ≤ opcode ∧ opcode ≤ 0x7f)) : pushSize opcode = 0 := if_neg h

/-- **What is found below a position**, and nothing above. -/
structure Swept (table : JumpTable ρ ε) (code : Bytes) (i : ℕ) (found : JumpAnalysis ρ ε) :
    Prop where
  jumps : ∀ j, found.jumps j = true ↔ j < i ∧ IsJumpdest code j
  opcodes : ∀ j < i, IsBoundary code j → ∀ opcode, code[j]? = some opcode →
    found.opcodesCached j = some (table opcode)
  pushes : ∀ j < i, IsBoundary code j → ∀ opcode, code[j]? = some opcode → pushSize opcode ≠ 0 →
    found.pushes (j + 1) = some (pushedValue code j (pushSize opcode))

theorem lt_nextInstruction_iff (hi : IsBoundary code i) (hj : IsBoundary code j) :
    j < nextInstruction code i ↔ j < i ∨ j = i := by
  have hlt := lt_nextInstruction code i
  constructor
  · intro h
    by_contra hnot
    exact not_isBoundary_of_lt_next hi (by omega) h hj
  · omega

theorem Swept.next (h : Swept table code i found) (hi : IsBoundary code i)
    (hopcode : code[i]? = some opcode) (jumps : ℕ → Bool) (pushes : ℕ → Option ℕ)
    (hjumps : ∀ j, jumps j = true ↔ found.jumps j = true ∨ j = i ∧ opcode = 0x5b)
    (hpushes : ∀ j, j ≠ i → pushes (j + 1) = found.pushes (j + 1))
    (hpushed : pushSize opcode ≠ 0 →
      pushes (i + 1) = some (pushedValue code i (pushSize opcode))) :
    Swept table code (nextInstruction code i)
      ⟨jumps, pushes, Function.update found.opcodesCached i (some (table opcode))⟩ where
  jumps j := by
    rw [hjumps, h.jumps]
    constructor
    · rintro (⟨hj, hdest⟩ | ⟨rfl, rfl⟩)
      · exact ⟨(lt_nextInstruction_iff hi hdest.1).2 (.inl hj), hdest⟩
      · exact ⟨lt_nextInstruction code j, hi, hopcode⟩
    · rintro ⟨hj, hdest⟩
      rcases (lt_nextInstruction_iff hi hdest.1).1 hj with hj | rfl
      · exact .inl ⟨hj, hdest⟩
      · refine .inr ⟨rfl, ?_⟩
        rw [hdest.2] at hopcode
        exact (Option.some.inj hopcode).symm
  opcodes j hj hboundary opcode' hopcode' := by
    rcases (lt_nextInstruction_iff hi hboundary).1 hj with hj | rfl
    · dsimp only
      rw [Function.update_of_ne (by omega)]
      exact h.opcodes j hj hboundary opcode' hopcode'
    · rw [hopcode] at hopcode'
      rw [← Option.some.inj hopcode']
      exact Function.update_self ..
  pushes j hj hboundary opcode' hopcode' hpush := by
    rcases (lt_nextInstruction_iff hi hboundary).1 hj with hj | rfl
    · exact (hpushes j (by omega)).trans (h.pushes j hj hboundary opcode' hopcode' hpush)
    · rw [hopcode] at hopcode'
      obtain rfl := Option.some.inj hopcode'
      exact hpushed hpush

theorem Swept.sweep (h : Swept table code i found) (hi : IsBoundary code i)
    (hturns : code.length ≤ i + turns) :
    ∃ i', code.length ≤ i' ∧ Swept table code i' (sweep table code turns i found) := by
  induction turns generalizing i found with
  | zero => exact ⟨i, hturns, h⟩
  | succ turns ih =>
    unfold Evm.sweep
    rcases hopcode : code[i]? with _ | opcode
    · exact ⟨i, List.getElem?_eq_none_iff.1 hopcode, h⟩
    · have hnext := nextInstruction_of_getElem? hopcode
      have hboundary := hi.next
      have hplain (hno : pushSize opcode = 0) {jumps : ℕ → Bool}
          (hjumps : ∀ j, jumps j = true ↔ found.jumps j = true ∨ j = i ∧ opcode = 0x5b) :
          ∃ i', code.length ≤ i' ∧ Swept table code i' (Evm.sweep table code turns (i + 1)
            ⟨jumps, found.pushes, Function.update found.opcodesCached i (some (table opcode))⟩) := by
        have hswept := h.next hi hopcode jumps found.pushes hjumps (fun _ _ => rfl)
          fun hpush => absurd hno hpush
        rw [hnext, hno] at hswept hboundary
        exact ih hswept hboundary (by omega)
      dsimp only
      split
      · next hhigh =>
        split
        · next hlow =>
          have hsize := pushSize_eq hlow hhigh
          have hge : 0x60 ≤ opcode.toNat := hlow
          rw [show i + opcode.toNat - 0x5e = i + 1 + (opcode.toNat - 0x5f) by omega, padded_eq,
            ← hsize, ← pushedValue]
          have hswept := h.next hi hopcode found.jumps (Function.update found.pushes (i + 1)
            (some (pushedValue code i (pushSize opcode))))
            (fun j => (or_iff_left ?_).symm) (fun j hj => Function.update_of_ne (by omega) _ _)
            fun _ => Function.update_self ..
          · rw [hnext] at hswept hboundary
            rw [show i + pushSize opcode + 1 = i + 1 + pushSize opcode by omega]
            exact ih hswept hboundary (by omega)
          · rintro ⟨-, rfl⟩
            exact absurd hlow (by decide)
        · next hlow =>
          have hno : pushSize opcode = 0 := pushSize_eq_zero fun hpush => hlow hpush.1
          split
          · next hdest =>
            refine hplain hno fun j => ?_
            rw [Function.update_apply]
            split
            · next heq => simp [heq, hdest]
            · next hne => simp [hne]
          · next hdest =>
            exact hplain hno fun j => (or_iff_left fun hj => hdest hj.2).symm
      · next hhigh =>
        refine hplain (pushSize_eq_zero fun hpush => hhigh hpush.2)
          fun j => (or_iff_left ?_).symm
        rintro ⟨-, rfl⟩
        exact hhigh (by decide)

theorem swept_getValidJumpDestinations (table : JumpTable ρ ε) (code : Bytes) :
    ∃ i, code.length ≤ i ∧ Swept table code i (_getValidJumpDestinations table code) :=
  Swept.sweep ⟨fun j => by simp, nofun, nofun⟩ (isBoundary_zero code) (by omega)

theorem jumps_iff (table : JumpTable ρ ε) (code : Bytes) (dest : ℕ) :
    (_getValidJumpDestinations table code).jumps dest = true ↔ IsJumpdest code dest := by
  obtain ⟨i, hi, hswept⟩ := swept_getValidJumpDestinations table code
  rw [hswept.jumps]
  refine and_iff_right_of_imp fun hdest => ?_
  have hlt := lt_length_of_getElem? hdest.2
  omega

theorem opcodesCached_eq (table : JumpTable ρ ε) {code : Bytes} (hi : IsBoundary code i)
    (hopcode : code[i]? = some opcode) :
    (_getValidJumpDestinations table code).opcodesCached i = some (table opcode) := by
  obtain ⟨k, hk, hswept⟩ := swept_getValidJumpDestinations table code
  have hlt := lt_length_of_getElem? hopcode
  exact hswept.opcodes i (by omega) hi opcode hopcode

theorem pushes_eq (table : JumpTable ρ ε) {code : Bytes} (hi : IsBoundary code i)
    (hopcode : code[i]? = some opcode) (hpush : pushSize opcode ≠ 0) :
    (_getValidJumpDestinations table code).pushes (i + 1) =
      some (pushedValue code i (pushSize opcode)) := by
  obtain ⟨k, hk, hswept⟩ := swept_getValidJumpDestinations table code
  have hlt := lt_length_of_getElem? hopcode
  exact hswept.pushes i (by omega) hi opcode hopcode hpush

/-! ## A step and plain execution -/

theorem isBoundary_plainStep {s s' : Plain ρ} (hs : IsBoundary code s.programCounter)
    (h : plainStep table code s = .ok s') : IsBoundary code s'.programCounter := by
  unfold plainStep at h
  rcases hopcode : code[s.programCounter]? with _ | opcode
  · rw [hopcode] at h
    cases h
  · rw [hopcode] at h
    obtain ⟨rest, -, h⟩ := bind_eq_ok.1 h
    have hnext := hs.next
    rw [nextInstruction_of_getElem? hopcode] at hnext
    have hjump {dest : ℕ} {stack : List ℕ} {s' : Plain ρ}
        (h : (plainJump code s rest dest stack : Except (EvmError ε) (Plain ρ)) = .ok s') :
        IsBoundary code s'.programCounter := by
      unfold plainJump at h
      split at h
      · next hdest =>
        cases h
        exact hdest.1
      · cases h
    split at h
    · split at h
      · cases h
      · exact hjump h
    · split at h
      · next heq =>
        split at h
        · split at h
          · exact hjump h
          · cases h
            rwa [heq] at hnext
        · cases h
      · split at h
        · obtain ⟨stack, -, h⟩ := bind_eq_ok.1 h
          cases h
          exact hnext
        · next hpush =>
          obtain ⟨⟨stack, rest'⟩, -, h⟩ := bind_eq_ok.1 h
          cases h
          rwa [pushSize_eq_zero hpush] at hnext

/-- A step returns what plain execution does, and leaves what is cached. -/
def Agrees (s : RunState ρ) (x : Except (EvmError ε) (RunState ρ))
    (y : Except (EvmError ε) (Plain ρ)) : Prop :=
  x.map RunState.plain = y ∧
    ∀ r, x = .ok r → r.validJumps = s.validJumps ∧ r.cachedPushes = s.cachedPushes ∧
      r.shouldDoJumpAnalysis = s.shouldDoJumpAnalysis

theorem Agrees.error {s : RunState ρ} {e : EvmError ε} :
    Agrees s (.error e : Except (EvmError ε) (RunState ρ)) (.error e) :=
  ⟨rfl, nofun⟩

theorem Agrees.ok {s r : RunState ρ} {t : Plain ρ} (hplain : r.plain = t)
    (hjumps : r.validJumps = s.validJumps) (hpushes : r.cachedPushes = s.cachedPushes)
    (hanalysis : r.shouldDoJumpAnalysis = s.shouldDoJumpAnalysis) :
    Agrees s (.ok r : Except (EvmError ε) (RunState ρ)) (.ok t) := by
  refine ⟨congrArg Except.ok hplain, ?_⟩
  rintro r' ⟨⟩
  exact ⟨hjumps, hpushes, hanalysis⟩

theorem Agrees.bind {s : RunState ρ} {β : Type} {x : Except (EvmError ε) β}
    {f : β → Except (EvmError ε) (RunState ρ)} {g : β → Except (EvmError ε) (Plain ρ)}
    (h : ∀ b, x = .ok b → Agrees s (f b) (g b)) : Agrees s (x >>= f) (x >>= g) := by
  rcases x with e | b
  · exact .error
  · exact h b rfl

variable {s : RunState ρ} {rest : ρ}

theorem agrees_jumpTo (hjumps : s.validJumps = (_getValidJumpDestinations table code).jumps)
    (dest : ℕ) (stack : List ℕ) :
    Agrees s (jumpTo code { s with rest := rest, programCounter := s.programCounter + 1 } dest stack)
      (plainJump code s.plain rest dest stack : Except (EvmError ε) (Plain ρ)) := by
  have hiff := jumps_iff table code dest
  unfold jumpTo plainJump jumpIsValid
  rw [hjumps]
  by_cases hdest : IsJumpdest code dest
  · have hlt := lt_length_of_getElem? hdest.2
    rw [if_neg (by omega), hiff.2 hdest, if_neg (by decide), if_pos hdest]
    exact .ok rfl hjumps.symm rfl rfl
  · rw [if_neg hdest]
    split
    · exact .error
    · rw [Bool.eq_false_iff.2 fun h => hdest (hiff.1 h), if_pos (by decide)]
      exact .error

theorem agrees_opPush (hboundary : IsBoundary code s.programCounter)
    (hopCode : code[s.programCounter]? = some s.opCode)
    (hpush : 0x60 ≤ s.opCode ∧ s.opCode ≤ 0x7f)
    (hcached : s.shouldDoJumpAnalysis = false →
      s.cachedPushes = (_getValidJumpDestinations table code).pushes) :
    Agrees s (opPush code { s with rest := rest, programCounter := s.programCounter + 1 })
      (do
        let stack ← push (pushedValue code s.programCounter (pushSize s.opCode)) s.stack
        .ok ⟨s.programCounter + 1 + pushSize s.opCode, stack, rest⟩ :
        Except (EvmError ε) (Plain ρ)) := by
  have hsize := pushSize_eq hpush.1 hpush.2
  have hge : 0x60 ≤ s.opCode.toNat := hpush.1
  unfold opPush
  dsimp only
  rw [← hsize, padded_eq, ← pushedValue]
  rcases hanalysis : s.shouldDoJumpAnalysis with _ | _
  · rw [hcached hanalysis, pushes_eq table hboundary hopCode (by omega), if_pos (by decide)]
    refine .bind fun stack _ => ?_
    exact .ok rfl rfl (hcached hanalysis).symm hanalysis.symm
  · rw [if_neg (by decide)]
    refine .bind fun stack _ => ?_
    exact .ok rfl rfl rfl hanalysis.symm

theorem agrees_runStep (table : JumpTable ρ ε) (code : Bytes) (s : RunState ρ)
    (hboundary : IsBoundary code s.programCounter)
    (hopCode : code[s.programCounter]? = some s.opCode)
    (hjumps : s.opCode = 0x56 ∨ s.opCode = 0x57 →
      s.validJumps = (_getValidJumpDestinations table code).jumps)
    (hcached : s.shouldDoJumpAnalysis = false →
      s.cachedPushes = (_getValidJumpDestinations table code).pushes) :
    Agrees s (runStep table code s) (plainStep table code s.plain) := by
  unfold runStep plainStep
  rw [show code[s.plain.programCounter]? = some s.opCode from hopCode]
  refine .bind fun rest _ => ?_
  dsimp only
  split
  · next hjump =>
    unfold opJump
    dsimp only [RunState.plain]
    rcases s.stack with _ | ⟨dest, stack⟩
    · exact .error
    · exact agrees_jumpTo (hjumps (.inl hjump)) dest stack
  · split
    · next hjumpi =>
      unfold opJumpi
      dsimp only [RunState.plain]
      rcases s.stack with _ | ⟨dest, _ | ⟨cond, stack⟩⟩
      · exact .error
      · exact .error
      · dsimp only
        split
        · exact agrees_jumpTo (hjumps (.inr hjumpi)) dest stack
        · exact .ok rfl rfl rfl rfl
    · split
      · next hpush => exact agrees_opPush hboundary hopCode hpush hcached
      · exact .bind fun _ _ => .ok rfl rfl rfl rfl

/-! ## Every run -/

/-- **What is cached is what the sweep found**, once it was made, and the program
counter is at the start of an instruction. -/
structure Cached (table : JumpTable ρ ε) (code : Bytes) (s : RunLoop ρ ε) : Prop where
  boundary : IsBoundary code s.programCounter
  unswept : s.doJumpAnalysis = true → s.shouldDoJumpAnalysis = true
  swept : s.doJumpAnalysis = false → s.shouldDoJumpAnalysis = false ∧
    s.validJumps = (_getValidJumpDestinations table code).jumps ∧
    s.cachedPushes = (_getValidJumpDestinations table code).pushes ∧
    s.cachedOpcodes = (_getValidJumpDestinations table code).opcodesCached

/-- **The opcode of a turn is that of the code**, and at a jump the code is
swept. -/
theorem Cached.fetch {s : RunLoop ρ ε} (h : Cached table code s) (htable : ∀ op, (table op).opcode = op)
    (hpc : s.programCounter < code.length) :
    ∃ opCode s', fetch table code s = (some opCode, s') ∧
      code[s.programCounter]? = some opCode ∧ Cached table code s' ∧
      s'.toRunState.plain = s.toRunState.plain ∧
      (opCode = 0x56 ∨ opCode = 0x57 → s'.doJumpAnalysis = false) := by
  obtain ⟨opCode, hopCode⟩ : ∃ opCode, code[s.programCounter]? = some opCode :=
    ⟨_, List.getElem?_eq_getElem hpc⟩
  unfold Evm.fetch
  rcases hanalysis : s.doJumpAnalysis with _ | _
  · obtain ⟨-, -, -, hopcodes⟩ := h.swept hanalysis
    rw [if_neg (by decide), hopcodes, opcodesCached_eq table h.boundary hopCode]
    exact ⟨opCode, s, by rw [Option.map_some, htable], hopCode, h, rfl, fun _ => hanalysis⟩
  · rw [if_pos rfl, hopCode]
    dsimp only
    split
    · exact ⟨opCode, _, rfl, rfl, ⟨h.boundary, nofun, fun _ => ⟨rfl, rfl, rfl, rfl⟩⟩, rfl,
        fun _ => rfl⟩
    · next hnot =>
      refine ⟨opCode, s, rfl, rfl, h, rfl, ?_⟩
      rintro (hjump | hjumpi)
      · exact absurd (.inl hjump) hnot
      · exact absurd (.inr (.inl hjumpi)) hnot

theorem Cached.turn {s : RunLoop ρ ε} (h : Cached table code s)
    (htable : ∀ op, (table op).opcode = op) (hpc : s.programCounter < code.length) :
    (turn table code s).map (fun s' => s'.toRunState.plain) =
        plainStep table code s.toRunState.plain ∧
      ∀ s', Evm.turn table code s = .ok s' → Cached table code s' := by
  obtain ⟨opCode, t, hfetch, hopCode, ht, hplain, hjump⟩ := h.fetch htable hpc
  have hpcs : t.programCounter = s.programCounter := congrArg Plain.programCounter hplain
  obtain ⟨hstep, hcaches⟩ := agrees_runStep table code { t.toRunState with opCode := opCode }
    ht.boundary (by rw [← hopCode, ← hpcs])
    (fun hopcode => (ht.swept (hjump hopcode)).2.1) (fun hunswept => by
      rcases hanalysis : t.doJumpAnalysis with _ | _
      · exact (ht.swept hanalysis).2.2.1
      · exact absurd (hunswept.symm.trans (ht.unswept hanalysis)) (by decide))
  unfold Evm.turn
  rw [hfetch]
  dsimp only
  rw [← hplain]
  rcases hrun : runStep table code { t.toRunState with opCode := opCode } with e | r
  · rw [hrun] at hstep
    exact ⟨hstep, nofun⟩
  · rw [hrun] at hstep
    refine ⟨hstep, ?_⟩
    rintro s' ⟨⟩
    obtain ⟨hjumps, hpushes, hanalysis⟩ := hcaches r hrun
    exact ⟨isBoundary_plainStep (s := t.toRunState.plain) ht.boundary hstep.symm,
      fun hunswept => hanalysis.trans (ht.unswept hunswept),
      fun hswept => by
        obtain ⟨h₁, h₂, h₃, h₄⟩ := ht.swept hswept
        exact ⟨hanalysis.trans h₁, hjumps.trans h₂, hpushes.trans h₃, h₄⟩⟩

theorem Reached.cached {rest : ρ} {s : RunLoop ρ ε} (h : Reached table code rest s)
    (htable : ∀ op, (table op).opcode = op) : Cached table code s := by
  induction h with
  | start => exact ⟨isBoundary_zero code, fun _ => rfl, nofun⟩
  | turn _ hpc hturn ih => exact (ih.turn htable hpc).2 _ hturn

/-- **The fast path agrees with plain execution.** Of every legacy code that is
executed from program counter 0, at every turn of the loop: an instruction
starts at the program counter; the opcode is that of the code; a JUMP or JUMPI
succeeds exactly if an instruction starts at its destination, with opcode 0x5b;
from the first jump on all opcodes and pushed values that are cached are those
of the code, zeros where it has ended; and so the turn is a step of plain
execution. -/
theorem fastPath_agrees (table : JumpTable ρ ε) (code : Bytes) (rest : ρ) (s : RunLoop ρ ε)
    (h : Reached (populate table) code rest s) (hpc : s.programCounter < code.length) :
    IsBoundary code s.programCounter ∧
      (fetch (populate table) code s).1 = code[s.programCounter]? ∧
      (code[s.programCounter]? = some 0x56 ∨ code[s.programCounter]? = some 0x57 →
        ∀ dest stack, (∃ r, (jumpTo code (fetch (populate table) code s).2.toRunState dest stack :
          Except (EvmError ε) (RunState ρ)) = .ok r) ↔ IsJumpdest code dest) ∧
      (s.doJumpAnalysis = false → ∀ i opcode, IsBoundary code i → code[i]? = some opcode →
        (s.cachedOpcodes i).map (·.opcode) = some opcode ∧
          (pushSize opcode ≠ 0 →
            s.cachedPushes (i + 1) = some (pushedValue code i (pushSize opcode)))) ∧
      (turn (populate table) code s).map (fun s' => s'.toRunState.plain) =
        plainStep (populate table) code s.toRunState.plain := by
  have hcached := h.cached fun _ => rfl
  obtain ⟨opCode, t, hfetch, hopCode, ht, hplain, hjump⟩ := hcached.fetch (fun _ => rfl) hpc
  refine ⟨hcached.boundary, ?_, fun hjumps dest stack => ?_, fun hswept i opcode hi hopcode => ?_,
    (hcached.turn (fun _ => rfl) hpc).1⟩
  · rw [hfetch, hopCode]
  · rw [hfetch]
    have hanalysed : t.doJumpAnalysis = false := by
      rw [hopCode] at hjumps
      exact hjump (hjumps.imp Option.some.inj Option.some.inj)
    have hiff := jumps_iff (populate table) code dest
    unfold jumpTo jumpIsValid
    dsimp only
    rw [(ht.swept hanalysed).2.1]
    by_cases hdest : IsJumpdest code dest
    · have hlt := lt_length_of_getElem? hdest.2
      rw [if_neg (by omega), hiff.2 hdest, if_neg (by decide)]
      exact iff_of_true ⟨_, rfl⟩ hdest
    · rw [Bool.eq_false_iff.2 fun h => hdest (hiff.1 h)]
      simp only [Bool.not_false, if_true, ite_self]
      exact iff_of_false (fun ⟨_, h⟩ => nomatch h) hdest
  · obtain ⟨-, -, hpushes, hopcodes⟩ := hcached.swept hswept
    rw [hpushes, hopcodes, opcodesCached_eq _ hi hopcode]
    exact ⟨rfl, pushes_eq _ hi hopcode⟩

end

/-- Operations that charge and change nothing. -/
def idle : JumpTable Unit Unit := fun _ =>
  ⟨0, fun _ _ rest => .ok rest, fun _ stack rest => .ok (stack, rest)⟩

/-- A jump over a byte 0x5b that is pushed, to a push that is cut off. -/
def jumpOver : Bytes := [0x60, 6, 0x56, 0x61, 0x5b, 0x5b, 0x5b, 0x61, 7]

/-- After the jump the push that is cut off is taken from what is cached. -/
theorem fastPath_agrees_jumpOver :
    ∃ s : RunLoop Unit Unit, Reached (populate idle) jumpOver () s ∧ s.programCounter = 7 ∧
      s.cachedPushes 8 = some 0x700 := by
  have hreached : Reached (populate idle) jumpOver () _ :=
    .turn (.turn (.turn .start (by decide) rfl) (by decide) rfl) (by decide) rfl
  have h := fastPath_agrees idle jumpOver () _ hreached (by decide)
  exact ⟨_, hreached, rfl, (h.2.2.2.1 rfl 7 0x61 (by decide) rfl).2 (by decide)⟩

end TsEthereum.Evm
