import TsEthereum.Eof.Run

/-!
# What the validation of a code section says

A pass over a code section leaves heights that every instruction that was passed is right about
(`Passed`): it does not look deeper than the least height, and what comes after it has room for both
of its heights. In the end the instructions that were passed are all that can be come to, and so the
heights are certified (`Certified`).
-/

namespace TsEthereum

namespace Eof

/-! ## Marks -/

/-- **What marking leaves**: what was marked and what is, and no byte is both. -/
structure MarksGrow (marks marks' : Marks) (added : List Mark) : Prop where
  intermediateBytes : marks.intermediateBytes ⊆ marks'.intermediateBytes
  jumpLocations : marks.jumpLocations ⊆ marks'.jumpLocations
  intermediate : ∀ location, .intermediate location ∈ added → location ∈ marks'.intermediateBytes
  jump : ∀ location, .jump location ∈ added → location ∈ marks'.jumpLocations
  disjoint : (∀ location ∈ marks.jumpLocations, location ∉ marks.intermediateBytes) →
    ∀ location ∈ marks'.jumpLocations, location ∉ marks'.intermediateBytes

theorem marksGrow_add {marks marks' : Marks} {mark : Mark} (h : marks.add mark = .ok marks') :
    MarksGrow marks marks' [mark] := by
  cases mark with
  | jump location =>
    obtain ⟨hnot, h⟩ := check_bind_eq_ok.1 h
    have hnot := throwIf_eq_ok.1 hnot
    obtain rfl := Except.ok.inj h
    refine ⟨List.Subset.refl _, List.subset_cons_self _ _, ?_, ?_, ?_⟩
    · intro location' hmem
      cases List.mem_singleton.1 hmem
    · intro location' hmem
      obtain rfl := Mark.jump.inj (List.mem_singleton.1 hmem)
      exact List.mem_cons_self
    · intro hdisjoint location' hmem
      rcases List.mem_cons.1 hmem with rfl | hmem
      · exact hnot
      · exact hdisjoint location' hmem
  | intermediate location =>
    obtain ⟨hnot, h⟩ := check_bind_eq_ok.1 h
    have hnot := throwIf_eq_ok.1 hnot
    obtain rfl := Except.ok.inj h
    refine ⟨List.subset_cons_self _ _, List.Subset.refl _, ?_, ?_, ?_⟩
    · intro location' hmem
      obtain rfl := Mark.intermediate.inj (List.mem_singleton.1 hmem)
      exact List.mem_cons_self
    · intro location' hmem
      cases List.mem_singleton.1 hmem
    · intro hdisjoint location' hmem hmem'
      rcases List.mem_cons.1 hmem' with rfl | hmem'
      · exact hnot hmem
      · exact hdisjoint location' hmem hmem'

theorem marksGrow_foldlM {added : List Mark} {marks marks' : Marks}
    (h : added.foldlM Marks.add marks = .ok marks') : MarksGrow marks marks' added := by
  induction added generalizing marks with
  | nil =>
    obtain rfl := Except.ok.inj h
    exact ⟨List.Subset.refl _, List.Subset.refl _, fun _ hmem => absurd hmem List.not_mem_nil,
      fun _ hmem => absurd hmem List.not_mem_nil, fun hdisjoint => hdisjoint⟩
  | cons mark added ih =>
    rw [List.foldlM_cons] at h
    obtain ⟨marks₁, hfirst, hrest⟩ := bind_eq_ok.1 h
    have hadd := marksGrow_add hfirst
    have hgrow := ih hrest
    refine ⟨List.Subset.trans hadd.intermediateBytes hgrow.intermediateBytes,
      List.Subset.trans hadd.jumpLocations hgrow.jumpLocations, ?_, ?_,
      fun hdisjoint => hgrow.disjoint (hadd.disjoint hdisjoint)⟩
    · intro location hmem
      rcases List.mem_cons.1 hmem with rfl | hmem
      · exact hgrow.intermediateBytes (hadd.intermediate location List.mem_cons_self)
      · exact hgrow.intermediate location hmem
    · intro location hmem
      rcases List.mem_cons.1 hmem with rfl | hmem
      · exact hgrow.jumpLocations (hadd.jump location List.mem_cons_self)
      · exact hgrow.jump location hmem

/-! ## Heights -/

/-- There is room at a place for these heights. -/
def Room (heights : StackHeights) (q least greatest : ℕ) : Prop :=
  ∃ a b, heights q = some (a, b) ∧ a ≤ least ∧ greatest ≤ b

/-- **What joining successors leaves**: what is behind is as it was, what had room has, and every
successor has room. -/
structure HeightsGrow (next least greatest : ℕ) (heights heights' : StackHeights)
    (successors : List ℕ) : Prop where
  behind : ∀ q, q < next → heights' q = heights q
  room : ∀ q a b, Room heights q a b → Room heights' q a b
  successors : ∀ q ∈ successors, Room heights' q least greatest
  bounded : ∀ bound, (∀ q a b, heights q = some (a, b) → b ≤ bound) → greatest ≤ bound →
    ∀ q a b, heights' q = some (a, b) → b ≤ bound

theorem heightsGrow_join {next least greatest : ℕ} {heights heights' : StackHeights}
    {successor : ℕ} (h : joinSuccessor next least greatest heights successor = .ok heights') :
    HeightsGrow next least greatest heights heights' [successor] := by
  obtain ⟨hstable, h⟩ := check_bind_eq_ok.1 h
  have hstable := throwIf_eq_ok.1 hstable
  cases hget : heights successor with
  | none =>
    rw [hget] at h hstable
    obtain rfl := Except.ok.inj h
    have hahead : ¬ successor < next := fun hlt => hstable ⟨hlt, by rintro ⟨⟩⟩
    refine ⟨?_, ?_, ?_, ?_⟩
    · intro q hq
      rw [Function.update_of_ne (by omega)]
    · rintro q a b ⟨a', b', hq, hroom⟩
      have hne : q ≠ successor := by
        rintro rfl
        rw [hget] at hq
        cases hq
      exact ⟨a', b', by rw [Function.update_of_ne hne, hq], hroom⟩
    · intro q hmem
      obtain rfl := List.mem_singleton.1 hmem
      exact ⟨least, greatest, Function.update_self .., le_rfl, le_rfl⟩
    · intro bound hbound hgreatest q a b hq
      by_cases hne : q = successor
      · rw [hne, Function.update_self] at hq
        obtain ⟨-, rfl⟩ := Prod.mk.inj (Option.some.inj hq)
        exact hgreatest
      · rw [Function.update_of_ne hne] at hq
        exact hbound q a b hq
  | some known =>
    obtain ⟨knownLeast, knownGreatest⟩ := known
    rw [hget] at h hstable
    obtain rfl := Except.ok.inj h
    refine ⟨?_, ?_, ?_, ?_⟩
    · intro q hq
      by_cases hne : q = successor
      · rw [hne, Function.update_self, hget]
        -- a jump backwards finds the heights as they are
        have heq : some (knownLeast, knownGreatest) = some (least, greatest) := by
          by_contra hdiffer
          exact hstable ⟨hne ▸ hq, hdiffer⟩
        obtain ⟨rfl, rfl⟩ := Prod.mk.inj (Option.some.inj heq)
        rw [min_self, max_self]
      · rw [Function.update_of_ne hne]
    · rintro q a b ⟨a', b', hq, hleast, hgreatest⟩
      by_cases hne : q = successor
      · rw [hne, hget] at hq
        obtain ⟨rfl, rfl⟩ := Prod.mk.inj (Option.some.inj hq)
        refine ⟨_, _, by rw [hne, Function.update_self], ?_, ?_⟩ <;> omega
      · exact ⟨a', b', by rw [Function.update_of_ne hne, hq], hleast, hgreatest⟩
    · intro q hmem
      obtain rfl := List.mem_singleton.1 hmem
      exact ⟨_, _, Function.update_self .., by omega, by omega⟩
    · intro bound hbound hgreatest q a b hq
      by_cases hne : q = successor
      · rw [hne, Function.update_self] at hq
        obtain ⟨-, rfl⟩ := Prod.mk.inj (Option.some.inj hq)
        have := hbound _ _ _ hget
        omega
      · rw [Function.update_of_ne hne] at hq
        exact hbound q a b hq

theorem heightsGrow_foldlM {next least greatest : ℕ} {successors : List ℕ}
    {heights heights' : StackHeights}
    (h : successors.foldlM (joinSuccessor next least greatest) heights = .ok heights') :
    HeightsGrow next least greatest heights heights' successors := by
  induction successors generalizing heights with
  | nil =>
    obtain rfl := Except.ok.inj h
    exact ⟨fun _ _ => rfl, fun _ _ _ hroom => hroom, fun _ hmem => absurd hmem List.not_mem_nil,
      fun _ hbound _ => hbound⟩
  | cons successor successors ih =>
    rw [List.foldlM_cons] at h
    obtain ⟨heights₁, hfirst, hrest⟩ := bind_eq_ok.1 h
    have hjoin := heightsGrow_join hfirst
    have hgrow := ih hrest
    refine ⟨?_, ?_, ?_, ?_⟩
    · intro q hq
      rw [hgrow.behind q hq, hjoin.behind q hq]
    · intro q a b hroom
      exact hgrow.room q a b (hjoin.room q a b hroom)
    · intro q hmem
      rcases List.mem_cons.1 hmem with rfl | hmem
      · exact hgrow.room q _ _ (hjoin.successors q List.mem_cons_self)
      · exact hgrow.successors q hmem
    · intro bound hbound hgreatest
      exact hgrow.bounded bound (hjoin.bounded bound hbound hgreatest) hgreatest

/-! ## Jumps -/

theorem forall₂_of_mapM {α β : Type} {f : α → Except EOFError β} {items : List α} {values : List β}
    (h : items.mapM f = .ok values) :
    List.Forall₂ (fun item value => f item = .ok value) items values := by
  induction items generalizing values with
  | nil =>
    obtain rfl := Except.ok.inj h
    exact .nil
  | cons item items ih =>
    rw [List.mapM_cons] at h
    obtain ⟨value, hvalue, h⟩ := bind_eq_ok.1 h
    obtain ⟨rest, hrest, h⟩ := bind_eq_ok.1 h
    obtain rfl := Except.ok.inj h
    exact .cons hvalue (ih hrest)

theorem checkTarget_eq_ok {code : Bytes} {target : ℤ} {e : EOFError} {t : ℕ}
    (h : checkTarget code target e = .ok t) : (t : ℤ) = target ∧ t < code.length := by
  obtain ⟨hinside, h⟩ := check_bind_eq_ok.1 h
  have hinside := throwIf_eq_ok.1 hinside
  obtain rfl := Except.ok.inj h
  omega

/-- What a jump table says. -/
structure TableSays (code : Bytes) (k : ℕ) (size : UInt8) (targets : List ℕ) : Prop where
  sizeByte : code[k + 1]? = some size
  inside : k + (size.toNat + 1) * 2 + 2 < code.length
  read : ∀ i, i ≤ size.toNat → ∃ (offset : ℤ) (t : ℕ),
    readInt16 code (k + 2 + i * 2) = some offset ∧
    (t : ℤ) = offset + (k + 2 + (size.toNat + 1) * 2 : ℕ) ∧ t ∈ targets
  entries : ∀ t ∈ targets, t < code.length ∧ ∃ i ≤ size.toNat,
    (i, t) ∈ (List.range (size.toNat + 1)).zip targets
  covered : ∀ i ≤ size.toNat, ∃ t, (i, t) ∈ (List.range (size.toNat + 1)).zip targets

theorem readJumps_cases {code : Bytes} {k opcode : ℕ} {jumps : Jumps}
    (h : readJumps code k opcode = .ok jumps) :
    ((opcode = 0xe0 ∨ opcode = 0xe1) ∧ ∃ (offset : ℤ) (t : ℕ),
      readInt16 code (k + 1) = some offset ∧ (t : ℤ) = offset + k + 3 ∧ t < code.length ∧
        jumps = ⟨[t], [.jump t], 0⟩) ∨
    (opcode = 0xe2 ∧ ∃ size targets, TableSays code k size targets ∧
      jumps = ⟨targets, ((List.range (size.toNat + 1)).zip targets).flatMap (tableMarks k) ++
        [.intermediate (k + 1)], 2 * (size.toNat + 1) + 1⟩) ∨
    ((opcode < 0xe0 ∨ 0xe2 < opcode) ∧ jumps = ⟨[], [], 0⟩) := by
  rw [readJumps] at h
  split at h
  · next hopcode =>
    obtain ⟨offset, hoffset, h⟩ := bind_eq_ok.1 h
    obtain ⟨t, ht, h⟩ := bind_eq_ok.1 h
    obtain rfl := Except.ok.inj h
    obtain ⟨heq, hlt⟩ := checkTarget_eq_ok ht
    exact .inl ⟨hopcode, offset, t, orThrow_eq_ok.1 hoffset, heq, hlt, rfl⟩
  · next hnot =>
    split at h
    · next hopcode =>
      refine .inr (.inl ⟨hopcode, ?_⟩)
      split at h
      · cases h
      · next size hsize =>
        obtain ⟨hinside, h⟩ := check_bind_eq_ok.1 h
        have hinside := throwIf_eq_ok.1 hinside
        obtain ⟨targets, htargets, h⟩ := bind_eq_ok.1 h
        obtain rfl := Except.ok.inj h
        have hall := forall₂_of_mapM htargets
        have hlen : targets.length = size.toNat + 1 := by
          rw [← hall.length_eq, List.length_range]
        -- the entry numbered `i`
        have hentry : ∀ i (hi : i < targets.length),
            tableTarget code k (k + 2 + (size.toNat + 1) * 2) i = .ok targets[i] := by
          intro i hi
          have hget := hall.get (by rw [List.length_range]; omega) hi
          simpa using hget
        have hzip : ∀ i (hi : i < targets.length),
            (i, targets[i]) ∈ (List.range (size.toNat + 1)).zip targets := by
          intro i hi
          refine List.mem_iff_getElem.2 ⟨i, by simp; omega, by simp⟩
        refine ⟨size, targets, ⟨hsize, by omega, ?_, ?_, ?_⟩, rfl⟩
        · intro i hi
          obtain ⟨offset, hoffset, hchecked⟩ := bind_eq_ok.1 (hentry i (by omega))
          exact ⟨offset, _, orThrow_eq_ok.1 hoffset, (checkTarget_eq_ok hchecked).1,
            List.getElem_mem _⟩
        · intro t ht
          obtain ⟨i, hi, rfl⟩ := List.mem_iff_getElem.1 ht
          obtain ⟨offset, -, hchecked⟩ := bind_eq_ok.1 (hentry i hi)
          exact ⟨(checkTarget_eq_ok hchecked).2, i, by omega, hzip i hi⟩
        · intro i hi
          exact ⟨_, hzip i (by omega)⟩
    · next hnot' =>
      obtain rfl := Except.ok.inj h
      refine .inr (.inr ⟨by omega, rfl⟩)

theorem targets_of_readJumps {code : Bytes} {k opcode : ℕ} {jumps : Jumps}
    (h : readJumps code k opcode = .ok jumps) :
    ∀ t ∈ jumps.targets, t < code.length ∧ .jump t ∈ jumps.marks := by
  intro t ht
  rcases readJumps_cases h with ⟨-, -, t', -, -, hlt, rfl⟩ | ⟨-, size, targets, hsays, rfl⟩ |
    ⟨-, rfl⟩
  · obtain rfl := List.mem_singleton.1 ht
    exact ⟨hlt, List.mem_cons_self⟩
  · obtain ⟨hlt, i, -, hmem⟩ := hsays.entries t ht
    refine ⟨hlt, List.mem_append_left _ (List.mem_flatMap.2 ⟨(i, t), hmem, ?_⟩)⟩
    simp [tableMarks]
  · cases ht

theorem skipped_of_readJumps {code : Bytes} {k opcode : ℕ} {jumps : Jumps}
    (h : readJumps code k opcode = .ok jumps) {j : ℕ} (hlt : k < j)
    (hle : j ≤ k + jumps.skipped) : .intermediate j ∈ jumps.marks := by
  rcases readJumps_cases h with ⟨-, -, t', -, -, -, rfl⟩ | ⟨-, size, targets, hsays, rfl⟩ |
    ⟨-, rfl⟩
  · dsimp only at hle
    omega
  · dsimp only at hle
    by_cases hfirst : j = k + 1
    · exact List.mem_append_right _ (by rw [hfirst]; exact List.mem_singleton_self _)
    · obtain ⟨t, hmem⟩ := hsays.covered ((j - (k + 2)) / 2) (by omega)
      refine List.mem_append_left _ (List.mem_flatMap.2 ⟨_, hmem, ?_⟩)
      have hparity : j = k + 2 + (j - (k + 2)) / 2 * 2 ∨
          j = k + 2 + (j - (k + 2)) / 2 * 2 + 1 := by
        omega
      rw [tableMarks]
      dsimp only
      rcases hparity with heq | heq
      · rw [← heq]
        exact List.mem_cons_self
      · rw [← heq]
        exact List.mem_cons_of_mem _ List.mem_cons_self
  · dsimp only at hle
    omega

/-! ## One instruction -/

/-- What a turn of the pass computes. -/
structure Turn where
  minStack : ℕ
  maxStack : ℕ
  opcode : ℕ
  delta : StackDelta
  jumps : Jumps
  checked : Checked

namespace Turn

/-- Where the next instruction starts. -/
def next (turn : Turn) (k : ℕ) : ℕ := k + turn.jumps.skipped + turn.delta.intermediates + 1

/-- What is marked. -/
def marks (turn : Turn) (k : ℕ) : List Mark :=
  turn.jumps.marks ++ (List.range turn.delta.intermediates).map fun i =>
    Mark.intermediate (k + turn.jumps.skipped + (i + 1))

/-- The successors. -/
def successors (turn : Turn) (k : ℕ) : List ℕ :=
  successorsOf turn.jumps.targets turn.delta.terminating turn.opcode (turn.next k)

end Turn

section

variable {container : EOFContainer} {mode : ContainerSectionType} {opcodes : ℕ → Bool}
variable {current : TypeSection} {code : Bytes}

/-- **A turn is right** about the instruction at `k`. -/
structure Turn.Right (container : EOFContainer) (mode : ContainerSectionType)
    (current : TypeSection) (code : Bytes) (heights : StackHeights) (k : ℕ) (turn : Turn) :
    Prop where
  heights : heights k = some (turn.minStack, turn.maxStack)
  opcode : code[k]?.map UInt8.toNat = some turn.opcode
  delta : stackDelta turn.opcode = some turn.delta
  inputs : turn.delta.inputs ≤ turn.minStack
  returning : ¬ (current.outputs = 0x80 ∧ turn.opcode = 0xe4)
  jumps : readJumps code k turn.opcode = .ok turn.jumps
  checked : checkOpcode container mode current code k turn.opcode turn.minStack turn.maxStack
    (turn.minStack - turn.delta.inputs + turn.delta.outputs)
    (turn.maxStack - turn.delta.inputs + turn.delta.outputs) = .ok turn.checked
  inside : turn.next k ≤ code.length

/-- What a turn leaves. -/
structure Turn.Leaves (turn : Turn) (st st' : SectionState) : Prop where
  ptr : st'.ptr = turn.next st.ptr
  lastOpcode : st'.lastOpcode = turn.opcode
  marks : MarksGrow st.marks st'.marks (turn.marks st.ptr)
  heights : HeightsGrow (turn.next st.ptr) turn.checked.minStackNext turn.checked.maxStackNext
    st.stackHeights st'.stackHeights (turn.successors st.ptr)
  maxStackHeight : st'.maxStackHeight = max turn.checked.maxStackNext st.maxStackHeight

theorem validateInstruction_cases {st st' : SectionState}
    (h : validateInstruction container mode opcodes current code st = .ok st') :
    ∃ turn : Turn, turn.Right container mode current code st.stackHeights st.ptr ∧
      turn.Leaves st st' := by
  rw [validateInstruction] at h
  obtain ⟨-, h⟩ := check_bind_eq_ok.1 h
  obtain ⟨⟨minStack, maxStack⟩, hheights, h⟩ := bind_eq_ok.1 h
  obtain ⟨opcode, hopcode, h⟩ := bind_eq_ok.1 h
  obtain ⟨delta, hdelta, h⟩ := bind_eq_ok.1 h
  obtain ⟨hinputs, h⟩ := check_bind_eq_ok.1 h
  obtain ⟨-, h⟩ := check_bind_eq_ok.1 h
  obtain ⟨hreturning, h⟩ := check_bind_eq_ok.1 h
  obtain ⟨-, h⟩ := check_bind_eq_ok.1 h
  obtain ⟨jumps, hjumps, h⟩ := bind_eq_ok.1 h
  obtain ⟨-, h⟩ := check_bind_eq_ok.1 h
  obtain ⟨checked, hchecked, h⟩ := bind_eq_ok.1 h
  obtain ⟨containerTypeMap, -, h⟩ := bind_eq_ok.1 h
  obtain ⟨marks, hmarks, h⟩ := bind_eq_ok.1 h
  obtain ⟨hinside, h⟩ := check_bind_eq_ok.1 h
  obtain ⟨heights, hgrow, h⟩ := bind_eq_ok.1 h
  obtain rfl := Except.ok.inj h
  have hinputs := throwIf_eq_ok.1 hinputs
  have hinside := throwIf_eq_ok.1 hinside
  refine ⟨⟨minStack, maxStack, opcode, delta, jumps, checked⟩,
    ⟨orThrow_eq_ok.1 hheights, orThrow_eq_ok.1 hopcode, orThrow_eq_ok.1 hdelta, by
      dsimp only
      omega, throwIf_eq_ok.1 hreturning, hjumps, hchecked, ?_⟩,
    ⟨rfl, rfl, marksGrow_foldlM hmarks, heightsGrow_foldlM hgrow, rfl⟩⟩
  rw [Turn.next]
  dsimp only
  omega

variable {heights : StackHeights} {k : ℕ} {turn : Turn}

theorem Turn.Right.handler (h : turn.Right container mode current code heights k) :
    ∃ (byte : UInt8) (handler' : Handler), code[k]? = some byte ∧ byte.toNat = turn.opcode ∧
      handler byte.toNat = some handler' ∧ turn.delta.Agrees turn.opcode handler' := by
  obtain ⟨byte, hbyte, hopcode⟩ := Option.map_eq_some_iff.1 h.opcode
  obtain ⟨handler', hhandler, hagrees⟩ :=
    agrees_of_stackDelta (by rw [← hopcode]; exact byte.toNat_lt) h.delta
  exact ⟨byte, handler', hbyte, hopcode, by rw [hopcode, hhandler], hagrees⟩

theorem Turn.Right.isInstruction (h : turn.Right container mode current code heights k)
    (hk : IsInstruction code k) : IsInstruction code (turn.next k) := by
  obtain ⟨byte, handler', hbyte, hopcode, hhandler, hagrees⟩ := h.handler
  have hsize : handler'.size code k = some (turn.jumps.skipped + turn.delta.intermediates + 1) := by
    rcases readJumps_cases h.jumps with ⟨hjump, _, _, _, _, _, hjumps⟩ |
      ⟨hjump, size, targets, hsays, hjumps⟩ | ⟨hno, hjumps⟩
    · rw [hjumps]
      cases handler' <;> simp only [StackDelta.Agrees] at hagrees <;>
        simp only [Handler.size, hagrees] <;> omega
    · rw [hjumps]
      cases handler' <;> simp only [StackDelta.Agrees] at hagrees <;>
        simp only [Handler.size, hagrees, hsays.sizeByte] <;> first | omega | (simp; omega)
    · rw [hjumps]
      cases handler' <;> simp only [StackDelta.Agrees] at hagrees <;>
        simp only [Handler.size, hagrees] <;> first | omega | (congr 1; omega)
  have hnext := IsInstruction.next hk hbyte hhandler hsize
  rw [Turn.next]
  have heq : k + turn.jumps.skipped + turn.delta.intermediates + 1 =
      k + (turn.jumps.skipped + turn.delta.intermediates + 1) := by
    omega
  rw [heq]
  exact hnext

theorem Turn.Right.intermediate (h : turn.Right container mode current code heights k) {j : ℕ}
    (hlt : k < j) (hnext : j < turn.next k) : .intermediate j ∈ turn.marks k := by
  rw [Turn.next] at hnext
  by_cases hskipped : j ≤ k + turn.jumps.skipped
  · exact List.mem_append_left _ (skipped_of_readJumps h.jumps hlt hskipped)
  · refine List.mem_append_right _ (List.mem_map.2 ⟨j - (k + turn.jumps.skipped) - 1, ?_, ?_⟩)
    · rw [List.mem_range]
      omega
    · congr 1
      omega

/-! ## The pass -/

/-- What has been found of an instruction that was passed: its turn was right, what comes after it
has room, what it jumps to is marked, and the instruction right after it was passed, or is next. -/
structure PassedAt (container : EOFContainer) (mode : ContainerSectionType) (current : TypeSection)
    (code : Bytes) (starts : ℕ → Prop) (st : SectionState) (k : ℕ) (turn : Turn) : Prop where
  right : turn.Right container mode current code st.stackHeights k
  room : ∀ q ∈ turn.successors k,
    Room st.stackHeights q turn.checked.minStackNext turn.checked.maxStackNext
  targets : ∀ t ∈ turn.jumps.targets, t ∈ st.marks.jumpLocations
  next : starts (turn.next k) ∨ turn.next k = st.ptr ∧ st.lastOpcode = turn.opcode

/-- **The invariant of the pass**, with the instructions that were passed. -/
structure PassInv (container : EOFContainer) (mode : ContainerSectionType) (current : TypeSection)
    (code : Bytes) (starts : ℕ → Prop) (st : SectionState) : Prop where
  instruction : IsInstruction code st.ptr
  inside : st.ptr ≤ code.length
  behind : ∀ k, starts k → k < st.ptr ∧ IsInstruction code k
  zero : st.ptr = 0 ∨ starts 0
  covered : ∀ j, j < st.ptr → starts j ∨ j ∈ st.marks.intermediateBytes
  disjoint : ∀ location ∈ st.marks.jumpLocations, location ∉ st.marks.intermediateBytes
  passed : ∀ k, starts k → ∃ turn, PassedAt container mode current code starts st k turn
  first : Room st.stackHeights 0 current.inputs current.inputs
  bounded : ∀ q a b, st.stackHeights q = some (a, b) → b ≤ st.maxStackHeight

theorem passInv_initial (containerTypeMap : JsMap ℕ ContainerSectionType) :
    PassInv container mode current code (fun _ => False)
      (SectionState.initial current containerTypeMap) where
  instruction := .first
  inside := Nat.zero_le _
  behind k hk := hk.elim
  zero := .inl rfl
  covered j hj := absurd hj (Nat.not_lt_zero j)
  disjoint location hmem := absurd hmem List.not_mem_nil
  passed k hk := hk.elim
  first := by
    refine ⟨current.inputs, current.inputs, ?_, le_rfl, le_rfl⟩
    rw [SectionState.initial]
    dsimp only
    rw [Function.update_self]
  bounded q a b hq := by
    rw [SectionState.initial] at hq
    dsimp only at hq
    by_cases hzero : q = 0
    · rw [hzero, Function.update_self] at hq
      obtain ⟨-, rfl⟩ := Prod.mk.inj (Option.some.inj hq)
      exact le_rfl
    · rw [Function.update_of_ne hzero] at hq
      cases hq

theorem Turn.lt_next (turn : Turn) (k : ℕ) : k < turn.next k := by
  rw [Turn.next]
  omega

theorem PassInv.step {starts : ℕ → Prop} {st st' : SectionState}
    (hinv : PassInv container mode current code starts st)
    (h : validateInstruction container mode opcodes current code st = .ok st') :
    PassInv container mode current code (fun k => starts k ∨ k = st.ptr) st' ∧
      st.ptr < st'.ptr := by
  obtain ⟨turn, hright, hleaves⟩ := validateInstruction_cases h
  have hlt : st.ptr < st'.ptr := by
    rw [hleaves.ptr]
    exact turn.lt_next st.ptr
  refine ⟨⟨?_, ?_, ?_, ?_, ?_, hleaves.marks.disjoint hinv.disjoint, ?_, ?_, ?_⟩, hlt⟩
  · rw [hleaves.ptr]
    exact hright.isInstruction hinv.instruction
  · rw [hleaves.ptr]
    exact hright.inside
  · rintro k (hk | rfl)
    · obtain ⟨hbefore, hinstruction⟩ := hinv.behind k hk
      exact ⟨by omega, hinstruction⟩
    · exact ⟨hlt, hinv.instruction⟩
  · rcases hinv.zero with hzero | hstart
    · exact .inr (.inr hzero.symm)
    · exact .inr (.inl hstart)
  · intro j hj
    -- before the instruction, its opcode, or one of its immediates
    rcases lt_trichotomy j st.ptr with hbefore | rfl | hafter
    · rcases hinv.covered j hbefore with hstart | hmarked
      · exact .inl (.inl hstart)
      · exact .inr (hleaves.marks.intermediateBytes hmarked)
    · exact .inl (.inr rfl)
    · rw [hleaves.ptr] at hj
      exact .inr (hleaves.marks.intermediate j (hright.intermediate hafter hj))
  · rintro k (hk | rfl)
    · obtain ⟨turn', hpassed⟩ := hinv.passed k hk
      have hbefore := (hinv.behind k hk).1
      refine ⟨turn', ⟨?_, ?_, ?_, ?_⟩⟩
      -- the heights of what is behind stay as they were passed
      · have hsame := hleaves.heights.behind k (by rw [← hleaves.ptr]; omega)
        exact { hpassed.right with heights := hsame.trans hpassed.right.heights }
      · intro q hq
        exact hleaves.heights.room q _ _ (hpassed.room q hq)
      · intro t ht
        exact hleaves.marks.jumpLocations (hpassed.targets t ht)
      · rcases hpassed.next with hstart | ⟨hnext, -⟩
        · exact .inl (.inl hstart)
        · exact .inl (.inr hnext)
    · refine ⟨turn, ⟨?_, hleaves.heights.successors, ?_,
        .inr ⟨hleaves.ptr.symm, hleaves.lastOpcode⟩⟩⟩
      · have hsame := hleaves.heights.behind st.ptr (turn.lt_next st.ptr)
        exact { hright with heights := hsame.trans hright.heights }
      · intro t ht
        exact hleaves.marks.jump t
          (List.mem_append_left _ (targets_of_readJumps hright.jumps t ht).2)
  · exact hleaves.heights.room 0 _ _ hinv.first
  · rw [hleaves.maxStackHeight]
    refine hleaves.heights.bounded _ ?_ (le_max_left _ _)
    intro q a b hq
    exact (hinv.bounded q a b hq).trans (le_max_right _ _)

theorem PassInv.run {fuel : ℕ} {starts : ℕ → Prop} {st st' : SectionState}
    (hinv : PassInv container mode current code starts st)
    (h : validateInstructions container mode opcodes current code fuel st = .ok st') :
    ∃ starts', PassInv container mode current code starts' st' ∧ st'.ptr = code.length := by
  induction fuel generalizing starts st with
  | zero =>
    rw [validateInstructions] at h
    split at h
    · cases h
    · obtain rfl := Except.ok.inj h
      have := hinv.inside
      exact ⟨starts, hinv, by omega⟩
  | succ fuel ih =>
    rw [validateInstructions] at h
    split at h
    · obtain ⟨st₁, hfirst, hrest⟩ := bind_eq_ok.1 h
      exact ih (hinv.step hfirst).1 hrest
    · obtain rfl := Except.ok.inj h
      have := hinv.inside
      exact ⟨starts, hinv, by omega⟩

theorem validateInstructions_behind {fuel : ℕ} {st : SectionState}
    (hbehind : ¬ st.ptr < code.length) :
    validateInstructions container mode opcodes current code fuel st = .ok st := by
  cases fuel with
  | zero => rw [validateInstructions, if_neg hbehind]
  | succ fuel => rw [validateInstructions, if_neg hbehind]

theorem validateInstructions_fuel {fuel : ℕ} {starts : ℕ → Prop} {st : SectionState}
    (hinv : PassInv container mode current code starts st)
    (hfuel : code.length ≤ st.ptr + fuel) (more : ℕ) :
    validateInstructions container mode opcodes current code (fuel + more) st =
      validateInstructions container mode opcodes current code fuel st := by
  induction fuel generalizing starts st with
  | zero =>
    have hstops : ¬ st.ptr < code.length := by omega
    rw [validateInstructions_behind hstops, validateInstructions_behind hstops]
  | succ fuel ih =>
    by_cases hgoes : st.ptr < code.length
    · rw [Nat.succ_add, validateInstructions, validateInstructions, if_pos hgoes, if_pos hgoes]
      cases hfirst : validateInstruction container mode opcodes current code st with
      | error e => rfl
      | ok st₁ =>
        obtain ⟨hinv₁, hlt⟩ := hinv.step hfirst
        exact ih hinv₁ (by omega)
    · rw [validateInstructions_behind hgoes, validateInstructions_behind hgoes]

/-! ## The certificate -/

/-- **An instruction that the heights are right about**: what comes after it is such an instruction,
with room. -/
structure CertifiedAt (container : EOFContainer) (mode : ContainerSectionType)
    (current : TypeSection) (code : Bytes) (starts : ℕ → Prop) (heights : StackHeights) (k : ℕ)
    (turn : Turn) : Prop where
  right : turn.Right container mode current code heights k
  room : ∀ q ∈ turn.successors k, starts q ∧
    Room heights q turn.checked.minStackNext turn.checked.maxStackNext

/-- **Certified heights** of a code section: of its first instruction, and of all that come after
one. -/
structure Certified (container : EOFContainer) (mode : ContainerSectionType)
    (current : TypeSection) (code : Bytes) (starts : ℕ → Prop) (heights : StackHeights) :
    Prop where
  first : starts 0 ∧ Room heights 0 current.inputs current.inputs
  bounded : ∀ q a b, heights q = some (a, b) → b ≤ current.maxStackHeight
  instruction : ∀ k, starts k → IsInstruction code k ∧
    ∃ turn, CertifiedAt container mode current code starts heights k turn

theorem terminating_of_mem {opcode : ℕ} {delta : StackDelta}
    (hdelta : stackDelta opcode = some delta) (hmem : opcode ∈ terminatingOpcodes) : delta.terminating = true ∨ opcode = 0xe0 := by
  have hall : ∀ opcode ∈ terminatingOpcodes,
      (stackDelta opcode).all (fun delta => delta.terminating || opcode == 0xe0) = true := by
    decide +kernel
  have hthis := hall opcode hmem
  rw [hdelta] at hthis
  simpa using hthis

theorem certified_of_validateSection {containerTypeMap : JsMap ℕ ContainerSectionType}
    {codeSection : ℕ} {st : SectionState} (hnonempty : 0 < code.length)
    (h : validateSection container mode opcodes containerTypeMap codeSection code = .ok st) :
    ∃ current starts heights, container.body.typeSections[codeSection]? = some current ∧
      Certified container mode current code starts heights := by
  rw [validateSection] at h
  obtain ⟨current, hcurrent, h⟩ := bind_eq_ok.1 h
  obtain ⟨st', hrun, h⟩ := bind_eq_ok.1 h
  obtain ⟨hterminator, h⟩ := check_bind_eq_ok.1 h
  obtain ⟨hheight, h⟩ := check_bind_eq_ok.1 h
  have hterminator := throwIf_eq_ok.1 hterminator
  have hheight := throwIf_eq_ok.1 hheight
  obtain ⟨starts, hinv, hptr⟩ := PassInv.run (passInv_initial containerTypeMap) hrun
  refine ⟨current, starts, st'.stackHeights, orThrow_eq_ok.1 hcurrent, ⟨⟨?_, hinv.first⟩, ?_, ?_⟩⟩
  · rcases hinv.zero with hzero | hstart
    · omega
    · exact hstart
  · intro q a b hq
    rw [not_not.1 hheight]
    exact hinv.bounded q a b hq
  · intro k hk
    refine ⟨(hinv.behind k hk).2, ?_⟩
    obtain ⟨turn, hpassed⟩ := hinv.passed k hk
    refine ⟨turn, hpassed.right, ?_⟩
    intro q hq
    refine ⟨?_, hpassed.room q hq⟩
    rcases List.mem_append.1 hq with htarget | hnext
    · -- what is jumped to is no immediate, so an instruction starts there
      have hlt := (targets_of_readJumps hpassed.right.jumps q htarget).1
      rcases hinv.covered q (by omega) with hstart | hmarked
      · exact hstart
      · exact absurd hmarked (hinv.disjoint q (hpassed.targets q htarget))
    · split at hnext
      · next hgoes =>
        obtain rfl := List.mem_singleton.1 hnext
        rcases hpassed.next with hstart | ⟨-, hlast⟩
        · exact hstart
        · have hmem : turn.opcode ∈ terminatingOpcodes := by
            have hlastMem := not_not.1 hterminator
            rw [hlast] at hlastMem
            exact (List.mem_filter.1 hlastMem).1
          rcases terminating_of_mem hpassed.right.delta hmem with hterminates | hrjump
          · rw [hgoes.1] at hterminates
            cases hterminates
          · exact absurd hrjump hgoes.2
      · cases hnext

end

end Eof

end TsEthereum
