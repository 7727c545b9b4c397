import Mathlib.Data.List.Induction
import Mathlib.Data.List.Infix

/-!
# Nested checkpoints

What checkpoints are for, whatever keeps them: a checkpoint saves the state, a
revert goes back to the one saved last, a commit forgets it. So a revert
restores the state at the checkpoint it belongs to, whatever is in between
(`Snapshots.revert_matched`), and a store that follows snapshots step by step
does the same (`follows_foldl`, `exists_restored`).
-/

namespace TsEthereum

universe u v w

/-- **A call**: a write, or one on the checkpoints. -/
inductive SnapshotOp (ω : Type u) where
  | write (w : ω)
  | checkpoint
  | commit
  | revert

/-- How many checkpoints are open after some calls; none is closed that was not
opened. -/
def depthAfter {ω : Type u} : ℕ → List (SnapshotOp ω) → Option ℕ
  | depth, [] => some depth
  | depth, .write _ :: ops => depthAfter depth ops
  | depth, .checkpoint :: ops => depthAfter (depth + 1) ops
  | 0, .commit :: _ => none
  | 0, .revert :: _ => none
  | depth + 1, .commit :: ops => depthAfter depth ops
  | depth + 1, .revert :: ops => depthAfter depth ops

/-- **Properly nested calls**, from no open checkpoint on. -/
def Nested {ω : Type u} (ops : List (SnapshotOp ω)) : Prop := ∃ depth, depthAfter 0 ops = some depth

/-- **Matched calls**: each checkpoint that is opened is closed. -/
def Matched {ω : Type u} (ops : List (SnapshotOp ω)) : Prop := depthAfter 0 ops = some 0

/-- A checkpoint, some calls, and the revert that belongs to it. -/
def reverted {ω : Type u} (body : List (SnapshotOp ω)) : List (SnapshotOp ω) :=
  .checkpoint :: (body ++ [.revert])

/-- **The state, and the saved ones**, the last saved first. -/
structure Snapshots (σ : Type v) where
  current : σ
  saved : List σ

section

variable {ω : Type u} {σ : Type v} {write : σ → ω → σ} {n m : ℕ}

/-- What a call does. -/
def Snapshots.step (write : σ → ω → σ) (s : Snapshots σ) : SnapshotOp ω → Snapshots σ
  | .write w => { s with current := write s.current w }
  | .checkpoint => { s with saved := s.current :: s.saved }
  | .commit => { s with saved := s.saved.tail }
  | .revert => ⟨s.saved.head?.getD s.current, s.saved.tail⟩

theorem depthAfter_append (ops ops' : List (SnapshotOp ω)) :
    depthAfter n (ops ++ ops') = (depthAfter n ops).bind fun m => depthAfter m ops' := by
  induction ops generalizing n with
  | nil => rfl
  | cons op ops ih =>
    rcases op with w | _ | _ | _
    · exact ih
    · exact ih
    · rcases n with _ | n
      · rfl
      · exact ih
    · rcases n with _ | n
      · rfl
      · exact ih

theorem depthAfter_add (k : ℕ) {ops : List (SnapshotOp ω)} (h : depthAfter n ops = some m) :
    depthAfter (n + k) ops = some (m + k) := by
  induction ops generalizing n with
  | nil => rw [depthAfter, ← Option.some.inj h]
  | cons op ops ih =>
    rcases op with w | _ | _ | _
    · exact ih h
    · rw [depthAfter, Nat.add_right_comm]
      exact ih h
    · rcases n with _ | n
      · cases h
      · rw [Nat.add_right_comm]
        exact ih h
    · rcases n with _ | n
      · cases h
      · rw [Nat.add_right_comm]
        exact ih h

theorem depthAfter_reverted {body : List (SnapshotOp ω)} (h : Matched body) (n : ℕ) :
    depthAfter n (reverted body) = some n := by
  have hbody := depthAfter_add (n + 1) h
  rw [Nat.zero_add] at hbody
  rw [reverted, depthAfter, depthAfter_append, hbody]
  rfl

/-- **What was saved before is not touched**, at whatever depth the calls
are. -/
theorem Snapshots.foldl_step (write : σ → ω → σ) (ops : List (SnapshotOp ω)) (s : σ) (top base : List σ)
    (h : depthAfter top.length ops = some m) :
    ∃ s' top', ops.foldl (Snapshots.step write) ⟨s, top ++ base⟩ = ⟨s', top' ++ base⟩ ∧
      top'.length = m := by
  induction ops generalizing s top with
  | nil => exact ⟨s, top, rfl, Option.some.inj h⟩
  | cons op ops ih =>
    rcases op with w | _ | _ | _
    · exact ih (write s w) top h
    · exact ih s (s :: top) h
    · rcases top with _ | ⟨t, top⟩
      · cases h
      · exact ih s top h
    · rcases top with _ | ⟨t, top⟩
      · cases h
      · exact ih t top h

theorem Snapshots.revert_matched {body : List (SnapshotOp ω)} (h : Matched body)
    (s : Snapshots σ) : (reverted body).foldl (Snapshots.step write) s = s := by
  obtain ⟨s', top, hbody, hlength⟩ := Snapshots.foldl_step write body s.current []
    (s.current :: s.saved) h
  rw [List.eq_nil_of_length_eq_zero hlength] at hbody
  rw [reverted, List.foldl_cons, List.foldl_append]
  change List.foldl _ (body.foldl _ ⟨s.current, [] ++ s.current :: s.saved⟩) _ = s
  rw [hbody]
  rfl

theorem Snapshots.length_saved (write : σ → ω → σ) (s : Snapshots σ) {ops : List (SnapshotOp ω)}
    (h : depthAfter s.saved.length ops = some m) :
    (ops.foldl (Snapshots.step write) s).saved.length = m := by
  obtain ⟨s', top, hops, hlength⟩ := Snapshots.foldl_step write ops s.current s.saved [] h
  rw [List.append_nil, List.append_nil] at hops
  change (ops.foldl _ (⟨s.current, s.saved⟩ : Snapshots σ)).saved.length = m
  rw [hops]
  exact hlength

end

/-! ## Following snapshots -/

section

variable {ω : Type u} {σ : Type v} {γ : Type w} {write : σ → ω → σ} {step : γ → SnapshotOp ω → γ}
variable {R : γ → Snapshots σ → Prop} {Fine : γ → SnapshotOp ω → Prop} {n m : ℕ}

/-- **A store follows snapshots**: each call that is fine does the same, where
a checkpoint is closed that was opened. -/
structure FollowsSnapshots (write : σ → ω → σ) (step : γ → SnapshotOp ω → γ)
    (R : γ → Snapshots σ → Prop) (Fine : γ → SnapshotOp ω → Prop) : Prop where
  onWrite : ∀ c s w, R c s → Fine c (.write w) → R (step c (.write w)) (s.step write (.write w))
  onCheckpoint : ∀ c s, R c s → Fine c .checkpoint →
    R (step c .checkpoint) (s.step write .checkpoint)
  onCommit : ∀ c s, R c s → Fine c .commit → s.saved ≠ [] →
    R (step c .commit) (s.step write .commit)
  onRevert : ∀ c s, R c s → Fine c .revert → s.saved ≠ [] →
    R (step c .revert) (s.step write .revert)

/-- Every call is fine where it is made. -/
def AllFine (step : γ → SnapshotOp ω → γ) (Fine : γ → SnapshotOp ω → Prop) (c : γ)
    (ops : List (SnapshotOp ω)) : Prop :=
  ∀ pre op, pre ++ [op] <+: ops → Fine (pre.foldl step c) op

theorem allFine_cons {c : γ} {op : SnapshotOp ω} {ops : List (SnapshotOp ω)} :
    AllFine step Fine c (op :: ops) ↔ Fine c op ∧ AllFine step Fine (step c op) ops := by
  refine ⟨fun h => ⟨h [] op ⟨ops, rfl⟩, fun pre op' hpre =>
    h (op :: pre) op' (List.cons_prefix_cons.2 ⟨rfl, hpre⟩)⟩, ?_⟩
  rintro ⟨hop, hrest⟩ (_ | ⟨op', pre⟩) op'' hpre
  · obtain ⟨rfl, -⟩ := List.cons_prefix_cons.1 hpre
    exact hop
  · rw [List.cons_append] at hpre
    obtain ⟨rfl, hrest'⟩ := List.cons_prefix_cons.1 hpre
    exact hrest pre op'' hrest'

theorem allFine_nil {c : γ} : AllFine step Fine c [] := fun pre op hpre =>
  absurd (List.prefix_nil.1 hpre) (by simp)

theorem AllFine.of_append {c : γ} {ops ops' : List (SnapshotOp ω)}
    (h : AllFine step Fine c (ops ++ ops')) :
    AllFine step Fine c ops ∧ AllFine step Fine (ops.foldl step c) ops' := by
  refine ⟨fun pre op hpre => h pre op (hpre.trans (List.prefix_append _ _)), fun pre op hpre => ?_⟩
  have := h (ops ++ pre) op (by rw [List.append_assoc]; exact (List.prefix_append_right_inj _).2 hpre)
  rwa [List.foldl_append] at this

theorem FollowsSnapshots.foldl (h : FollowsSnapshots write step R Fine) {ops : List (SnapshotOp ω)} {c : γ}
    {s : Snapshots σ} (hR : R c s) (hdepth : depthAfter s.saved.length ops = some m)
    (hfine : AllFine step Fine c ops) :
    R (ops.foldl step c) (ops.foldl (Snapshots.step write) s) := by
  induction ops generalizing c s with
  | nil => exact hR
  | cons op ops ih =>
    obtain ⟨hop, hrest⟩ := allFine_cons.1 hfine
    rcases op with w | _ | _ | _
    · exact ih (h.onWrite c s w hR hop) hdepth hrest
    · exact ih (h.onCheckpoint c s hR hop) hdepth hrest
    · rcases s with ⟨s, _ | ⟨t, saved⟩⟩
      · cases hdepth
      · exact ih (h.onCommit c _ hR hop (List.cons_ne_nil _ _)) hdepth hrest
    · rcases s with ⟨s, _ | ⟨t, saved⟩⟩
      · cases hdepth
      · exact ih (h.onRevert c _ hR hop (List.cons_ne_nil _ _)) hdepth hrest

/-- **A revert restores what the store stands for**: it then follows the same
snapshots as at the checkpoint. -/
theorem FollowsSnapshots.exists_restored (h : FollowsSnapshots write step R Fine) {pre body : List (SnapshotOp ω)}
    {c : γ} {s : σ} (hR : R c ⟨s, []⟩) (hpre : Nested pre) (hbody : Matched body)
    (hfine : AllFine step Fine c (pre ++ reverted body)) :
    ∃ t, R (pre.foldl step c) t ∧
      R ((pre ++ reverted body).foldl step c) t := by
  obtain ⟨depth, hdepth⟩ := hpre
  obtain ⟨hfirst, hsecond⟩ := hfine.of_append
  have hR₁ := h.foldl hR hdepth hfirst
  refine ⟨_, hR₁, ?_⟩
  have hlength := Snapshots.length_saved write ⟨s, []⟩ hdepth
  have hR₂ := h.foldl hR₁ (by rw [hlength]; exact depthAfter_reverted hbody depth) hsecond
  rw [Snapshots.revert_matched hbody, ← List.foldl_append] at hR₂
  exact hR₂

end

/-! ## Restoring what is observed -/

section

variable {ω : Type u} {σ : Type v} {γ : Type w} {step : γ → SnapshotOp ω → γ} {observe : γ → σ}
variable {T : γ → List σ → Prop} {Fine : γ → SnapshotOp ω → Prop} {n m : ℕ}

/-- **A store restores what is observed**, be it in another state than before: it tracks
what was observed at each checkpoint, whatever is written, and a revert leads back. -/
structure RestoresObserved (step : γ → SnapshotOp ω → γ) (observe : γ → σ)
    (T : γ → List σ → Prop) (Fine : γ → SnapshotOp ω → Prop) : Prop where
  onWrite : ∀ c saved w, T c saved → Fine c (.write w) → T (step c (.write w)) saved
  onCheckpoint : ∀ c saved, T c saved → T (step c .checkpoint) (observe c :: saved)
  onCommit : ∀ c s saved, T c (s :: saved) → T (step c .commit) saved
  onRevert : ∀ c s saved, T c (s :: saved) → T (step c .revert) saved ∧ observe (step c .revert) = s

theorem RestoresObserved.foldl (h : RestoresObserved step observe T Fine) {ops : List (SnapshotOp ω)}
    {c : γ} {top base : List σ} (hT : T c (top ++ base)) (hdepth : depthAfter top.length ops = some m)
    (hfine : AllFine step Fine c ops) :
    ∃ top', T (ops.foldl step c) (top' ++ base) ∧ top'.length = m := by
  induction ops generalizing c top with
  | nil => exact ⟨top, hT, Option.some.inj hdepth⟩
  | cons op ops ih =>
    obtain ⟨hop, hrest⟩ := allFine_cons.1 hfine
    rcases op with w | _ | _ | _
    · exact ih (h.onWrite c _ w hT hop) hdepth hrest
    · have hT' : T (step c .checkpoint) ((observe c :: top) ++ base) := h.onCheckpoint c _ hT
      exact ih hT' hdepth hrest
    · rcases top with _ | ⟨s, top⟩
      · cases hdepth
      · exact ih (h.onCommit c s _ hT) hdepth hrest
    · rcases top with _ | ⟨s, top⟩
      · cases hdepth
      · exact ih (h.onRevert c s _ hT).1 hdepth hrest

theorem RestoresObserved.observe_reverted (h : RestoresObserved step observe T Fine)
    {pre body : List (SnapshotOp ω)} {c : γ} (hT : T c []) (hpre : Nested pre) (hbody : Matched body)
    (hfine : AllFine step Fine c (pre ++ reverted body)) :
    observe ((pre ++ reverted body).foldl step c) = observe (pre.foldl step c) := by
  obtain ⟨depth, hdepth⟩ := hpre
  obtain ⟨hfirst, hsecond⟩ := hfine.of_append
  have hT₀ : T c ([] ++ []) := hT
  obtain ⟨saved, hT₁, -⟩ := h.foldl hT₀ hdepth hfirst
  rw [List.append_nil] at hT₁
  have hT₂ : T (step (pre.foldl step c) .checkpoint) ([] ++ observe (pre.foldl step c) :: saved) :=
    h.onCheckpoint _ _ hT₁
  obtain ⟨hbody', -⟩ := (allFine_cons.1 hsecond).2.of_append
  obtain ⟨top, hT₃, hlength⟩ := h.foldl hT₂ hbody hbody'
  rw [List.eq_nil_of_length_eq_zero hlength, List.nil_append] at hT₃
  rw [reverted, List.foldl_append, List.foldl_cons, List.foldl_append]
  exact (h.onRevert _ _ _ hT₃).2

end

/-! ## Undo logs -/

section

variable {σ : Type v} {δ : Type w} {undo : δ → σ → σ} {diff : δ} {diffs : List δ} {s t : σ}
variable {saved : List σ}

/-- **Diffs are in levels**, one for each open checkpoint and one below: undoing
the last leads to what was saved last. -/
inductive UndoLevels (undo : δ → σ → σ) : List δ → σ → List σ → Prop
  | ground (diff : δ) (s : σ) : UndoLevels undo [diff] s []
  | level {diff : δ} {diffs : List δ} {s t : σ} {saved : List σ}
      (hrest : UndoLevels undo diffs t saved) (hundo : undo diff s = t) :
      UndoLevels undo (diff :: diffs) s (t :: saved)

theorem UndoLevels.exists_cons (h : UndoLevels undo diffs s saved) :
    ∃ diff lower, diffs = diff :: lower := by
  cases h with
  | ground diff s => exact ⟨diff, [], rfl⟩
  | level hrest hundo => exact ⟨_, _, rfl⟩

theorem UndoLevels.write (h : UndoLevels undo (diff :: diffs) s saved) {diff' : δ} {s' : σ}
    (hundo : undo diff' s' = undo diff s) : UndoLevels undo (diff' :: diffs) s' saved := by
  cases h with
  | ground => exact .ground diff' s'
  | level hrest h => exact .level hrest (hundo.trans h)

theorem UndoLevels.checkpoint (h : UndoLevels undo diffs s saved) (hundo : undo diff s = s) :
    UndoLevels undo (diff :: diffs) s (s :: saved) :=
  .level h hundo

theorem UndoLevels.commit {lower merged : δ} (h : UndoLevels undo (diff :: lower :: diffs) s saved)
    (hundo : undo merged s = undo lower (undo diff s)) :
    UndoLevels undo (merged :: diffs) s saved.tail := by
  cases h with
  | level hrest hdiff =>
    cases hrest with
    | ground => exact .ground merged s
    | level hrest' hlower => exact .level hrest' (by rw [hundo, hdiff, hlower])

theorem UndoLevels.revert (h : UndoLevels undo (diff :: diffs) s saved) (hne : saved ≠ []) :
    UndoLevels undo diffs (undo diff s) saved.tail ∧ saved.head? = some (undo diff s) := by
  cases h with
  | ground => exact absurd rfl hne
  | level hrest hundo =>
    subst hundo
    exact ⟨hrest, rfl⟩

end

end TsEthereum
